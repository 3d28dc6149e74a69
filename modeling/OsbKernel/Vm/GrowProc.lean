import OsbKernel.Vm.SpaceLife
import OsbKernel.Vm.UserCopy

/-!
# Growing a process

User memory after `uvmalloc` and `uvmdealloc`, and what `growproc` does for each `n`.
-/

namespace OsbKernel.Paging

open Function FreeRadix ExceptBind LawfulAllocator RamAllocator PartialMap

section UserMem

variable {K : Type} [Allocator K] {m m' : Machine K} {pt : Word} {n : Nat}

variable {a : Nat}

theorem userMem_congr (entry : pteAt m'.mem pt (a / 4096) = pteAt m.mem pt (a / 4096))
    (page : ∀ pte, pteAt m.mem pt (a / 4096) = some pte → m'.mem (PTE2PA pte) = m.mem (PTE2PA pte)) :
    userMem m' pt a = userMem m pt a := by
  by_cases inside : a / 4096 < VPNS
  · have same : userPage m' pt (a / 4096) = userPage m pt (a / 4096) := by
      rw [userPage_entry inside, userPage_entry inside, entry]
    by_cases absent : userPage m pt (a / 4096) = 0
    · rw [userMem_none absent, userMem_none (by rw [same]; exact absent)]
    · rw [userMem_some absent, userMem_some (by rw [same]; exact absent), same]
      rw [userPage_entry inside] at absent ⊢
      cases known : pteAt m.mem pt (a / 4096) with
      | none =>
        rw [known] at absent
        exact absurd rfl absent
      | some pte =>
        rw [known] at absent
        have user : userEntry (some pte) = PTE2PA pte := by
          by_cases flag : pte &&& PTE_U = 0
          · exact absurd (if_pos flag) absent
          · exact if_neg flag
        rw [user, page pte known]
  · have outside := Nat.not_lt.mp inside
    rw [userMem_none (userPage_outside outside), userMem_none (userPage_outside outside)]

theorem Kept.userMem (kept : Kept m m' pt n) (below : a < n * 4096) :
    Paging.userMem m' pt a = Paging.userMem m pt a := by
  have index : a / 4096 < n := by omega
  refine userMem_congr (kept.entries _ index) fun pte entry => kept.pages _ ?_
  exact mem_pagesFrom (Nat.zero_le _) (by omega) entry

omit [Allocator K] in
theorem Grown.keeps {lo hi : Nat} (grown : Grown m m' pt lo hi) (inside : lo ≤ VPNS) :
    Kept m m' pt lo :=
  ⟨fun u below => grown.entries u (by omega) (by omega), grown.kept⟩

theorem Grown.zeros {lo hi : Nat} (grown : Grown m m' pt lo hi) (inside : hi ≤ VPNS)
    (nonzero : ∀ u pte, lo ≤ u → u < hi → pteAt m'.mem pt u = some pte → PTE2PA pte ≠ 0)
    (low : lo * 4096 ≤ a) (high : a < hi * 4096) : Paging.userMem m' pt a = some 0 := by
  obtain ⟨p, aligned, entry, zeros⟩ := grown.fresh (a / 4096) (by omega) (by omega)
  have bits : userFlags.toNat < 1024 := by decide
  have page : PTE2PA (PA2PTE p ||| userFlags) = p := by
    rw [pte2pa_pte bits, pgrounddown_of_aligned aligned]
  have user : ¬ (PA2PTE p ||| userFlags) &&& PTE_U = 0 := by
    intro zero
    have bit := congrArg (fun w : Word => w.getLsbD 4) zero
    have one : userFlags.getLsbD 4 = true := by decide
    have mask : PTE_U.getLsbD 4 = true := by decide
    simp only [BitVec.getLsbD_and, BitVec.getLsbD_or] at bit
    rw [one, mask] at bit
    simp at bit
  have found : userPage m' pt (a / 4096) = p := by
    rw [userPage_entry (by omega), entry]
    exact (if_neg user).trans page
  have real : p ≠ 0 := by
    rw [← page]
    exact nonzero _ _ (by omega) (by omega) entry
  rw [userMem_some (by rw [found]; exact real), found, zeros]
  simp [pageByte, getByte]

end UserMem

theorem entry_without_user (pa : Word) {flags : Word} (small : flags.toNat < 1024)
    (without : flags &&& PTE_U = 0) : (PA2PTE pa ||| flags) &&& PTE_U = 0 := by
  have shape : PTE_FLAGS (PA2PTE pa ||| flags) = flags := pte_flags_pte small
  have mask : (0x3FF : Word) &&& PTE_U = PTE_U := by decide
  rw [← mask, ← BitVec.and_assoc]
  change PTE_FLAGS (PA2PTE pa ||| flags) &&& PTE_U = 0
  rw [shape, without]

section GrowProc

variable {K : Type} [Allocator K] [LawfulAllocator K] [RamAllocator K] {m m' : Machine K}
  {S : Set Word} {trampoline trapframe pt sz : Word}

/-- What `growproc(n)` is for: the size changes by exactly `n`, or nothing changes. -/
structure GrowsExactly (m m' : Machine K) (S : Set Word) (pt sz : Word) (n : BitVec 32)
    (result : Option Word) : Prop where
  size : ∀ newsz, result = some newsz → (newsz.toNat : Int) = sz.toNat + n.toInt
  zeros : ∀ newsz, result = some newsz → ∀ a, pagesBelow sz * 4096 ≤ a →
    a < pagesBelow newsz * 4096 → userMem m' pt a = some 0
  bytes : ∀ newsz, result = some newsz → ∀ a < min sz.toNat newsz.toNat,
    userMem m' pt a = userMem m pt a
  entries : result = none → ∀ u < VPNS, pteAt m'.mem pt u = pteAt m.mem pt u
  unchanged : result = none → userMem m' pt = userMem m pt
  freed : result = none → ∃ S', Owns m' S' ∧ ∀ x ∈ S, x ∈ S' ∨ x ∈ tables m'.mem pt

omit [RamAllocator K] in
theorem GrowsExactly.success {newsz : Word} {n : BitVec 32}
    (target : (newsz.toNat : Int) = sz.toNat + n.toInt)
    (zeros : ∀ a, pagesBelow sz * 4096 ≤ a → a < pagesBelow newsz * 4096 →
      userMem m' pt a = some 0)
    (bytes : ∀ a < min sz.toNat newsz.toNat, userMem m' pt a = userMem m pt a) :
    GrowsExactly m m' S pt sz n (some newsz) := by
  refine ⟨?_, ?_, ?_, ?_, ?_, ?_⟩
  · intro _ known
    cases known
    exact target
  · intro _ known
    cases known
    exact zeros
  · intro _ known
    cases known
    exact bytes
  all_goals
    intro impossible
    cases impossible

omit [RamAllocator K] in
theorem GrowsExactly.mapped {newsz : Word} {n : BitVec 32}
    (exactly : GrowsExactly m m' S pt sz n (some newsz)) (grows : sz.toNat ≤ newsz.toNat)
    (last : userMem m pt (sz.toNat - 1) ≠ none) {x : Nat} (inside : x < newsz.toNat)
    (old : x < sz.toNat → userMem m pt x ≠ none) : userMem m' pt x ≠ none := by
  have bytes := exactly.bytes newsz rfl
  by_cases below : x < sz.toNat
  · rw [bytes x (by omega)]
    exact old below
  by_cases within : x < pagesBelow sz * 4096
  · have page : x / 4096 = (sz.toNat - 1) / 4096 := by
      unfold pagesBelow at within
      omega
    rw [← bytes _ (by unfold pagesBelow at within; omega), userMem_ne_none, ← page] at last
    exact userMem_ne_none.mpr last
  · rw [exactly.zeros newsz rfl x (by omega) (by unfold pagesBelow; omega)]
    exact Option.some_ne_none _

theorem Space.page_nonzero (space : Space m trampoline trapframe pt sz) {u : Nat} {pte : Word}
    (below : u < pagesBelow sz) (entry : pteAt m.mem pt u = some pte) : PTE2PA pte ≠ 0 :=
  nonzero (space.ram _ (List.mem_append_right _ (mem_pagesFrom (Nat.zero_le u) (by omega) entry)))

theorem Space.userMem_above (space : Space m trampoline trapframe pt sz)
    (above : pagesBelow sz * 4096 ≤ a) : userMem m pt a = none := by
  by_cases inside : a / 4096 < VPNS
  · refine userMem_none ?_
    rw [userPage_entry inside]
    by_cases low : a / 4096 < VPNS - 2
    · rw [space.gap _ (by omega) low]
      rfl
    · obtain frame | code : a / 4096 = VPNS - 2 ∨ a / 4096 = VPNS - 1 := by omega
      · rw [frame, space.frame]
        refine if_pos ?_
        exact entry_without_user _ (by decide) (by decide)
      · rw [code, space.code]
        refine if_pos ?_
        exact entry_without_user _ (by decide) (by decide)
  · exact userMem_none (userPage_outside (Nat.not_lt.mp inside))

theorem Space.size_toNat (space : Space m trampoline trapframe pt sz) :
    sz.toNat ≤ 2 ^ 27 ∧ ((sz.setWidth 32).setWidth 64 : Word) = sz := by
  have small := space.size
  have bound : sz.toNat ≤ 2 ^ 27 := by
    unfold pagesBelow at small
    omega
  refine ⟨bound, ?_⟩
  apply BitVec.eq_of_toNat_eq
  rw [BitVec.toNat_setWidth, BitVec.toNat_setWidth]
  omega

theorem grow_target (small : sz.toNat ≤ 2 ^ 27) (n : BitVec 32) :
    (((sz.setWidth 32 + n).setWidth 64 : Word).toNat : Int) =
      if 0 ≤ (sz.toNat : Int) + n.toInt then sz.toNat + n.toInt
      else sz.toNat + n.toInt + 2 ^ 32 := by
  rw [BitVec.toNat_setWidth, BitVec.toNat_add, BitVec.toNat_setWidth, BitVec.toInt_eq_toNat_cond]
  split <;> split <;> omega

/-- The state after `growproc`, with a size that fits and with one that wraps around. -/
structure GrowOutcome (m m' : Machine K) (S : Set Word)
    (trampoline trapframe pt sz : Word) (n : BitVec 32) (result : Option Word) : Prop where
  space : Space m' trampoline trapframe pt (result.getD sz)
  exchange : ∃ S', Exchange m m' S S' (footprint m.mem pt sz)
    (footprint m'.mem pt (result.getD sz))
  fits : 0 ≤ (sz.toNat : Int) + n.toInt → GrowsExactly m m' S pt sz n result
  wraps : (sz.toNat : Int) + n.toInt < 0 → result = some sz

section Outcomes

variable {newsz : Word} {S' : Set Word} {n : BitVec 32}
  (space : Space m trampoline trapframe pt sz)
include space

theorem GrowOutcome.more (space' : Space m' trampoline trapframe pt newsz)
    (exchange : Exchange m m' S S' (footprint m.mem pt sz) (footprint m'.mem pt newsz))
    (grown : Grown m m' pt (pagesBelow sz) (pagesBelow newsz))
    (target : (newsz.toNat : Int) = sz.toNat + n.toInt) :
    GrowOutcome m m' S trampoline trapframe pt sz n (some newsz) := by
  have pages := space.size
  have pages' := space'.size
  have top : VPNS = 2 ^ 26 := rfl
  refine ⟨space', ⟨S', exchange⟩, fun _ => .success target ?_ ?_, fun negative => by omega⟩
  · intro a low high
    exact grown.zeros (by omega) (fun u pte _ below entry => space'.page_nonzero below entry) low high
  · intro a below
    refine (grown.keeps (by omega)).userMem ?_
    unfold pagesBelow
    omega

theorem GrowOutcome.failed (apart : ∀ x ∈ footprint m.mem pt sz, x ∉ S)
    (space' : Space m' trampoline trapframe pt sz)
    (exchange : Exchange m m' S S' (footprint m.mem pt sz) (footprint m'.mem pt sz))
    (grown : Grown m m' pt (pagesBelow sz) (pagesBelow sz)) (positive : 0 < n.toInt) :
    GrowOutcome m m' S trampoline trapframe pt sz n none := by
  have pages := space.size
  have top : VPNS = 2 ^ 26 := rfl
  have entries : ∀ u < VPNS, pteAt m'.mem pt u = pteAt m.mem pt u :=
    fun u below => grown.entries u below (by omega)
  refine ⟨space', ⟨S', exchange⟩, fun _ => ⟨?_, ?_, ?_, fun _ => entries, fun _ => ?_, fun _ =>
    ⟨S', exchange.owns, ?_⟩⟩, fun negative => by omega⟩
  · intro _ impossible
    cases impossible
  · intro _ impossible
    cases impossible
  · intro _ impossible
    cases impossible
  · funext a
    by_cases below : a < pagesBelow sz * 4096
    · exact (grown.keeps (by omega)).userMem below
    · rw [space.userMem_above (Nat.not_lt.mp below), space'.userMem_above (Nat.not_lt.mp below)]
  · intro x free
    rcases (exchange.conserve x).mpr (.inl free) with still | mine
    · exact .inl still
    · rcases List.mem_append.mp mine with table | page
      · exact .inr table
      · have old : x ∈ pagesFrom (pteAt m.mem pt) 0 (pagesBelow sz) := by
          rw [pagesFrom_congr fun u _ high => (entries u (by omega)).symm]
          exact page
        exact absurd free (apart x (List.mem_append_right _ old))

omit space in
theorem GrowOutcome.fewer (space' : Space m' trampoline trapframe pt newsz)
    (exchange : Exchange m m' S S' (footprint m.mem pt sz) (footprint m'.mem pt newsz))
    (kept : Kept m m' pt (pagesBelow newsz)) (less : newsz < sz)
    (target : (newsz.toNat : Int) = sz.toNat + n.toInt) :
    GrowOutcome m m' S trampoline trapframe pt sz n (some newsz) := by
  have mono := pagesBelow_mono (Nat.le_of_lt (BitVec.lt_def.mp less))
  refine ⟨space', ⟨S', exchange⟩, fun _ => .success target ?_ ?_, fun wraps => by omega⟩
  · omega
  · intro a below
    refine kept.userMem ?_
    unfold pagesBelow
    omega

theorem GrowOutcome.same (owns : Owns m S) (apart : ∀ x ∈ footprint m.mem pt sz, x ∉ S)
    (still : 0 ≤ (sz.toNat : Int) + n.toInt → n.toInt = 0) :
    GrowOutcome m m S trampoline trapframe pt sz n (some sz) := by
  refine ⟨space, ⟨S, .refl owns apart⟩, fun fits => .success ?_ ?_ ?_, fun _ => rfl⟩
  · rw [still fits, Int.add_zero]
  · omega
  · exact fun _ _ => rfl

end Outcomes

/-- `growproc` keeps the shape of the address space, and returns what the size says. -/
theorem growproc_outcome (owns : Owns m S) (space : Space m trampoline trapframe pt sz)
    (apart : ∀ x ∈ footprint m.mem pt sz, x ∉ S) (n : BitVec 32) :
    ∃ result m', growproc m pt sz n = .ok (result, m') ∧
      GrowOutcome m m' S trampoline trapframe pt sz n result := by
  obtain ⟨small, narrow⟩ := space.size_toNat
  have target := grow_target small n
  unfold growproc
  dsimp only
  rw [narrow]
  generalize ((sz.setWidth 32 + n).setWidth 64 : Word) = newsz at *
  by_cases positive : 0 < n.toInt
  · rw [if_pos positive]
    rw [if_pos (by omega)] at target
    obtain ⟨size, m', ran, cases⟩ := uvmalloc_space owns space apart newsz
    rw [ran]
    rcases cases with ⟨less, -, -⟩ | ⟨-, rfl, space', ⟨S', exchange⟩, grown⟩ |
      ⟨-, rfl, space', ⟨S', exchange⟩, grown⟩
    · have known := BitVec.lt_def.mp less
      omega
    · obtain ⟨small', narrow'⟩ := space'.size_toNat
      have nonzero : ¬ (size.setWidth 32 : BitVec 32) = 0 := by
        intro zero
        rw [zero] at narrow'
        have value := congrArg BitVec.toNat narrow'
        change 0 = size.toNat at value
        omega
      refine ⟨some size, m', ?_, .more space space' exchange grown target⟩
      change Except.ok (if (size.setWidth 32 : BitVec 32) = 0 then none
        else some ((size.setWidth 32).setWidth 64), m') = _
      rw [if_neg nonzero, narrow']
    · exact ⟨none, m', rfl, .failed space apart space' exchange grown positive⟩
  · rw [if_neg positive]
    by_cases negative : n.toInt < 0
    · rw [if_pos negative]
      obtain ⟨size, m', ran, cases⟩ := uvmdealloc_space owns space apart newsz
      rw [ran]
      rcases cases with ⟨larger, rfl, rfl⟩ | ⟨less, rfl, space', ⟨S', exchange⟩, kept⟩
      · have known := BitVec.le_def.mp larger
        refine ⟨some size, m', ?_, .same space owns apart fun fits => ?_⟩
        · change Except.ok (some ((size.setWidth 32).setWidth 64), m') = _
          rw [narrow]
        · omega
      · obtain ⟨small', narrow'⟩ := space'.size_toNat
        have fits : 0 ≤ (sz.toNat : Int) + n.toInt := by
          by_contra wraps
          have low := BitVec.le_toInt n
          omega
        rw [if_pos fits] at target
        refine ⟨some size, m', ?_, .fewer space' exchange kept less target⟩
        change Except.ok (some ((size.setWidth 32).setWidth 64), m') = _
        rw [narrow']
    · rw [if_neg negative]
      exact ⟨some sz, m, rfl, .same space owns apart fun _ => by omega⟩

/-- `growproc(n)` changes the size by exactly `n` or not at all if and only if the new size is not
negative: below that it returns 0 and leaves the size as it is. -/
theorem growproc_exact_iff {L : Layout} {m : Machine (Failing (Kmem L))} (owns : Owns m S)
    (space : Space m trampoline trapframe pt sz)
    (apart : ∀ x ∈ footprint m.mem pt sz, x ∉ S) (n : BitVec 32) :
    ∃ result m', growproc m pt sz n = .ok (result, m') ∧
      (GrowsExactly m m' S pt sz n result ↔ 0 ≤ (sz.toNat : Int) + n.toInt) := by
  obtain ⟨result, m', ran, outcome⟩ := growproc_outcome owns space apart n
  refine ⟨result, m', ran, ?_, outcome.fits⟩
  intro exactly
  by_contra negative
  have same := exactly.size sz (outcome.wraps (by omega))
  omega

/-- A process of one page grows by two. -/
theorem growproc_exact_iff_small : ∃ (m m' : Machine (Failing (Kmem smallLayout))) (S : Set Word)
    (pt : Word), growproc m pt 4096 8192 = .ok (some 12288, m') ∧
      GrowsExactly m m' S pt 4096 8192 (some 12288) := by
  have value : (smallProcess >>= fun r => growproc r.2.2 (r.1.getD 0) 4096 8192).toOption.map
      Prod.fst = some (some 12288) := by
    decide +kernel
  obtain ⟨m, S, pt, made, owns, space, apart⟩ := smallProcess_space
  obtain ⟨result, m', ran, exactly⟩ := growproc_exact_iff owns space apart 8192
  rw [bind_eq made, Option.getD_some, ran] at value
  cases value
  exact ⟨m, m', S, pt, ran, exactly.mpr (by decide)⟩

/-- `sbrk(-8192)` in a process of 4096 bytes returns 0, and the size stays 4096. -/
theorem growproc_below_zero : ∃ (m : Machine (Failing (Kmem smallLayout))) (S : Set Word)
    (pt : Word), Owns m S ∧ Space m 0x80000000 0x80001000 pt 4096 ∧
      ∃ m', growproc m pt 4096 (-8192) = .ok (some 4096, m') ∧
        ¬ GrowsExactly m m' S pt 4096 (-8192) (some 4096) := by
  obtain ⟨m, S, pt, -, owns, space, apart⟩ := smallProcess_space
  obtain ⟨result, m', ran, outcome⟩ := growproc_outcome owns space apart (-8192)
  have kept : result = some 4096 := outcome.wraps (by decide)
  subst kept
  refine ⟨m, S, pt, owns, space, m', ran, ?_⟩
  intro exactly
  exact absurd (exactly.size 4096 rfl) (by decide)

end GrowProc

end OsbKernel.Paging
