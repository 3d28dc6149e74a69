import OsbKernel.Vm.FreeWalk
import OsbKernel.Vm.ProcMemory

/-!
# Address spaces

The shape of the page table of a process of a given size, and the pages that it owns.  Every
function moves pages between the free pages and the pages of one address space, so nothing is
lost, shared or freed twice.
-/

namespace OsbKernel.Paging

open Function FreeRadix ExceptBind LawfulAllocator RamAllocator

def footprint (mem : Memory) (pt sz : Word) : List Word :=
  tables mem pt ++ pagesFrom (pteAt mem pt) 0 (pagesBelow sz)

def guardFlags : Word := PTE_W ||| PTE_X ||| PTE_R ||| PTE_V

def trapframePte (trapframe : Word) : Word := PA2PTE trapframe ||| (PTE_R ||| PTE_W ||| PTE_V)

def trampolinePte (trampoline : Word) : Word := PA2PTE trampoline ||| (PTE_R ||| PTE_X ||| PTE_V)

/-- The address space of a process of size `sz`. -/
structure Space {K : Type} [Allocator K] [LawfulAllocator K] [RamAllocator K] (m : Machine K)
    (trampoline trapframe pt sz : Word) : Prop where
  tidy : Tidy m.mem pt
  nodup : (footprint m.mem pt sz).Nodup
  ram : ∀ x ∈ footprint m.mem pt sz, Ram K x
  user : ∀ u < pagesBelow sz, ∃ pte, pteAt m.mem pt u = some pte ∧
    (PTE_FLAGS pte = userFlags ∨ PTE_FLAGS pte = guardFlags)
  guard : ∀ u < pagesBelow sz, ∀ w < pagesBelow sz, flagsAt (pteAt m.mem pt) u = guardFlags →
    flagsAt (pteAt m.mem pt) w = guardFlags → u = w
  gap : ∀ u, pagesBelow sz ≤ u → u < VPNS - 2 → pteAt m.mem pt u = none
  frame : pteAt m.mem pt (VPNS - 2) = some (trapframePte trapframe)
  code : pteAt m.mem pt (VPNS - 1) = some (trampolinePte trampoline)

/-- Pages go from the owner of `P` to the free pages or back; the owner then has `P'`. -/
structure Exchange {K : Type} [Allocator K] [LawfulAllocator K] (m m' : Machine K)
    (S S' : Set Word) (P P' : List Word) : Prop where
  owns : Owns m' S'
  conserve : ∀ x, x ∈ S' ∨ x ∈ P' ↔ x ∈ S ∨ x ∈ P
  apart : ∀ x ∈ P', x ∉ S'
  frame : ∀ x, x ∉ S → x ∉ P → m'.mem x = m.mem x

section Exchange

variable {K : Type} [Allocator K] [LawfulAllocator K] {m m' m'' : Machine K} {S S' S'' : Set Word}
  {P P' P'' : List Word}

theorem Exchange.refl (owns : Owns m S) (apart : ∀ x ∈ P, x ∉ S) : Exchange m m S S P P :=
  ⟨owns, fun _ => Iff.rfl, apart, fun _ _ _ => rfl⟩

theorem Exchange.trans (first : Exchange m m' S S' P P') (second : Exchange m' m'' S' S'' P' P'') :
    Exchange m m'' S S'' P P'' := by
  refine ⟨second.owns, fun x => (second.conserve x).trans (first.conserve x), second.apart, ?_⟩
  intro x notFree notOwned
  have outside : ¬ (x ∈ S' ∨ x ∈ P') := by
    rw [first.conserve]
    exact not_or.mpr ⟨notFree, notOwned⟩
  rw [not_or] at outside
  rw [second.frame x outside.1 outside.2, first.frame x notFree notOwned]

theorem Exchange.nothing (exchange : Exchange m m' S S' [] []) : S' = S := by
  ext x
  have known := exchange.conserve x
  simpa using known

end Exchange

section Space

variable {K : Type} [Allocator K] [LawfulAllocator K] [RamAllocator K] {m m' : Machine K}
  {S S' : Set Word} {trampoline trapframe pt sz : Word}

theorem mem_pagesFrom {entries : Nat → Option Word} {u v count : Nat} {pte : Word} (low : v ≤ u)
    (high : u < v + count) (entry : entries u = some pte) : PTE2PA pte ∈ pagesFrom entries v count := by
  refine List.mem_filterMap.mpr ⟨u, List.mem_range'_1.mpr ⟨low, high⟩, ?_⟩
  rw [entry]
  rfl

section Facts

variable (space : Space m trampoline trapframe pt sz)

include space

theorem Space.tableOk (apart : ∀ x ∈ footprint m.mem pt sz, x ∉ S) : TableOk m S pt :=
  ⟨(List.nodup_append.mp space.nodup).1, fun x listed => apart x (List.mem_append_left _ listed)⟩

theorem Space.releasable (apart : ∀ x ∈ footprint m.mem pt sz, x ∉ S) :
    Releasable S (tables m.mem pt) (pagesFrom (pteAt m.mem pt) 0 (pagesBelow sz)) := by
  obtain ⟨-, nodup, away⟩ := List.nodup_append.mp space.nodup
  exact ⟨nodup, fun x listed => apart x (List.mem_append_right _ listed),
    fun x listed table => away x table x listed rfl⟩

theorem Space.leaf {u : Nat} (below : u < pagesBelow sz) : Leaf K true (pteAt m.mem pt u) := by
  obtain ⟨pte, entry, flags⟩ := space.user u below
  refine ⟨pte, entry, ?_, fun _ => ?_⟩
  · rcases flags with known | known <;> (rw [known]; decide)
  · exact space.ram _ (List.mem_append_right _ (mem_pagesFrom (Nat.zero_le u) (by omega) entry))

/-- A process owns as many user pages as its size says, so it is no larger than RAM. -/
theorem Space.size : pagesBelow sz ≤ 2 ^ 15 := by
  obtain ⟨-, nodup, -⟩ := List.nodup_append.mp space.nodup
  have count : (pagesFrom (pteAt m.mem pt) 0 (pagesBelow sz)).length = pagesBelow sz := by
    have all : ∀ u ∈ List.range' 0 (pagesBelow sz),
        ((pteAt m.mem pt u).map PTE2PA).isSome = true := by
      intro u listed
      rw [List.mem_range'_1] at listed
      obtain ⟨pte, entry, -⟩ := space.user u (by omega)
      rw [entry, Option.map_some, Option.isSome_some]
    rw [pagesFrom, List.length_filterMap_eq_countP, List.countP_eq_length.mpr all, List.length_range']
  rw [← count]
  exact bound nodup fun x listed => space.ram x (List.mem_append_right _ listed)

theorem Space.congr (same : ∀ x ∈ tables m.mem pt, m'.mem x = m.mem x) :
    Space m' trampoline trapframe pt sz ∧
      footprint m'.mem pt sz = footprint m.mem pt sz := by
  have entries : pteAt m'.mem pt = pteAt m.mem pt := by
    funext v
    exact Format.lookup_congr (indices_lt v) same
  have pages : footprint m'.mem pt sz = footprint m.mem pt sz := by
    have shape : tables m'.mem pt = tables m.mem pt := Format.nodes_congr same
    rw [footprint, footprint, entries, shape]
  refine ⟨⟨space.tidy.congr same, ?_, ?_, ?_, ?_, ?_, ?_, ?_⟩, pages⟩
  · rw [pages]
    exact space.nodup
  · rw [pages]
    exact space.ram
  · rw [entries]
    exact space.user
  · rw [entries]
    exact space.guard
  · rw [entries]
    exact space.gap
  · rw [entries]
    exact space.frame
  · rw [entries]
    exact space.code

end Facts

theorem pagesFrom_append (entries : Nat → Option Word) (v a b : Nat) :
    pagesFrom entries v (a + b) = pagesFrom entries v a ++ pagesFrom entries (v + a) b := by
  rw [pagesFrom, ← List.range'_append_1, List.filterMap_append]
  rfl

/-- The pages from `lo` to `hi` are new and filled with zeros; the pages below `lo` are kept. -/
structure Grown (m m' : Machine K) (pt : Word) (lo hi : Nat) : Prop where
  entries : ∀ u < VPNS, ¬ (lo ≤ u ∧ u < hi) → pteAt m'.mem pt u = pteAt m.mem pt u
  fresh : ∀ u, lo ≤ u → u < hi → ∃ p, p.toNat % 4096 = 0 ∧
    pteAt m'.mem pt u = some (PA2PTE p ||| userFlags) ∧ m'.mem p = fun _ => 0
  kept : ∀ x ∈ pagesFrom (pteAt m.mem pt) 0 lo, m'.mem x = m.mem x

variable {added data : List Word} {newsz : Word} {flags : Nat → Word}

omit [RamAllocator K] in
theorem Filled.footprint (filled : Filled m m' S pt (pagesBelow sz) flags added data)
    (small : ∀ i, (flags i).toNat < 1024) (count : pagesBelow sz + data.length = pagesBelow newsz) :
    (Paging.footprint m'.mem pt newsz).Perm
      ((added ++ data) ++ Paging.footprint m.mem pt sz) := by
  have below := filled.inside
  have old : pagesFrom (pteAt m'.mem pt) 0 (pagesBelow sz) =
      pagesFrom (pteAt m.mem pt) 0 (pagesBelow sz) := by
    refine pagesFrom_congr fun u _ high => ?_
    rw [filled.grants.entries u (by omega), bindPages, if_neg (by omega)]
  have new := filled.pages small
  rw [Paging.footprint, Paging.footprint, ← count, pagesFrom_append, Nat.zero_add, old, new]
  refine (filled.grants.tables.append_right _).trans ?_
  rw [List.append_assoc, List.append_assoc]
  refine List.Perm.append_left added ?_
  rw [← List.append_assoc]
  exact List.perm_append_comm

theorem Filled.space (filled : Filled m m' S pt (pagesBelow sz) flags added data)
    (owns : Owns m S) (space : Space m trampoline trapframe pt sz)
    (apart : ∀ x ∈ Paging.footprint m.mem pt sz, x ∉ S)
    (count : pagesBelow sz + data.length = pagesBelow newsz) (fits : pagesBelow newsz ≤ VPNS - 2)
    (small : ∀ i, (flags i).toNat < 1024)
    (proper : ∀ i < data.length, flags i = userFlags ∨ flags i = guardFlags)
    (single : ∀ u < pagesBelow newsz, ∀ w < pagesBelow newsz,
      flagsAt (pteAt m'.mem pt) u = guardFlags →
      flagsAt (pteAt m'.mem pt) w = guardFlags → u = w) :
    Space m' trampoline trapframe pt newsz ∧
      Exchange m m' S (S \ {x | x ∈ added ++ data}) (Paging.footprint m.mem pt sz)
        (Paging.footprint m'.mem pt newsz) := by
  have pages := filled.footprint small count
  have top : VPNS = 2 ^ 26 := rfl
  have entries : ∀ u < VPNS, ¬ (pagesBelow sz ≤ u ∧ u < pagesBelow newsz) →
      pteAt m'.mem pt u = pteAt m.mem pt u := by
    intro u below outside
    rw [filled.grants.entries u below, bindPages, if_neg (by omega)]
  refine ⟨⟨filled.grants.tidy space.tidy, ?_, ?_, ?_, single, ?_, ?_, ?_⟩, filled.grants.owns, ?_, ?_,
    ?_⟩
  · rw [pages.nodup_iff]
    refine List.nodup_append.mpr ⟨filled.grants.nodup, space.nodup, ?_⟩
    rintro x new _ old rfl
    exact apart x old (filled.grants.fresh x new)
  · intro x listed
    rcases List.mem_append.mp (pages.mem_iff.mp listed) with new | old
    · exact owned owns (filled.grants.fresh x new)
    · exact space.ram x old
  · intro u below
    by_cases old : u < pagesBelow sz
    · rw [entries u (by omega) (by omega)]
      exact space.user u old
    · refine ⟨packPte data flags (u - pagesBelow sz), ?_, ?_⟩
      · rw [filled.grants.entries u (by omega), bindPages, if_pos (by omega)]
      · rw [packPte, pte_flags_pte (small _)]
        exact proper _ (by omega)
  · intro u low high
    rw [entries u (by omega) (by omega)]
    exact space.gap u (by omega) high
  · rw [entries _ (by omega) (by omega)]
    exact space.frame
  · rw [entries _ (by omega) (by omega)]
    exact space.code
  · intro x
    rw [pages.mem_iff, List.mem_append]
    constructor
    · rintro (⟨free, -⟩ | new | old)
      · exact .inl free
      · exact .inl (filled.grants.fresh x new)
      · exact .inr old
    · rintro (free | old)
      · by_cases new : x ∈ added ++ data
        · exact .inr (.inl new)
        · exact .inl ⟨free, new⟩
      · exact .inr (.inr old)
  · intro x listed
    rcases List.mem_append.mp (pages.mem_iff.mp listed) with new | old
    · exact fun free => free.2 new
    · exact fun free => apart x old free.1
  · intro x notFree notOwned
    exact filled.grants.frame x (fun table => notOwned (List.mem_append_left _ table)) notFree

theorem Filled.single
    (filled : Filled m m' S pt (pagesBelow sz) (fun _ => userFlags) added data)
    (space : Space m trampoline trapframe pt sz)
    (count : pagesBelow sz + data.length = pagesBelow newsz) (fits : pagesBelow newsz ≤ VPNS) :
    ∀ u < pagesBelow newsz, ∀ w < pagesBelow newsz,
      flagsAt (pteAt m'.mem pt) u = guardFlags →
      flagsAt (pteAt m'.mem pt) w = guardFlags → u = w := by
  have old : ∀ u < pagesBelow newsz, flagsAt (pteAt m'.mem pt) u = guardFlags →
      u < pagesBelow sz ∧ flagsAt (pteAt m.mem pt) u = guardFlags := by
    intro u below known
    rw [flagsAt, filled.grants.entries u (by omega), bindPages] at known
    by_cases new : pagesBelow sz ≤ u ∧ u < pagesBelow sz + data.length
    · rw [if_pos new, Option.getD_some, packPte, pte_flags_pte (by decide)] at known
      exact absurd known (by decide)
    · rw [if_neg new] at known
      exact ⟨by omega, known⟩
  intro u below w below' first second
  obtain ⟨first', guarded⟩ := old u below first
  obtain ⟨second', guarded'⟩ := old w below' second
  exact space.guard u first' w second' guarded guarded'

omit [RamAllocator K] in
theorem Filled.grown {hi : Nat}
    (filled : Filled m m' S pt (pagesBelow sz) (fun _ => userFlags) added data)
    (zeroed : Zeroed m' data) (count : pagesBelow sz + data.length = hi)
    (able : Releasable S (tables m.mem pt)
      (pagesFrom (pteAt m.mem pt) 0 (pagesBelow sz))) :
    Grown m m' pt (pagesBelow sz) hi := by
  have below := filled.inside
  refine ⟨?_, ?_, ?_⟩
  · intro u inside outside
    rw [filled.grants.entries u inside, bindPages, if_neg (by omega)]
  · intro u low high
    have index : u - pagesBelow sz < data.length := by omega
    have listed : data.getD (u - pagesBelow sz) 0 ∈ data := by
      rw [List.getD_eq_getElem _ _ index]
      exact List.getElem_mem index
    refine ⟨data.getD (u - pagesBelow sz) 0, filled.aligned _ listed, ?_, zeroed _ listed⟩
    rw [filled.grants.entries u (by omega), bindPages, if_pos (by omega)]
    rfl
  · intro x listed
    exact filled.grants.frame x (able.away x listed) (able.taken x listed)

omit [RamAllocator K] in
theorem Unchanged.filled (unchanged : Unchanged m m' S pt) {lo : Nat} (inside : lo ≤ VPNS) :
    ∃ added, Filled m m' S pt lo (fun _ => userFlags) added [] := by
  obtain ⟨added, grants⟩ := unchanged
  refine ⟨added, ?_, fun x listed => absurd listed List.not_mem_nil, inside, fun u low high => ?_⟩
  · change Grants m m' S pt added [] (bindPages _ lo 0 _)
    rw [bindPages_zero]
    exact grants
  · change u < lo + 0 at high
    omega

theorem uvmalloc_space (owns : Owns m S) (space : Space m trampoline trapframe pt sz)
    (apart : ∀ x ∈ footprint m.mem pt sz, x ∉ S) (newsz : Word) :
    ∃ size m', uvmalloc m pt sz newsz = .ok (size, m') ∧
      ((newsz < sz ∧ size = sz ∧ m' = m) ∨
        (sz ≤ newsz ∧ size = newsz ∧ Space m' trampoline trapframe pt newsz ∧
          (∃ S', Exchange m m' S S' (footprint m.mem pt sz) (footprint m'.mem pt newsz)) ∧
          Grown m m' pt (pagesBelow sz) (pagesBelow newsz)) ∨
        (sz ≤ newsz ∧ size = 0 ∧ Space m' trampoline trapframe pt sz ∧
          (∃ S', Exchange m m' S S' (footprint m.mem pt sz) (footprint m'.mem pt sz)) ∧
          Grown m m' pt (pagesBelow sz) (pagesBelow sz))) := by
  have ok := space.tableOk apart
  have able := space.releasable apart
  have small := space.size
  have top : VPNS = 2 ^ 26 := rfl
  have inside : sz.toNat ≤ 2 ^ 38 := by
    unfold pagesBelow at small
    omega
  obtain ⟨size, m', ran⟩ := uvmalloc_some owns ok (by omega)
    (fun u low high => space.gap u low (by omega))
  refine ⟨size, m', ran, ?_⟩
  rcases uvmalloc_cases owns ok inside ran with
    smaller | ⟨larger, grown, added, data, count, filled, zeroed⟩ | ⟨larger, failed, unchanged⟩
  · exact .inl smaller
  · have mono := pagesBelow_mono (BitVec.le_def.mp larger)
    have short : data.length ≤ 2 ^ 15 := by
      refine bound (List.nodup_append.mp filled.grants.nodup).2.1 (K := K) fun x listed => ?_
      exact owned owns (filled.grants.fresh x (List.mem_append_right _ listed))
    have total : pagesBelow sz + data.length = pagesBelow newsz := by omega
    obtain ⟨space', exchange⟩ := filled.space owns space apart total (by omega) (fun _ => by decide)
      (fun _ _ => .inl rfl) (filled.single space total (by omega))
    exact .inr (.inl ⟨larger, grown, space', ⟨_, exchange⟩, filled.grown zeroed total able⟩)
  · obtain ⟨added, filled⟩ := unchanged.filled (by omega : pagesBelow sz ≤ VPNS)
    obtain ⟨space', exchange⟩ := filled.space owns space apart rfl (by omega) (fun _ => by decide)
      (fun _ _ => .inl rfl) (filled.single space rfl (by omega))
    have nothing : Zeroed m' [] := fun x listed => absurd listed List.not_mem_nil
    exact .inr (.inr ⟨larger, failed, space', ⟨_, exchange⟩, filled.grown nothing rfl able⟩)

/-- The pages below `n` are kept with their contents. -/
structure Kept (m m' : Machine K) (pt : Word) (n : Nat) : Prop where
  entries : ∀ u < n, pteAt m'.mem pt u = pteAt m.mem pt u
  pages : ∀ x ∈ pagesFrom (pteAt m.mem pt) 0 n, m'.mem x = m.mem x

theorem footprint_split (mem : Memory) (pt : Word)
    (fewer : pagesBelow newsz ≤ pagesBelow sz) :
    footprint mem pt sz = footprint mem pt newsz ++
      pagesFrom (pteAt mem pt) (pagesBelow newsz) (pagesBelow sz - pagesBelow newsz) := by
  rw [footprint, footprint, List.append_assoc]
  congr 1
  have split := pagesFrom_append (pteAt mem pt) 0 (pagesBelow newsz)
    (pagesBelow sz - pagesBelow newsz)
  rw [Nat.zero_add, Nat.add_sub_cancel' fewer] at split
  exact split

theorem Unmaps.space {freed : List Word}
    (unmaps : Unmaps m m' S pt freed
      (unbindPages (pteAt m.mem pt) (pagesBelow newsz) (pagesBelow sz - pagesBelow newsz)))
    (space : Space m trampoline trapframe pt sz) (fewer : pagesBelow newsz ≤ pagesBelow sz)
    (apart : ∀ x ∈ footprint m.mem pt sz, x ∉ S)
    (gone : freed = pagesFrom (pteAt m.mem pt) (pagesBelow newsz)
      (pagesBelow sz - pagesBelow newsz)) :
    Space m' trampoline trapframe pt newsz ∧
      Exchange m m' S (S ∪ {x | x ∈ freed}) (footprint m.mem pt sz)
        (footprint m'.mem pt newsz) ∧ Kept m m' pt (pagesBelow newsz) := by
  have small := space.size
  have top : VPNS = 2 ^ 26 := rfl
  have entries : ∀ u < VPNS, ¬ (pagesBelow newsz ≤ u ∧ u < pagesBelow sz) →
      pteAt m'.mem pt u = pteAt m.mem pt u := by
    intro u below outside
    rw [unmaps.entries u below, unbindPages, if_neg (by omega)]
  have split := footprint_split m.mem pt fewer
  rw [← gone] at split
  have nodup := space.nodup
  rw [split] at nodup
  obtain ⟨distinct, -, disjoint⟩ := List.nodup_append.mp nodup
  have left : pagesFrom (pteAt m'.mem pt) 0 (pagesBelow newsz) =
      pagesFrom (pteAt m.mem pt) 0 (pagesBelow newsz) :=
    pagesFrom_congr fun u _ high => entries u (by omega) (by omega)
  have pages : (footprint m'.mem pt newsz).Perm (footprint m.mem pt newsz) := by
    rw [footprint, footprint, left]
    exact unmaps.tables.append_right _
  have part : ∀ x ∈ footprint m'.mem pt newsz, x ∈ footprint m.mem pt sz := by
    intro x listed
    rw [split]
    exact List.mem_append_left _ (pages.mem_iff.mp listed)
  refine ⟨⟨unmaps.tidy space.tidy, ?_, ?_, ?_, ?_, ?_, ?_, ?_⟩, ⟨unmaps.owns, ?_, ?_, ?_⟩, ?_, ?_⟩
  · rw [pages.nodup_iff]
    exact distinct
  · exact fun x listed => space.ram x (part x listed)
  · intro u below
    rw [entries u (by omega) (by omega)]
    exact space.user u (by omega)
  · intro u below w below' first second
    rw [flagsAt, entries u (by omega) (by omega)] at first
    rw [flagsAt, entries w (by omega) (by omega)] at second
    exact space.guard u (by omega) w (by omega) first second
  · intro u low high
    rw [unmaps.entries u (by omega), unbindPages]
    by_cases removed : pagesBelow newsz ≤ u ∧ u < pagesBelow newsz + (pagesBelow sz - pagesBelow newsz)
    · rw [if_pos removed]
    · rw [if_neg removed]
      exact space.gap u (by omega) high
  · rw [entries _ (by omega) (by omega)]
    exact space.frame
  · rw [entries _ (by omega) (by omega)]
    exact space.code
  · intro x
    rw [pages.mem_iff, split, List.mem_append]
    change (x ∈ S ∨ x ∈ freed) ∨ _ ↔ _
    rw [or_assoc, or_comm (b := x ∈ footprint m.mem pt newsz)]
  · intro x listed
    have old := pages.mem_iff.mp listed
    rintro (free | back)
    · exact apart x (part x listed) free
    · exact disjoint x old x back rfl
  · intro x notFree notOwned
    rw [split, List.mem_append, not_or] at notOwned
    exact unmaps.frame x (fun table => notOwned.1 (List.mem_append_left _ table)) notOwned.2
  · exact fun u below => entries u (by omega) (by omega)
  · intro x listed
    have member : x ∈ footprint m.mem pt newsz := List.mem_append_right _ listed
    refine unmaps.frame x (fun table => ?_) fun back => disjoint x member x back rfl
    exact (List.nodup_append.mp distinct).2.2 x table x listed rfl

theorem uvmdealloc_space (owns : Owns m S) (space : Space m trampoline trapframe pt sz)
    (apart : ∀ x ∈ footprint m.mem pt sz, x ∉ S) (newsz : Word) :
    ∃ size m', uvmdealloc m pt sz newsz = .ok (size, m') ∧
      ((sz ≤ newsz ∧ size = sz ∧ m' = m) ∨
        (newsz < sz ∧ size = newsz ∧ Space m' trampoline trapframe pt newsz ∧
          (∃ S', Exchange m m' S S' (footprint m.mem pt sz) (footprint m'.mem pt newsz)) ∧
          Kept m m' pt (pagesBelow newsz))) := by
  by_cases larger : sz ≤ newsz
  · exact ⟨sz, m, if_pos larger, .inl ⟨larger, rfl, rfl⟩⟩
  · have less : newsz.toNat < sz.toNat := BitVec.lt_def.mp (BitVec.not_le.mp larger)
    have fewer := pagesBelow_mono (Nat.le_of_lt less)
    have ok := space.tableOk apart
    have small := space.size
    have inside : sz.toNat ≤ 2 ^ 38 := by
      unfold pagesBelow at small
      omega
    have able := space.releasable apart
    have count : pagesBelow sz = pagesBelow newsz + (pagesBelow sz - pagesBelow newsz) := by omega
    rw [count, pagesFrom_append, Nat.zero_add] at able
    have rest : Releasable S (tables m.mem pt)
        (pagesFrom (pteAt m.mem pt) (pagesBelow newsz) (pagesBelow sz - pagesBelow newsz)) :=
      ⟨able.right.nodup, fun x listed => able.taken x (List.mem_append_right _ listed),
        able.right.away⟩
    obtain ⟨size, m', ran⟩ := uvmdealloc_some owns ok inside rest fun u _ high => space.leaf high
    obtain ⟨unmaps, result⟩ := uvmdealloc_unmaps owns ok inside rest ran
    rw [if_neg larger] at result
    obtain ⟨space', exchange, kept⟩ := unmaps.space space fewer apart rfl
    exact ⟨size, m', ran, .inr ⟨BitVec.not_le.mp larger, result, space', ⟨_, exchange⟩, kept⟩⟩

end Space

end OsbKernel.Paging
