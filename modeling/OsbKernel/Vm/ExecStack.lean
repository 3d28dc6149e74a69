import OsbKernel.Vm.ExecLoad

/-!
# The initial user stack

The guard page, and the strings and pointers that `exec` pushes onto the page above it.
-/

namespace OsbKernel.Paging

open Function FreeRadix ExceptBind LawfulAllocator RamAllocator PartialMap

theorem clear_user_page (pte : Word) : PTE2PA (pte &&& ~~~PTE_U) = PTE2PA pte := by
  have high : ∀ i < 54, (~~~PTE_U : Word).getLsbD (10 + i) = true := by decide
  apply BitVec.eq_of_getLsbD_eq
  intro i inside
  unfold PTE2PA
  rw [BitVec.getLsbD_shiftLeft, BitVec.getLsbD_shiftLeft, BitVec.getLsbD_ushiftRight,
    BitVec.getLsbD_ushiftRight, BitVec.getLsbD_and]
  by_cases low : i < 12
  · simp [low]
  · by_cases top : i - 12 < 54
    · rw [high _ top, Bool.and_true]
    · rw [BitVec.getLsbD_of_ge pte _ (by omega), Bool.false_and]

theorem clear_user_flags {pte : Word} (user : PTE_FLAGS pte = userFlags) :
    PTE_FLAGS (pte &&& ~~~PTE_U) = guardFlags := by
  have split : PTE_FLAGS (pte &&& ~~~PTE_U) = PTE_FLAGS pte &&& ~~~PTE_U := by
    unfold PTE_FLAGS
    rw [BitVec.and_assoc, BitVec.and_assoc, BitVec.and_comm (~~~PTE_U)]
  rw [split, user]
  decide

theorem cleared_entry (pte : Word) : (pte &&& ~~~PTE_U) &&& PTE_U = 0 := by
  have bits : ~~~PTE_U &&& PTE_U = 0 := by decide
  rw [BitVec.and_assoc, bits]
  exact BitVec.and_zero

section Guard

variable {K : Type} [Allocator K] [LawfulAllocator K] [RamAllocator K] {m₀ m m' : Machine K}
  {S : Set Word} {trampoline trapframe pt sz : Word} {v : Nat}

theorem Changes.guarded {S' : Set Word} {pte : Word}
    (changes : Changes m m' S' pt [] (update (pteAt m.mem pt) v
      (some (pte &&& ~~~PTE_U)))) (space : Space m trampoline trapframe pt sz)
    (apart : ∀ x ∈ footprint m.mem pt sz, x ∉ S')
    (below : v < pagesBelow sz) (entry : pteAt m.mem pt v = some pte)
    (plain : ∀ u < pagesBelow sz, flagsAt (pteAt m.mem pt) u = userFlags) :
    Space m' trampoline trapframe pt sz ∧
      Exchange m m' S' S' (footprint m.mem pt sz) (footprint m'.mem pt sz) := by
  have size := space.size
  have top : VPNS = 2 ^ 26 := rfl
  have flags : PTE_FLAGS pte = userFlags := by
    have known := plain v below
    rwa [flagsAt, entry] at known
  have here : pteAt m'.mem pt v = some (pte &&& ~~~PTE_U) := by
    rw [changes.entries v (by omega), update_self]
  have others : ∀ u < VPNS, u ≠ v → pteAt m'.mem pt u = pteAt m.mem pt u := by
    intro u inside other
    rw [changes.entries u inside, update_of_ne other]
  have data : pagesFrom (pteAt m'.mem pt) 0 (pagesBelow sz) =
      pagesFrom (pteAt m.mem pt) 0 (pagesBelow sz) := by
    refine List.filterMap_congr fun u listed => ?_
    rw [List.mem_range'_1] at listed
    by_cases same : u = v
    · rw [same, here, entry, Option.map_some, Option.map_some, clear_user_page]
    · rw [others u (by omega) same]
  have pages : (footprint m'.mem pt sz).Perm (footprint m.mem pt sz) := by
    rw [footprint, footprint, data]
    exact changes.tables.append_right _
  have onlyOne : ∀ u < pagesBelow sz, flagsAt (pteAt m'.mem pt) u = guardFlags → u = v := by
    intro u inside guarded
    by_contra other
    rw [flagsAt, others u (by omega) other] at guarded
    have known := plain u inside
    rw [flagsAt, guarded] at known
    exact absurd known (by decide)
  have same : S' \ {x | x ∈ ([] : List Word)} = S' := by simp
  refine ⟨⟨changes.tidy space.tidy, ?_, ?_, ?_, ?_, ?_, ?_, ?_⟩, ?_, ?_, ?_, ?_⟩
  · rw [pages.nodup_iff]
    exact space.nodup
  · exact fun x listed => space.ram x (pages.mem_iff.mp listed)
  · intro u inside
    by_cases guard : u = v
    · rw [guard]
      exact ⟨_, here, .inr (clear_user_flags flags)⟩
    · rw [others u (by omega) guard]
      exact space.user u inside
  · intro u inside w inside' first second
    rw [onlyOne u inside first, onlyOne w inside' second]
  · intro u low high
    rw [others u (by omega) (by omega)]
    exact space.gap u low high
  · rw [others _ (by omega) (by omega)]
    exact space.frame
  · rw [others _ (by omega) (by omega)]
    exact space.code
  · have owns := changes.owns
    rwa [same] at owns
  · intro x
    rw [pages.mem_iff]
  · exact fun x listed => apart x (pages.mem_iff.mp listed)
  · intro x _ notOwned
    exact changes.frame x (fun table => notOwned (List.mem_append_left _ table)) List.not_mem_nil

theorem Building.uvmclear (building : Building m₀ m S trampoline trapframe pt sz)
    (below : v < pagesBelow sz)
    (plain : ∀ u < pagesBelow sz, flagsAt (pteAt m.mem pt) u = userFlags) :
    ∃ m', uvmclear m pt (pageAddr v) = .ok m' ∧
      Building m₀ m' S trampoline trapframe pt sz ∧
      (∀ a, a / 4096 ≠ v → userMem m' pt a = userMem m pt a) ∧
      flagsAt (pteAt m'.mem pt) v = guardFlags ∧
      ∀ a, a / 4096 = v → userMem m' pt a = none := by
  have size := building.space.size
  have top : VPNS = 2 ^ 26 := rfl
  have inside : v < VPNS := by omega
  obtain ⟨S', exchange⟩ := building.exchange
  obtain ⟨pte, entry, -⟩ := building.space.user v below
  obtain ⟨leaf, -, -, -, walked⟩ := walk_entry inside entry
  have cleared : Paging.uvmclear m pt (pageAddr v) =
      .ok (m.store (leaf, indices v 0) (m.load (leaf, indices v 0) &&& ~~~PTE_U)) := by
    unfold Paging.uvmclear
    rw [bind_eq walked]
    rfl
  have changes := uvmclear_changes exchange.owns (building.space.tableOk exchange.apart) cleared
  rw [vpn_pageAddr inside.le, entry, Option.map_some] at changes
  generalize m.store (leaf, indices v 0) (m.load (leaf, indices v 0) &&& ~~~PTE_U) = m' at changes cleared
  obtain ⟨space', exchange'⟩ := changes.guarded building.space exchange.apart below entry plain
  have here : pteAt m'.mem pt v = some (pte &&& ~~~PTE_U) := by
    rw [changes.entries v inside, update_self]
  refine ⟨m', cleared, ⟨space', S', exchange.trans exchange'⟩, ?_, ?_, ?_⟩
  · intro a other
    by_cases low : a / 4096 < pagesBelow sz
    · have still : pteAt m'.mem pt (a / 4096) = pteAt m.mem pt (a / 4096) := by
        rw [changes.entries _ (by omega), update_of_ne other]
      refine userMem_congr still fun pte' entry' => ?_
      refine changes.frame _ (fun table => ?_) List.not_mem_nil
      exact (List.nodup_append.mp building.space.nodup).2.2 _ table _
        (mem_pagesFrom (Nat.zero_le _) (by omega) entry') rfl
    · rw [space'.userMem_above (by omega), building.space.userMem_above (by omega)]
  · have known := plain v below
    rw [flagsAt, entry] at known
    rw [flagsAt, here]
    exact clear_user_flags known
  · intro a number
    refine userMem_none ?_
    rw [number, userPage_entry inside, here]
    exact if_pos (cleared_entry pte)

theorem Loaded.plain {image : Nat → Option Byte} (loaded : Loaded m pt sz image)
    (space : Space m trampoline trapframe pt sz) :
    ∀ u < pagesBelow sz, flagsAt (pteAt m.mem pt) u = userFlags := by
  intro u below
  have size := space.size
  have top : VPNS = 2 ^ 26 := rfl
  obtain ⟨pte, entry, flags⟩ := space.user u below
  rw [flagsAt, entry, Option.getD_some]
  rcases flags with user | guarded
  · exact user
  · have absent : pte &&& PTE_U = 0 := by
      have mask : (0x3FF : Word) &&& PTE_U = PTE_U := by decide
      rw [← mask, ← BitVec.and_assoc]
      change PTE_FLAGS pte &&& PTE_U = 0
      rw [guarded]
      decide
    have number : u * 4096 / 4096 = u := by omega
    have none : userMem m pt (u * 4096) = none := by
      refine userMem_none ?_
      rw [number, userPage_entry (by omega), entry]
      exact if_pos absent
    rw [loaded.shows _ (by omega)] at none
    exact absurd none (loaded.total _)

end Guard

variable {s : List Byte} {mem : Nat → Option Byte} {pushed : List (Word × List Byte)}
    {argv : List Word} {strings : List (List Byte)}

theorem takeWhile_string {more : List Byte} (nonzero : ∀ b ∈ s, b ≠ 0) :
    (s ++ 0 :: more).takeWhile (· ≠ 0) = s := by
  rw [List.takeWhile_append_of_pos (by simpa using nonzero)]
  simp

theorem strlen_string {page : Nat → Word} (nonzero : ∀ b ∈ s, b ≠ 0)
    (fits : s.length < 4096) (begins : readPage page 0 (s.length + 1) = s ++ [0]) :
    strlen page = s.length := by
  have whole : readPage page 0 PGSIZE.toNat =
      s ++ 0 :: (List.range' (s.length + 1) (4096 - (s.length + 1))).map (pageByte page) := by
    have split : List.range' 0 4096 =
        List.range' 0 (s.length + 1) ++ List.range' (s.length + 1) (4096 - (s.length + 1)) := by
      have joined := List.range'_append_1 (s := 0) (m := s.length + 1) (n := 4096 - (s.length + 1))
      rw [Nat.zero_add, Nat.add_sub_cancel' (by omega)] at joined
      exact joined.symm
    rw [pgsize_toNat, readPage, split, List.map_append]
    change readPage page 0 (s.length + 1) ++ _ = _
    rw [begins, List.append_assoc]
    rfl
  rw [strlen, whole, takeWhile_string nonzero]

/-- A page that is not free and begins with the string `s`. -/
structure ArgPage {K : Type} (m : Machine K) (S : Set Word) (arg : Word) (s : List Byte) : Prop where
  used : arg ∉ S
  nonzero : ∀ b ∈ s, b ≠ 0
  short : s.length < 4096
  begins : readPage (m.mem arg) 0 (s.length + 1) = s ++ [0]

theorem push_toNat {sp : Word} {len : Nat} (room : len ≤ sp.toNat) :
    (sp - BitVec.ofNat 64 len - (sp - BitVec.ofNat 64 len) % 16).toNat =
      (sp.toNat - len) / 16 * 16 := by
  have first : (sp - BitVec.ofNat 64 len).toNat = sp.toNat - len := by
    have small : (BitVec.ofNat 64 len).toNat = len := by
      rw [BitVec.toNat_ofNat]
      omega
    rw [BitVec.toNat_sub_of_le (by rw [BitVec.le_def, small]; exact room), small]
  have rest : ((sp - BitVec.ofNat 64 len) % 16).toNat = (sp.toNat - len) % 16 := by
    have sixteen : (16 : Word).toNat = 16 := rfl
    rw [BitVec.toNat_umod, first, sixteen]
  rw [BitVec.toNat_sub_of_le (by rw [BitVec.le_def, first, rest]; exact Nat.mod_le _ _), first, rest]
  omega

/-- The part of the stack that strings take, each rounded up to 16 bytes, on top of `need`. -/
def stackNeed (need : Nat) : List (List Byte) → Nat
  | [] => need
  | s :: rest => stackNeed ((need + (s.length + 1) + 15) / 16 * 16) rest

/-- Strings that have been pushed below `sz`, the last one at `sp` or above. -/
structure Stacked (mem : Nat → Option Byte) (sp sz : Nat) (pushed : List (Word × List Byte)) :
    Prop where
  above : ∀ e ∈ pushed, sp ≤ e.1.toNat
  aligned : ∀ e ∈ pushed, e.1.toNat % 16 = 0
  inside : ∀ e ∈ pushed, e.1.toNat + (e.2.length + 1) ≤ sz
  copies : ∀ e ∈ pushed, Holds mem e.1.toNat (e.2 ++ [0])
  apart : pushed.Pairwise fun e e' => e'.1.toNat + (e'.2.length + 1) ≤ e.1.toNat

theorem stacked_nothing (mem : Nat → Option Byte) (sp sz : Nat) : Stacked mem sp sz [] :=
  ⟨fun _ listed => absurd listed List.not_mem_nil, fun _ listed => absurd listed List.not_mem_nil,
    fun _ listed => absurd listed List.not_mem_nil, fun _ listed => absurd listed List.not_mem_nil,
    List.Pairwise.nil⟩

theorem Stacked.below {mem' : Nat → Option Byte} {sp sp' sz : Nat}
    (stacked : Stacked mem sp sz pushed) (lower : sp' ≤ sp)
    (same : ∀ a, sp ≤ a → mem' a = mem a) : Stacked mem' sp' sz pushed := by
  refine ⟨fun e listed => le_trans lower (stacked.above e listed), stacked.aligned, stacked.inside,
    ?_, stacked.apart⟩
  intro e listed i index
  have high := stacked.above e listed
  rw [same _ (by omega)]
  exact stacked.copies e listed i index

theorem Stacked.push {sp sz : Nat}
    {place : Word} (stacked : Stacked mem sp sz pushed) (top : sp ≤ sz)
    (aligned : place.toNat % 16 = 0) (lower : place.toNat + (s.length + 1) ≤ sp) :
    Stacked (overwrite mem place.toNat (s ++ [0])) place.toNat sz (pushed ++ [(place, s)]) := by
  have others : ∀ a, sp ≤ a → overwrite mem place.toNat (s ++ [0]) a = mem a := by
    intro a high
    refine overwrite_outside (.inr ?_)
    rw [List.length_append, List.length_singleton]
    omega
  have old := stacked.below (by omega : place.toNat ≤ sp) others
  have last : ∀ {P : Word × List Byte → Prop}, (∀ e ∈ pushed, P e) → P (place, s) →
      ∀ e ∈ pushed ++ [(place, s)], P e := by
    intro P each new e listed
    rcases List.mem_append.mp listed with earlier | here
    · exact each e earlier
    · rw [List.mem_singleton] at here
      rw [here]
      exact new
  refine ⟨last old.above (Nat.le_refl _), last old.aligned aligned, last old.inside ?_,
    last old.copies (holds_overwrite _ _ _), List.pairwise_append.mpr ⟨old.apart,
      List.pairwise_singleton _ _, ?_⟩⟩
  · exact le_trans lower top
  · intro e earlier e' here
    rw [List.mem_singleton] at here
    rw [here]
    exact le_trans lower (stacked.above e earlier)

section Push

variable {K : Type} [Allocator K] [LawfulAllocator K] [RamAllocator K] {m₀ m m' : Machine K}
  {S : Set Word} {trampoline trapframe pt sz stackbase sp : Word}

theorem Building.copyout (building : Building m₀ m S trampoline trapframe pt sz) (va : Word)
    (src : List Byte) :
    ∃ r m', copyout m pt va src = (r, m') ∧
      Building m₀ m' S trampoline trapframe pt sz ∧
      (r = true → CopiedOut m m' pt va.toNat src) := by
  obtain ⟨k, copies⟩ := copyout_copies building.space.separate va src
  refine ⟨_, _, rfl, building.copied copies.copied, fun success => ?_⟩
  have copied := copies.copied
  rw [copies.returns.mp success, List.take_length] at copied
  exact copied

/-- What the loop over the argument strings leaves behind: strings on the stack, and nothing new
below the stack page. -/
structure PushedStrings (m m' : Machine K) (pt stackbase sz : Word) (strings : List (List Byte))
    (before after : List (Word × List Byte)) (need : Nat) (sp' : Word) : Prop where
  joined : ∃ new, after = before ++ new ∧ new.map Prod.snd = strings
  stacked : Stacked (userMem m' pt) sp'.toNat sz.toNat after
  total : sp'.toNat + stackNeed need strings = sz.toNat
  low : stackbase ≤ sp'
  aligned : sp'.toNat % 16 = 0
  kept : ∀ a < stackbase.toNat, userMem m' pt a = userMem m pt a

theorem pushStrings_pushes {need : Nat}
    (building : Building m₀ m S trampoline trapframe pt sz)
    (args : List.Forall₂ (ArgPage m₀ S) argv strings) (base : stackbase.toNat + 4096 = sz.toNat)
    (space : 4096 ≤ stackbase.toNat) (even : sz.toNat % 16 = 0) (low : stackbase ≤ sp)
    (aligned : sp.toNat % 16 = 0)
    (used : sp.toNat + need = sz.toNat) (stacked : Stacked (userMem m pt) sp.toNat sz.toNat pushed) :
    ∃ outcome m', pushStrings pt stackbase argv m sp (pushed.map Prod.fst) = (outcome, m') ∧
      Building m₀ m' S trampoline trapframe pt sz ∧
      ∀ sp' ustack, outcome = some (sp', ustack) → ∃ after, ustack = after.map Prod.fst ∧
        PushedStrings m m' pt stackbase sz strings pushed after need sp' := by
  induction args generalizing m sp pushed need with
  | nil =>
    refine ⟨_, m, rfl, building, ?_⟩
    intro sp' ustack known
    cases known
    exact ⟨pushed, rfl, ⟨[], (List.append_nil _).symm, rfl⟩, stacked, used, low, aligned,
      fun _ _ => rfl⟩
  | @cons arg s argv strings page args ih =>
    have never : ∀ {P : Prop} {x : Word × List Word}, none = some x → P := fun impossible =>
      absurd impossible (Option.some_ne_none _).symm
    rw [pushStrings]
    by_cases many : MAXARG ≤ (pushed.map Prod.fst).length
    · rw [if_pos many]
      exact ⟨_, m, rfl, building, fun _ _ => never⟩
    · rw [if_neg many]
      have content : m.mem arg = m₀.mem arg := building.frame page.used
      rw [content, strlen_string page.nonzero page.short page.begins]
      dsimp only
      have short := page.short
      rw [BitVec.le_def] at low
      have place : (sp - BitVec.ofNat 64 (s.length + 1) -
          (sp - BitVec.ofNat 64 (s.length + 1)) % 16).toNat = (sp.toNat - (s.length + 1)) / 16 * 16 :=
        push_toNat (by omega)
      generalize sp - BitVec.ofNat 64 (s.length + 1) -
        (sp - BitVec.ofNat 64 (s.length + 1)) % 16 = sp₁ at place ⊢
      by_cases beyond : sp₁ < stackbase
      · rw [if_pos beyond]
        exact ⟨_, m, rfl, building, fun _ _ => never⟩
      · rw [if_neg beyond, page.begins]
        obtain ⟨r, m₁, ran, building₁, copied⟩ := building.copyout sp₁ (s ++ [0])
        rw [ran]
        cases r with
        | false => exact ⟨_, m₁, rfl, building₁, fun _ _ => never⟩
        | true =>
          have written := copied rfl
          have lower := BitVec.not_lt.mp beyond
          rw [BitVec.le_def] at lower
          have fits : sp₁.toNat + (s.length + 1) ≤ sp.toNat := by omega
          have stacked₁ := stacked.push (by omega) (by omega : sp₁.toNat % 16 = 0) fits
          rw [← written.userMem] at stacked₁
          have names : pushed.map Prod.fst ++ [sp₁] = (pushed ++ [(sp₁, s)]).map Prod.fst := by
            rw [List.map_append]
            rfl
          have used₁ : sp₁.toNat + (need + (s.length + 1) + 15) / 16 * 16 = sz.toNat := by omega
          obtain ⟨outcome, m₂, rest, building₂, after⟩ := ih building₁ (BitVec.not_lt.mp beyond)
            (by omega) used₁ stacked₁
          rw [names]
          refine ⟨outcome, m₂, rest, building₂, fun sp' ustack known => ?_⟩
          obtain ⟨all, entries, ⟨new, joined, strings'⟩, stacked₂, total, low', aligned', kept⟩ :=
            after sp' ustack known
          refine ⟨all, entries, ⟨(sp₁, s) :: new, ?_, ?_⟩, stacked₂, total, low', aligned', ?_⟩
          · rw [joined, List.append_assoc]
            rfl
          · rw [List.map_cons, strings']
          · intro a below
            rw [kept a below, written.userMem, overwrite_outside (.inl (by omega))]

/-- The part of the stack that the strings and the array of pointers take. -/
def argvNeed (strings : List (List Byte)) : Nat :=
  (stackNeed 0 strings + (strings.length + 1) * 8 + 15) / 16 * 16

/-- The stack that `main(argc, argv)` finds: the pointers at `sp`, and the strings above them. -/
structure StackReady (mem : Nat → Option Byte) (stackbase sz sp : Nat) (strings : List (List Byte))
    (ptrs : List Word) : Prop where
  count : ptrs.length = strings.length
  aligned : sp % 16 = 0
  low : stackbase ≤ sp
  high : sp + (strings.length + 1) * 8 ≤ sz
  array : Holds mem sp ((ptrs ++ [0]).flatMap wordBytes)
  copies : ∀ e ∈ ptrs.zip strings, e.1.toNat % 16 = 0 ∧ stackbase ≤ e.1.toNat ∧
    e.1.toNat + (e.2.length + 1) ≤ sz ∧ Holds mem e.1.toNat (e.2 ++ [0])
  disjoint : ((sp, (strings.length + 1) * 8) ::
    (ptrs.zip strings).map fun e => (e.1.toNat, e.2.length + 1)).Pairwise
      fun r r' => r.1 + r.2 ≤ r'.1 ∨ r'.1 + r'.2 ≤ r.1

theorem zip_pushed (pushed : List (Word × List Byte)) :
    (pushed.map Prod.fst).zip (pushed.map Prod.snd) = pushed := by
  induction pushed with
  | nil => rfl
  | cons e pushed ih => rw [List.map_cons, List.map_cons, List.zip_cons_cons, ih]

theorem wordBytes_length (words : List Word) : (words.flatMap wordBytes).length = words.length * 8 := by
  induction words with
  | nil => rfl
  | cons w words ih =>
    have one : (wordBytes w).length = 8 := rfl
    rw [List.flatMap_cons, List.length_append, ih, one, List.length_cons]
    omega

theorem Stacked.ready {base top sp place : Nat}
    (stacked : Stacked mem sp top pushed) (aligned : place % 16 = 0)
    (low : base ≤ place) (fits : place + (pushed.length + 1) * 8 ≤ sp) (inside : sp ≤ top) :
    StackReady (overwrite mem place ((pushed.map Prod.fst ++ [0]).flatMap wordBytes)) base top place
      (pushed.map Prod.snd) (pushed.map Prod.fst) := by
  have size : ((pushed.map Prod.fst ++ [0]).flatMap wordBytes).length = (pushed.length + 1) * 8 := by
    rw [wordBytes_length, List.length_append, List.length_map, List.length_singleton]
  have others : ∀ a, sp ≤ a →
      overwrite mem place ((pushed.map Prod.fst ++ [0]).flatMap wordBytes) a = mem a := by
    intro a high
    exact overwrite_outside (.inr (by omega))
  have kept := stacked.below (by omega : place ≤ sp) others
  refine ⟨?_, aligned, low, ?_, holds_overwrite _ _ _, ?_, ?_⟩
  · rw [List.length_map, List.length_map]
  · rw [List.length_map]
    omega
  · rw [zip_pushed]
    intro e listed
    have above := stacked.above e listed
    exact ⟨kept.aligned e listed, by omega, kept.inside e listed, kept.copies e listed⟩
  · rw [zip_pushed, List.length_map]
    refine List.pairwise_cons.mpr ⟨?_, ?_⟩
    · intro r listed
      obtain ⟨e, member, rfl⟩ := List.mem_map.mp listed
      exact .inl (le_trans fits (stacked.above e member))
    · exact List.pairwise_map.mpr (stacked.apart.imp fun lower => .inr lower)

theorem pushArgv_pushes (building : Building m₀ m S trampoline trapframe pt sz)
    (args : List.Forall₂ (ArgPage m₀ S) argv strings) (few : strings.length < MAXARG)
    (base : stackbase.toNat + 4096 = sz.toNat) (space : 4096 ≤ stackbase.toNat)
    (even : sz.toNat % 16 = 0) :
    ∃ outcome m', pushArgv m pt stackbase argv sz = .ok (outcome, m') ∧
      Building m₀ m' S trampoline trapframe pt sz ∧
      ∀ argc sp, outcome = some (argc, sp) → argc = strings.length ∧ argvNeed strings ≤ 4096 ∧
        (∃ ptrs, StackReady (userMem m' pt) stackbase.toNat sz.toNat sp.toNat strings ptrs) ∧
        ∀ a < stackbase.toNat, userMem m' pt a = userMem m pt a := by
  have never : ∀ {P : Prop} {x : Nat × Word}, none = some x → P := fun impossible =>
    absurd impossible (Option.some_ne_none _).symm
  obtain ⟨outcome, m₁, ran, building₁, after⟩ := pushStrings_pushes building args base space even
    (BitVec.le_def.mpr (by omega)) even (Nat.add_zero _) (stacked_nothing _ _ _)
  unfold pushArgv
  rw [List.map_nil] at ran
  rw [ran]
  cases outcome with
  | none => exact ⟨_, m₁, rfl, building₁, fun _ _ => never⟩
  | some result =>
    obtain ⟨sp₁, ustack⟩ := result
    obtain ⟨pushed, rfl, ⟨new, rfl, rfl⟩, stacked, total, low, aligned, kept⟩ := after _ _ rfl
    rw [List.length_map] at few
    dsimp only
    rw [List.length_map, if_neg (Nat.not_le.mpr few)]
    rw [BitVec.le_def] at low
    have limit : MAXARG = 32 := rfl
    have place : (sp₁ - BitVec.ofNat 64 ((pushed.length + 1) * 8) -
        (sp₁ - BitVec.ofNat 64 ((pushed.length + 1) * 8)) % 16).toNat =
        (sp₁.toNat - (pushed.length + 1) * 8) / 16 * 16 := push_toNat (by omega)
    generalize sp₁ - BitVec.ofNat 64 ((pushed.length + 1) * 8) -
      (sp₁ - BitVec.ofNat 64 ((pushed.length + 1) * 8)) % 16 = sp₂ at place ⊢
    by_cases beyond : sp₂ < stackbase
    · rw [if_pos beyond]
      exact ⟨_, m₁, rfl, building₁, fun _ _ => never⟩
    · rw [if_neg beyond]
      rw [BitVec.not_lt, BitVec.le_def] at beyond
      obtain ⟨r, m₂, ran', building₂, copied⟩ := building₁.copyout sp₂
        ((pushed.map Prod.fst ++ [0]).flatMap wordBytes)
      rw [ran']
      cases r with
      | false => exact ⟨_, m₂, rfl, building₂, fun _ _ => never⟩
      | true =>
        have written := copied rfl
        have ready := stacked.ready (by omega : sp₂.toNat % 16 = 0) beyond (by omega) (by omega)
        rw [← written.userMem] at ready
        refine ⟨_, m₂, rfl, building₂, fun argc sp known => ?_⟩
        cases known
        refine ⟨by rw [List.length_map], ?_, ⟨_, ready⟩, ?_⟩
        · rw [argvNeed, List.length_map]
          omega
        · intro a below
          rw [written.userMem, overwrite_outside (.inl (by omega)), kept a below]

end Push

end OsbKernel.Paging
