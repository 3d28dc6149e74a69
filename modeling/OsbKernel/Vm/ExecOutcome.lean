import OsbKernel.Vm.ExecStack

/-!
# What exec does

`exec` builds a new address space beside the old one.  It then either gives back everything that
it has built, or replaces the old address space by the new one and frees the old one.
-/

namespace OsbKernel.Paging

open Function FreeRadix ExceptBind LawfulAllocator RamAllocator PartialMap

section Build

variable {K : Type} [Allocator K] [LawfulAllocator K] [RamAllocator K] {m₀ m m' : Machine K}
  {S : Set Word} {trampoline trapframe pt sz : Word}

/-- The `ELF_PROG_LOAD` headers of a file with this `elf` header. -/
def Elfhdr.loadable (elf : Elfhdr) (file : List Byte) : List Proghdr :=
  loadableHeaders file elf.phnum.toNat (elf.phoff.setWidth 32)

/-- The size of the program without its stack: the largest end of a segment, rounded up. -/
def programSize (phs : List Proghdr) : Nat := (imageTop 0 phs + 4095) / 4096 * 4096

/-- A new address space that is complete: the program, the guard page and the stack. -/
structure ImageReady (m : Machine K) (pt sz : Word) (file : List Byte) (phs : List Proghdr)
    (strings : List (List Byte)) (argc : Nat) (sp : Word) : Prop where
  argc : argc = strings.length
  need : argvNeed strings ≤ 4096
  size : sz.toNat = programSize phs + 8192
  lengths : ∀ ph ∈ phs, (segment file ph).length = ph.filesz.toNat
  program : ∀ a < programSize phs, userMem m pt a = overlay file (fun _ => some 0) phs a
  guard : ∀ a, programSize phs ≤ a → a < programSize phs + 4096 → userMem m pt a = none
  stack : ∃ ptrs, StackReady (userMem m pt) (programSize phs + 4096) sz.toNat sp.toNat strings ptrs

theorem pgroundup_space (space : Space m trampoline trapframe pt sz) :
    (PGROUNDUP sz).toNat = pagesBelow sz * 4096 ∧ pagesBelow (PGROUNDUP sz) = pagesBelow sz := by
  have size := space.size
  have small := space.size_toNat.1
  have top : VPNS = 2 ^ 26 := rfl
  have value : (PGROUNDUP sz).toNat = pagesBelow sz * 4096 := by
    rw [pgroundup_pageAddr (by omega), pageAddr_toNat (by omega)]
  refine ⟨value, ?_⟩
  rw [pagesBelow, value]
  omega

variable {file : List Byte} {phs : List Proghdr} {argv : List Word} {strings : List (List Byte)}

theorem Loaded.stack (building : Building m₀ m S trampoline trapframe pt sz)
    (loaded : Loaded m pt sz (overlay file (fun _ => some 0) phs))
    (lengths : ∀ ph ∈ phs, (segment file ph).length = ph.filesz.toNat)
    (base : sz.toNat = programSize phs + 8192)
    (args : List.Forall₂ (ArgPage m₀ S) argv strings) (few : strings.length < MAXARG) :
    ∃ m₁ outcome m', uvmclear m pt (sz - 2 * PGSIZE) = .ok m₁ ∧
      pushArgv m₁ pt (sz - PGSIZE) argv sz = .ok (outcome, m') ∧
      Building m₀ m' S trampoline trapframe pt sz ∧
      ∀ argc sp, outcome = some (argc, sp) →
        ImageReady m' pt sz file phs strings argc sp := by
  have small := building.space.size_toNat.1
  have top : VPNS = 2 ^ 26 := rfl
  have page : programSize phs = programSize phs / 4096 * 4096 := by
    unfold programSize
    omega
  have below : programSize phs / 4096 < pagesBelow sz := by
    unfold pagesBelow
    omega
  have minusTwo : sz - 2 * PGSIZE = pageAddr (programSize phs / 4096) := by
    have two : (2 * PGSIZE).toNat = 8192 := rfl
    apply BitVec.eq_of_toNat_eq
    rw [BitVec.toNat_sub_of_le (by rw [BitVec.le_def, two]; omega), two, pageAddr_toNat (by omega)]
    omega
  have minusOne : (sz - PGSIZE).toNat = programSize phs + 4096 := by
    rw [BitVec.toNat_sub_of_le (by rw [BitVec.le_def, pgsize_toNat]; omega), pgsize_toNat]
    omega
  obtain ⟨m₁, cleared, building₁, kept, -, guarded⟩ := building.uvmclear below
    (loaded.plain building.space)
  obtain ⟨outcome, m₂, ran, building₂, after⟩ := pushArgv_pushes building₁ args few
    (by omega : (sz - PGSIZE).toNat + 4096 = sz.toNat) (by omega) (by omega)
  refine ⟨m₁, outcome, m₂, by rw [minusTwo]; exact cleared, ran, building₂, fun argc sp known => ?_⟩
  obtain ⟨count, need, stack, low⟩ := after argc sp known
  rw [minusOne] at stack low
  refine ⟨count, need, base, lengths, ?_, ?_, stack⟩
  · intro a inside
    rw [low a (by omega), kept a (by omega), loaded.shows a (by omega)]
  · intro a first last
    rw [low a (by omega), guarded a (by omega)]

theorem execBuild_builds (file : List Byte) (elf : Elfhdr)
    (building : Building m₀ m S trampoline trapframe pt 0)
    (args : List.Forall₂ (ArgPage m₀ S) argv strings) (few : strings.length < MAXARG) :
    ∃ outcome sz m', execBuild m pt file elf argv = .ok (outcome, sz, m') ∧
      Building m₀ m' S trampoline trapframe pt sz ∧
      ∀ argc sp, outcome = some (argc, sp) →
        ImageReady m' pt sz file (elf.loadable file) strings argc sp := by
  have never : ∀ {P : Prop} {x : Nat × Word}, none = some x → P := fun impossible =>
    absurd impossible (Option.some_ne_none _).symm
  have empty : Loaded m pt 0 fun _ => some 0 :=
    ⟨fun a below => absurd below (Nat.not_lt_zero a), fun _ _ => rfl, fun _ => Option.some_ne_none _⟩
  obtain ⟨r, sz₁, m₁, ran, building₁, after⟩ := empty.loadHeaders file elf.phnum.toNat
    (elf.phoff.setWidth 32) building
  unfold execBuild
  rw [bind_eq ran]
  cases r with
  | false => exact ⟨none, sz₁, m₁, rfl, building₁, fun _ _ => never⟩
  | true =>
    obtain ⟨size, lengths, loaded⟩ := after rfl
    obtain ⟨value, pages⟩ := pgroundup_space building₁.space
    have small := building₁.space.size
    have program : pagesBelow sz₁ * 4096 = programSize (elf.loadable file) := by
      rw [pagesBelow, size]
      rfl
    have building₂ := building₁.resize pages
    have two : (2 * PGSIZE).toNat = 8192 := rfl
    have target : (PGROUNDUP sz₁ + 2 * PGSIZE).toNat = programSize (elf.loadable file) + 8192 := by
      rw [BitVec.toNat_add, value, two]
      omega
    obtain ⟨newsz, m₂, grew, outcome⟩ := building₂.uvmalloc (PGROUNDUP sz₁ + 2 * PGSIZE)
    dsimp only
    rw [bind_eq grew]
    rcases outcome with ⟨less, -, -⟩ | ⟨larger, rfl, building₃, grown⟩ | ⟨-, rfl, building₃⟩
    · rw [BitVec.lt_def] at less
      omega
    · have nonzero : ¬ PGROUNDUP sz₁ + 2 * PGSIZE = 0 := by
        intro impossible
        rw [impossible] at target
        exact absurd target (by simp)
      rw [if_neg nonzero]
      have rounded : Loaded m₁ pt (PGROUNDUP sz₁)
          (overlay file (fun _ => some 0) (elf.loadable file)) := by
        refine ⟨?_, ?_, loaded.total⟩
        · rw [pages]
          exact loaded.shows
        · rw [pages]
          exact loaded.above
      obtain ⟨m₃, pushed, m₄, cleared, pushes, building₄, ready⟩ :=
        (rounded.grown building₃.space larger grown).stack building₃ lengths target args few
      refine ⟨pushed, _, m₄, ?_, building₄, ready⟩
      rw [bind_eq cleared, bind_eq pushes]
      rfl
    · exact ⟨none, _, m₂, rfl, building₃, fun _ _ => never⟩

omit [LawfulAllocator K] [RamAllocator K] in
theorem ImageReady.congr
    {argc : Nat} {sp : Word} (ready : ImageReady m pt sz file phs strings argc sp)
    (same : userMem m' pt = userMem m pt) :
    ImageReady m' pt sz file phs strings argc sp := by
  obtain ⟨argc, need, size, lengths, program, guard, stack⟩ := ready
  rw [← same] at program guard stack
  exact ⟨argc, need, size, lengths, program, guard, stack⟩

end Build

section Exec

variable {K : Type} [Allocator K] [LawfulAllocator K] [RamAllocator K] {m₀ m m' : Machine K}
  {S : Set Word} {trampoline : Word} {p p' : Image}

structure ProcOk (m : Machine K) (S : Set Word) (trampoline : Word) (p : Image) : Prop where
  space : Space m trampoline p.trapframe p.pagetable p.sz
  apart : ∀ x ∈ footprint m.mem p.pagetable p.sz, x ∉ S
  frame : p.trapframe ∉ S
  away : p.trapframe ∉ footprint m.mem p.pagetable p.sz

/-- A call that fails leaves the process and the free pages as they were. -/
structure Nothing (m m' : Machine K) (S : Set Word) (p p' : Image) : Prop where
  proc : p' = p
  owns : Owns m' S
  frame : ∀ x, x ∉ S → m'.mem x = m.mem x

/-- The process has a new address space, made of free pages; the pages of the old one are free. -/
structure Replaced (m m' : Machine K) (S : Set Word) (trampoline : Word) (p p' : Image) : Prop where
  space : Space m' trampoline p.trapframe p'.pagetable p'.sz
  taken : ∀ x ∈ footprint m'.mem p'.pagetable p'.sz, x ∈ S
  owns : Owns m' (S \ {x | x ∈ footprint m'.mem p'.pagetable p'.sz} ∪
    {x | x ∈ footprint m.mem p.pagetable p.sz})
  frame : ∀ x, x ∉ S → x ∉ footprint m.mem p.pagetable p.sz → x ≠ p.trapframe → m'.mem x = m.mem x
  trapframe : p'.trapframe = p.trapframe

omit [RamAllocator K] in
theorem Exchange.left {S' : Set Word} {P : List Word} (exchange : Exchange m m' S S' [] P) :
    S' = S \ {x | x ∈ P} := by
  ext x
  constructor
  · intro free
    rcases (exchange.conserve x).mp (.inl free) with old | impossible
    · exact ⟨old, fun mine => exchange.apart x mine free⟩
    · exact absurd impossible List.not_mem_nil
  · rintro ⟨old, other⟩
    rcases (exchange.conserve x).mpr (.inl old) with free | mine
    · exact free
    · exact absurd mine other

/-- The stores of `exec` to the trapframe. -/
def setTrapframe (frame : Nat → Word) (sp entry : Word) : Nat → Word :=
  update (update (update frame a1Word sp) epcWord entry) spWord sp

theorem Building.commit {pt sz : Word} (ok : ProcOk m S trampoline p)
    (building : Building m m' S trampoline p.trapframe pt sz) (name : List Byte)
    (sp entry : Word) :
    ∃ m'', procFreepagetable (((m'.store (p.trapframe, a1Word) sp).store
        (p.trapframe, epcWord) entry).store (p.trapframe, spWord) sp) p.pagetable p.sz = .ok m'' ∧
      Replaced m m'' S trampoline p { p with pagetable := pt, sz, name } ∧
      userMem m'' pt = userMem m' pt ∧
      m''.mem p.trapframe = setTrapframe (m.mem p.trapframe) sp entry := by
  have words : ∀ (m : Machine K) (i : Nat) (w : Word),
      (m.store (p.trapframe, i) w).mem p.trapframe = update (m.mem p.trapframe) i w :=
    fun m i w => update_self _ _ _
  generalize stored : ((m'.store (p.trapframe, a1Word) sp).store
    (p.trapframe, epcWord) entry).store (p.trapframe, spWord) sp = m₁
  have others : ∀ x, x ≠ p.trapframe → m₁.mem x = m'.mem x := by
    intro x other
    rw [← stored, store_mem_of_ne other, store_mem_of_ne other, store_mem_of_ne other]
  have written : m₁.mem p.trapframe = setTrapframe (m.mem p.trapframe) sp entry := by
    rw [← stored, words, words, words, building.frame ok.frame]
    rfl
  have kmem : m₁.kmem = m'.kmem := by
    rw [← stored]
    rfl
  obtain ⟨S', exchange⟩ := building.exchange
  have left := exchange.left
  have owns₁ : Owns m₁ S' := by
    refine write exchange.owns kmem fun x free => others x ?_
    rintro rfl
    rw [left] at free
    exact ok.frame free.1
  have old : ∀ x ∈ footprint m.mem p.pagetable p.sz, m₁.mem x = m.mem x := by
    intro x listed
    rw [others x fun same => ok.away (same ▸ listed), building.frame (ok.apart x listed)]
  obtain ⟨oldSpace, oldShape⟩ := ok.space.congr fun x table => old x (List.mem_append_left _ table)
  obtain ⟨m₂, freed, returned⟩ := procFreepagetable_space owns₁ oldSpace (by
    rw [oldShape, left]
    exact fun x listed free => ok.apart x listed free.1)
  rw [oldShape] at returned
  -- the new address space is not touched by the stores and by the freeing
  have new : ∀ x ∈ footprint m'.mem pt sz, m₂.mem x = m'.mem x := by
    intro x listed
    have mine := building.taken x listed
    have other : x ≠ p.trapframe := fun same => ok.frame (same ▸ mine)
    rw [returned.frame x (exchange.apart x listed) fun inside => ok.apart x inside mine,
      others x other]
  obtain ⟨newSpace, newShape⟩ :=
    building.space.congr fun x table => new x (List.mem_append_left _ table)
  refine ⟨m₂, freed, ⟨newSpace, ?_, ?_, ?_, rfl⟩, (building.space.untouched new).2, ?_⟩
  · rw [newShape]
    exact building.taken
  · rw [newShape, ← left]
    exact returned.owns
  · intro x used notOld other
    rw [returned.frame x (fun free => used (by rw [left] at free; exact free.1)) notOld,
      others x other, building.frame used]
  · rw [returned.frame _ (fun free => ok.frame (by rw [left] at free; exact free.1)) ok.away, written]

theorem exec_outcome (namei : List Byte → Option (List Byte)) (path : List Byte) {argv : List Word}
    {strings : List (List Byte)} (owns : Owns m S) (ok : ProcOk m S trampoline p)
    (args : List.Forall₂ (ArgPage m S) argv strings) (few : strings.length < MAXARG) :
    ∃ ret p' m', exec m trampoline p namei path argv = .ok (ret, p', m') ∧
      ((ret = none ∧ Nothing m m' S p p') ∨
        ∃ argc file sp, ret = some argc ∧ namei path = some file ∧
          Replaced m m' S trampoline p p' ∧
          ImageReady m' p'.pagetable p'.sz file
            ((Elfhdr.ofBytes (readi file 0 sizeofElfhdr)).loadable file) strings argc sp ∧
          m'.mem p.trapframe = setTrapframe (m.mem p.trapframe) sp
            (Elfhdr.ofBytes (readi file 0 sizeofElfhdr)).entry) := by
  have same : Nothing m m S p p := ⟨rfl, owns, fun _ _ => rfl⟩
  unfold exec
  cases found : namei path with
  | none => exact ⟨none, p, m, rfl, .inl ⟨rfl, same⟩⟩
  | some file =>
    dsimp only
    by_cases short : (readi file 0 sizeofElfhdr).length ≠ sizeofElfhdr.toNat
    · rw [if_pos short]
      exact ⟨none, p, m, rfl, .inl ⟨rfl, same⟩⟩
    · rw [if_neg short]
      generalize header : Elfhdr.ofBytes (readi file 0 sizeofElfhdr) = elf
      by_cases magic : elf.magic ≠ ELF_MAGIC
      · rw [if_pos magic]
        exact ⟨none, p, m, rfl, .inl ⟨rfl, same⟩⟩
      · rw [if_neg magic]
        obtain ⟨result, m₁, made, outcome⟩ := procPagetable_space owns trampoline p.trapframe
        rw [bind_eq made]
        rcases outcome with ⟨rfl, exchange⟩ | ⟨pt, S₁, rfl, space, exchange⟩
        · refine ⟨none, p, m₁, rfl, .inl ⟨rfl, rfl, exchange.owns, fun x used => ?_⟩⟩
          exact exchange.frame x used List.not_mem_nil
        · obtain ⟨result, sz, m₂, built, building, ready⟩ := execBuild_builds file elf
            ⟨space, S₁, exchange⟩ args few
          dsimp only
          rw [bind_eq built]
          cases result with
          | none =>
            obtain ⟨m₃, freed, exchange'⟩ := building.free
            refine ⟨none, p, m₃, ?_, .inl ⟨rfl, rfl, exchange'.owns, fun x used => ?_⟩⟩
            · dsimp only
              rw [bind_eq freed]
              rfl
            · exact exchange'.frame x used List.not_mem_nil
          | some answer =>
            obtain ⟨argc, sp⟩ := answer
            obtain ⟨m₃, freed, replaced, memory, frame⟩ := building.commit ok
              (safestrcpy p.name (lastComponent path path) 16) sp elf.entry
            refine ⟨some argc, _, m₃, ?_, .inr ⟨argc, file, sp, rfl, rfl, replaced, ?_, ?_⟩⟩
            · dsimp only
              rw [bind_eq freed]
              rfl
            · rw [header]
              exact (ready argc sp rfl).congr memory
            · rw [header]
              exact frame

end Exec

end OsbKernel.Paging
