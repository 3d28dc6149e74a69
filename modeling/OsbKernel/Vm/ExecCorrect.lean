import OsbKernel.Vm.SysExec

/-!
# exec is all or nothing, and runs the right program

A call of `exec` or `sys_exec` leaves the process and the free pages as they were, or gives the
process the memory of the program: its segments, the guard page and the stack.
-/

namespace OsbKernel.Paging

open Function FreeRadix ExceptBind LawfulAllocator RamAllocator PartialMap

def tinyFile : List Byte :=
  [0x7F, 0x45, 0x4C, 0x46] ++ List.replicate 28 0 ++ [64] ++ List.replicate 23 0 ++ [1] ++
    List.replicate 7 0 ++
  [1] ++ List.replicate 7 0 ++ [120] ++ List.replicate 23 0 ++ [4] ++ List.replicate 7 0 ++ [8] ++
    List.replicate 15 0 ++ [0x13, 0, 0, 0]

def smallImage (pt : Word) : Image := ⟨pt, 4096, 0x80001000, []⟩

/-- `exec` of that file in the process, with the arguments `echo` and `hi`. -/
def tinyExec (pt : Word) (m : Machine (Failing (Kmem smallLayout))) :
    Except Fault (Option Nat × Image × Machine (Failing (Kmem smallLayout))) :=
  exec m 0x80000000 (smallImage pt) (fun _ => some tinyFile) [] [0x80002000, 0x80003000]

def tinyStrings : List (List Byte) := [[0x65, 0x63, 0x68, 0x6f], [0x68, 0x69]]

theorem outside_smallLayout (x : Word) (low : x < smallLayout.kernelEnd) :
    ¬ Ram (Failing (Kmem smallLayout)) x := by
  intro ram
  have known : RamPage smallLayout x := ram
  exact absurd known.low (BitVec.not_le.mpr low)

theorem smallProcess_execs : ∃ (m : Machine (Failing (Kmem smallLayout))) (S : Set Word)
    (pt : Word), Owns m S ∧ ProcOk m S 0x80000000 (smallImage pt) ∧
      List.Forall₂ (ArgPage m S) [0x80002000, 0x80003000] tinyStrings ∧
      (∃ p' m', tinyExec pt m = .ok (some 2, p', m')) ∧
      ∃ p' m', sysExec m 0x80000000 (smallImage pt) (fun _ => none) = .ok (none, p', m') := by
  have values : (smallProcess.toOption.map fun r =>
      ((tinyExec (r.1.getD 0) r.2.2).toOption.map Prod.fst,
        (sysExec r.2.2 0x80000000 (smallImage (r.1.getD 0)) fun _ => none).toOption.map Prod.fst,
        readPage (r.2.2.mem 0x80002000) 0 5, readPage (r.2.2.mem 0x80003000) 0 3)) =
      some (some (some 2), some none, [0x65, 0x63, 0x68, 0x6f, 0], [0x68, 0x69, 0]) := by
    decide +kernel
  obtain ⟨m, S, pt, made, owns, space, apart⟩ := smallProcess_space
  rw [made] at values
  have now := Option.some.inj values
  simp only [Option.getD_some, Prod.mk.injEq] at now
  obtain ⟨runs, fails, first, second⟩ := now
  refine ⟨m, S, pt, owns, ⟨space, apart, ?_, ?_⟩,
    .cons ⟨?_, by decide, by decide, first⟩ (.cons ⟨?_, by decide, by decide, second⟩ .nil), ?_, ?_⟩
  · exact fun free => outside_smallLayout 0x80001000 (by decide) (owned owns free)
  · exact fun listed => outside_smallLayout 0x80001000 (by decide) (space.ram _ listed)
  · exact fun free => outside_smallLayout 0x80002000 (by decide) (owned owns free)
  · exact fun free => outside_smallLayout 0x80003000 (by decide) (owned owns free)
  · obtain ⟨⟨ret, p', m'⟩, ran, known⟩ := Option.map_eq_some_iff.mp runs
    exact ⟨p', m', known ▸ toOption_some ran⟩
  · obtain ⟨⟨ret, p', m'⟩, ran, known⟩ := Option.map_eq_some_iff.mp fails
    exact ⟨p', m', known ▸ toOption_some ran⟩

section Correct

variable {K : Type} [Allocator K] [LawfulAllocator K] [RamAllocator K] {m m' : Machine K}
  {S : Set Word} {trampoline : Word} {p p' : Image}

/-- A call returns.  When it fails, the process, its mappings, its trapframe and the free pages are
unchanged; when it succeeds, the old address space is free and a new one has been made. -/
def AllOrNothing (m : Machine K) (S : Set Word) (trampoline : Word) (p : Image)
    (result : Except Fault (Option Nat × Image × Machine K)) : Prop :=
  ∃ ret p' m', result = .ok (ret, p', m') ∧
    (ret = none → p' = p ∧ Owns m' S ∧ pteAt m'.mem p.pagetable = pteAt m.mem p.pagetable ∧
      userMem m' p.pagetable = userMem m p.pagetable ∧ m'.mem p.trapframe = m.mem p.trapframe) ∧
    (∀ argc, ret = some argc → Replaced m m' S trampoline p p')

theorem Nothing.mappings (nothing : Nothing m m' S p p') (ok : ProcOk m S trampoline p) :
    p' = p ∧ Owns m' S ∧ pteAt m'.mem p.pagetable = pteAt m.mem p.pagetable ∧
      userMem m' p.pagetable = userMem m p.pagetable ∧ m'.mem p.trapframe = m.mem p.trapframe := by
  obtain ⟨entries, bytes⟩ := ok.space.untouched fun x listed => nothing.frame x (ok.apart x listed)
  exact ⟨nothing.proc, nothing.owns, entries, bytes, nothing.frame _ ok.frame⟩

theorem allOrNothing_of_outcome {result : Except Fault (Option Nat × Image × Machine K)}
    (ok : ProcOk m S trampoline p)
    (outcome : ∃ ret p' m', result = .ok (ret, p', m') ∧ ((ret = none ∧ Nothing m m' S p p') ∨
      ∃ argc, ret = some argc ∧ Replaced m m' S trampoline p p')) :
    AllOrNothing m S trampoline p result := by
  obtain ⟨ret, p', m', returned, ⟨rfl, nothing⟩ | ⟨argc, rfl, replaced⟩⟩ := outcome
  · exact ⟨none, p', m', returned, fun _ => nothing.mappings ok,
      fun argc impossible => absurd impossible (Option.some_ne_none argc).symm⟩
  · exact ⟨some argc, p', m', returned, fun impossible => absurd impossible (Option.some_ne_none argc),
      fun _ _ => replaced⟩

/-- `sys_exec`, and `exec` with the arguments that it passes, are all or nothing for every file
system, and wherever `kalloc` fails. -/
theorem exec_all_or_nothing {L : Layout} {m : Machine (Failing (Kmem L))} (owns : Owns m S)
    (ok : ProcOk m S trampoline p) (namei : List Byte → Option (List Byte)) :
    AllOrNothing m S trampoline p (sysExec m trampoline p namei) ∧
      ∀ path argv strings, List.Forall₂ (ArgPage m S) argv strings → strings.length < MAXARG →
        AllOrNothing m S trampoline p (exec m trampoline p namei path argv) := by
  refine ⟨allOrNothing_of_outcome ok (sysExec_outcome namei owns ok), ?_⟩
  intro path argv strings args few
  obtain ⟨ret, p', m', returned, outcome⟩ := exec_outcome namei path owns ok args few
  refine allOrNothing_of_outcome ok ⟨ret, p', m', returned, outcome.imp_right ?_⟩
  rintro ⟨argc, -, -, success, -, replaced, -, -⟩
  exact ⟨argc, success, replaced⟩

/-- A process of one page calls `sys_exec` without success and `exec` with success. -/
theorem exec_all_or_nothing_small : ∃ (m : Machine (Failing (Kmem smallLayout))) (S : Set Word)
    (pt : Word) (p' : Image) (m₁ m₂ : Machine (Failing (Kmem smallLayout))),
    sysExec m 0x80000000 (smallImage pt) (fun _ => none) = .ok (none, smallImage pt, m₁) ∧
    Owns m₁ S ∧ userMem m₁ pt = userMem m pt ∧
    tinyExec pt m = .ok (some 2, p', m₂) ∧ Replaced m m₂ S 0x80000000 (smallImage pt) p' := by
  obtain ⟨m, S, pt, owns, ok, args, ⟨p', m₂, runs⟩, p₁, m₁, fails⟩ := smallProcess_execs
  obtain ⟨ret, q₁, n₁, returned, nothing, -⟩ := (exec_all_or_nothing owns ok fun _ => none).1
  cases fails.symm.trans returned
  obtain ⟨rfl, owns₁, -, same, -⟩ := nothing rfl
  obtain ⟨ret, q₂, n₂, returned, -, all⟩ :=
    (exec_all_or_nothing owns ok fun _ => some tinyFile).2 [] _ _ args (by decide)
  cases runs.symm.trans returned
  exact ⟨m, S, pt, p', m₁, m₂, fails, owns₁, same, runs, all 2 rfl⟩

theorem Space.guard_of_none {pt sz : Word} {trapframe : Word} {u : Nat}
    (space : Space m trampoline trapframe pt sz) (below : u < pagesBelow sz)
    (hidden : userMem m pt (u * 4096) = none) :
    ∃ pte, pteAt m.mem pt u = some pte ∧ pte &&& PTE_U = 0 := by
  have size := space.size
  have top : VPNS = 2 ^ 26 := rfl
  obtain ⟨pte, entry, -⟩ := space.user u below
  refine ⟨pte, entry, ?_⟩
  by_contra user
  have number : u * 4096 / 4096 = u := by omega
  have page : Paging.userPage m pt u = PTE2PA pte := by
    rw [userPage_entry (by omega), entry]
    exact if_neg user
  have mapped : Paging.userPage m pt (u * 4096 / 4096) ≠ 0 := by
    rw [number, page]
    exact space.page_nonzero below entry
  exact userMem_ne_none.mpr mapped hidden

/-- The stack of a program that `exec` has started, with `sp` in the registers `sp` and `a1`. -/
structure StartsWith (m : Machine K) (p : Image) (strings : List (List Byte)) (argc : Nat) : Prop where
  argc : argc = strings.length
  registers : m.mem p.trapframe a1Word = m.mem p.trapframe spWord
  pages : 8192 ≤ p.sz.toNat ∧ p.sz.toNat % 4096 = 0
  stack : ∃ ptrs, StackReady (userMem m p.pagetable) (p.sz.toNat - 4096) p.sz.toNat
    (m.mem p.trapframe spWord).toNat strings ptrs
  guard : ∃ pte, pteAt m.mem p.pagetable (p.sz.toNat / 4096 - 2) = some pte ∧ pte &&& PTE_U = 0

/-- `exec` starts the program with a well-formed stack, and fails when the arguments need more than
one page. -/
theorem exec_stack_well_formed {L : Layout} {m : Machine (Failing (Kmem L))} (owns : Owns m S)
    (ok : ProcOk m S trampoline p) (namei : List Byte → Option (List Byte)) (path : List Byte)
    {argv : List Word} {strings : List (List Byte)}
    (args : List.Forall₂ (ArgPage m S) argv strings) (few : strings.length ≤ MAXARG - 1) :
    ∃ ret p' m', exec m trampoline p namei path argv = .ok (ret, p', m') ∧
      (∀ argc, ret = some argc → StartsWith m' p' strings argc) ∧
      (4096 < argvNeed strings → ret = none) := by
  have limit : MAXARG = 32 := rfl
  obtain ⟨ret, p', m', returned, outcome⟩ := exec_outcome namei path owns ok args
    (by omega : strings.length < MAXARG)
  refine ⟨ret, p', m', returned, ?_⟩
  rcases outcome with ⟨rfl, -⟩ | ⟨argc, file, sp, rfl, -, replaced, ready, frame⟩
  · exact ⟨fun argc impossible => absurd impossible (Option.some_ne_none argc).symm, fun _ => rfl⟩
  · have need := ready.need
    refine ⟨?_, fun beyond => by omega⟩
    intro _ same
    cases same
    have size := ready.size
    have page : programSize ((Elfhdr.ofBytes (readi file 0 sizeofElfhdr)).loadable file) % 4096 = 0 :=
      Nat.mul_mod_left _ _
    have base : p'.sz.toNat - 4096 =
        programSize ((Elfhdr.ofBytes (readi file 0 sizeofElfhdr)).loadable file) + 4096 := by omega
    have stored : m'.mem p'.trapframe a1Word = sp ∧ m'.mem p'.trapframe spWord = sp := by
      rw [replaced.trapframe, frame]
      exact ⟨rfl, rfl⟩
    refine ⟨ready.argc, stored.1.trans stored.2.symm, ⟨by omega, by omega⟩, ?_, ?_⟩
    · rw [base, stored.2]
      exact ready.stack
    · refine replaced.space.guard_of_none ?_ (ready.guard _ (by omega) (by omega))
      unfold pagesBelow
      omega

/-- The small program starts with two arguments. -/
theorem exec_stack_well_formed_tiny : ∃ (m : Machine (Failing (Kmem smallLayout))) (pt : Word)
    (p' : Image) (m' : Machine (Failing (Kmem smallLayout))),
    tinyExec pt m = .ok (some 2, p', m') ∧ StartsWith m' p' tinyStrings 2 := by
  obtain ⟨m, S, pt, owns, ok, args, ⟨p', m', ran⟩, -⟩ := smallProcess_execs
  obtain ⟨ret, p₁, m₁, returned, starts, -⟩ := exec_stack_well_formed owns ok
    (fun _ => some tinyFile) [] args (by decide)
  cases ran.symm.trans returned
  exact ⟨m, pt, p', m', ran, starts 2 rfl⟩

/-- `exec` puts the segments of the file over zeros, in the order of the headers, and makes the
program as large as its segments say. -/
theorem exec_loads_image {L : Layout} {m : Machine (Failing (Kmem L))} (owns : Owns m S)
    (ok : ProcOk m S trampoline p) (namei : List Byte → Option (List Byte)) (path : List Byte)
    {argv : List Word} {strings : List (List Byte)}
    (args : List.Forall₂ (ArgPage m S) argv strings) (few : strings.length < MAXARG) :
    ∃ ret p' m', exec m trampoline p namei path argv = .ok (ret, p', m') ∧
      ∀ argc, ret = some argc → ∃ file phs, namei path = some file ∧
        phs = (Elfhdr.ofBytes (readi file 0 sizeofElfhdr)).loadable file ∧
        (∀ ph ∈ phs, (segment file ph).length = ph.filesz.toNat) ∧
        p'.sz.toNat = programSize phs + 2 * 4096 ∧
        ∀ a < programSize phs, userMem m' p'.pagetable a = overlay file (fun _ => some 0) phs a := by
  obtain ⟨ret, p', m', returned, outcome⟩ := exec_outcome namei path owns ok args few
  refine ⟨ret, p', m', returned, ?_⟩
  rcases outcome with ⟨rfl, -⟩ | ⟨argc, file, sp, rfl, found, -, ready, -⟩
  · exact fun argc impossible => absurd impossible (Option.some_ne_none argc).symm
  · exact fun _ _ => ⟨file, _, found, rfl, ready.lengths, ready.size, ready.program⟩

/-- The four bytes of the small program are at address 0 and the rest of its page is zero. -/
theorem exec_loads_image_tiny : ∃ (m : Machine (Failing (Kmem smallLayout))) (pt : Word)
    (p' : Image) (m' : Machine (Failing (Kmem smallLayout))),
    tinyExec pt m = .ok (some 2, p', m') ∧
      (List.range 8).map (userMem m' p'.pagetable) =
        [some 0x13, some 0, some 0, some 0, some 0, some 0, some 0, some 0] := by
  obtain ⟨m, S, pt, owns, ok, args, ⟨p', m', ran⟩, -⟩ := smallProcess_execs
  obtain ⟨ret, p₁, m₁, returned, image⟩ := exec_loads_image owns ok (fun _ => some tinyFile) [] args
    (by decide)
  cases ran.symm.trans returned
  obtain ⟨file, phs, found, rfl, -, -, bytes⟩ := image 2 rfl
  cases found
  refine ⟨m, pt, p', m', ran, ?_⟩
  have size : programSize ((Elfhdr.ofBytes (readi tinyFile 0 sizeofElfhdr)).loadable tinyFile) = 4096 := by
    decide +kernel
  have first : (List.range 8).map (userMem m' p'.pagetable) = (List.range 8).map
      (overlay tinyFile (fun _ => some 0)
        ((Elfhdr.ofBytes (readi tinyFile 0 sizeofElfhdr)).loadable tinyFile)) := by
    refine List.map_congr_left fun a listed => bytes a ?_
    have below := List.mem_range.mp listed
    omega
  rw [first]
  decide +kernel

end Correct

end OsbKernel.Paging
