import OsbKernel.Proc.Runs

/-!
# A fork that runs out of memory

`allocproc` and `fork` give a half-built slot back with `freeproc`, which takes it off
`zombieList`; but a slot that `allocproc` has just taken is on no list. So whichever allocation
fails, `remove_proc_from_list` stops the kernel and nothing is undone.
-/

namespace OsbKernel

open Function LinkedChain

variable {aff : Prop} {blncflg : Bool} {s : Kernel} {L : ListId → List Slot} {p np : Slot}

/-- What a failed creation is to leave behind: the result `-1`, the slot free
again, every list but `unusedList`, every other slot and the set of free pages as
they were. -/
def FailedForkUndone (blncflg : Bool) (s : Kernel) (p np : Slot) : Prop :=
  ∃ s' L L', fork blncflg s p = .ok (s', -1) ∧ s.lists.Reads L ∧ s'.lists.Reads L' ∧
    (s'.proc np).state = .UNUSED ∧ np ∈ L' .unusedList ∧
    (∀ l, l ≠ .unusedList → L' l = L l) ∧
    (∀ x, x ≠ np → s'.proc x = s.proc x) ∧
    ∀ page, page ∈ s'.kmem.freelist ↔ page ∈ s.kmem.freelist

/-- In every state of every run, a `fork` one of whose allocations fails does
not return. -/
theorem fork_failure_not_undone {c : Cpu} (reached : Reachable blncflg s)
    (runs : s.cpuProc c = some p) (head : s.lists.first .unusedList = some np)
    (fails : AllocationFails s p) :
    (∃ f, fork blncflg s p = .error f) ∧ ¬ FailedForkUndone blncflg s p np := by
  obtain ⟨L, inv⟩ := reachable_inv reached
  obtain ⟨f, stopped⟩ := fork_fails blncflg inv (inv.running runs) head fails
  refine ⟨⟨f, stopped⟩, ?_⟩
  rintro ⟨s', _, _, returned, _⟩
  rw [stopped] at returned
  cases returned

/-- Init forks on a machine without a free page. -/
theorem fork_failure_not_undone_initRuns :
    ∃ s, Reachable false s ∧ ¬ FailedForkUndone false s 0 1 := by
  have ran : (bootRun false (fun _ => Op.Valid) 7 [.dispatch 0]).map (fun s =>
      (s.cpuProc 0, s.lists.first .unusedList, (kalloc s.kmem).isNone)) =
      some (some 0, some 1, true) := by
    decide +kernel
  obtain ⟨s, found, now⟩ := Option.map_eq_some_iff.mp ran
  simp only [Prod.mk.injEq, Option.isNone_iff_eq_none] at now
  obtain ⟨runs, head, none⟩ := now
  have reached := reachable_bootRun found
  exact ⟨s, reached, (fork_failure_not_undone reached runs head (.inl none)).2⟩

/-- The panic of that `fork`: the half-built slot is removed from the empty `zombieList`. -/
theorem fork_panics_without_memory :
    ∃ s, Reachable false s ∧ s.cpuProc 0 = some 0 ∧ kalloc s.kmem = none ∧
      s.lists.first .unusedList = some 1 ∧
      fork false s 0 = .error (.panic "Trying to remove from an empty list") := by
  have ran : (bootRun false (fun _ => Op.Valid) 7 [.dispatch 0]).map (fun s =>
      (s.cpuProc 0, s.lists.first .unusedList, (kalloc s.kmem).isNone,
        (fork false s 0).map fun _ => ())) =
      some (some 0, some 1, true, .error (.panic "Trying to remove from an empty list")) := by
    decide +kernel
  obtain ⟨s, found, now⟩ := Option.map_eq_some_iff.mp ran
  simp only [Prod.mk.injEq, Option.isNone_iff_eq_none] at now
  obtain ⟨runs, head, none, stops⟩ := now
  refine ⟨s, reachable_bootRun found, runs, none, head, ?_⟩
  cases forks : fork false s 0 with
  | error f =>
    rw [forks] at stops
    cases stops
    rfl
  | ok r =>
    rw [forks] at stops
    cases stops

end OsbKernel
