import OsbKernel.Proc.Runs

/-!
# CPU affinity

A runnable slot should wait on the list of the CPU that its `cpuNum` names. `yield`, `kill` and
the branches under `BLNCFLG` see to it; without `BLNCFLG`, `fork` enqueues the child on the
parent's CPU and leaves the slot's old `cpuNum`, and `wakeup` enqueues on CPU 0. Runs in which
those choices agree with `cpuNum` keep the property.
-/

namespace OsbKernel

open Function LinkedChain

variable {blncflg : Bool} {s : Kernel} {L : ListId → List Slot} {p : Slot}

/-- Every runnable slot is on the list of its own CPU and on no other. -/
def AffinityRespected (s : Kernel) : Prop :=
  ∃ L, s.lists.Reads L ∧ ∀ p, (s.proc p).state = .RUNNABLE →
    ∀ c : Cpu, p ∈ L (.runnable c) ↔ (s.proc p).cpuNum = c

theorem Inv.affinityRespected (inv : Inv True s L) : AffinityRespected s := by
  refine ⟨L, inv.reads, fun p state c => ⟨(inv.slots p).affinity trivial c, fun own => ?_⟩⟩
  have placed := (inv.slots p).placed
  rw [state] at placed
  obtain ⟨c', listed⟩ := placed
  have same := (inv.slots p).affinity trivial c' listed
  rw [own] at same
  rwa [show c = c' from Fin.ext (by exact_mod_cast same)]

/-- The states of the runs in which every operation enqueues slots on the CPU
that their `cpuNum` names. -/
inductive ReachableHome (blncflg : Bool) : Kernel → Prop where
  | boot {pages : List Page} {code : PageData} {s : Kernel}
      (booted : OsbKernel.boot pages code = .ok s) : ReachableHome blncflg s
  | step {s s' : Kernel} (op : Op) (reached : ReachableHome blncflg s) (valid : op.Valid)
      (home : EnqueuesHome blncflg s op) (ran : step blncflg s op = .ok s') :
      ReachableHome blncflg s'

theorem ReachableHome.inv (reached : ReachableHome blncflg s) : ∃ L, Inv True s L := by
  induction reached with
  | boot returned =>
    obtain ⟨lists, page, pt, m, reads, rfl⟩ := boot_booted returned
    exact ⟨bootLists, boot_inv reads⟩
  | step op _ valid home ran ih =>
    obtain ⟨L, inv⟩ := ih
    exact step_inv inv valid (fun _ => home) ran

theorem Reachable.home (reached : Reachable true s) : ReachableHome true s := by
  induction reached with
  | boot returned => exact .boot returned
  | step op _ valid ran ih => exact .step op ih valid (fun off => by cases off) ran

/-- In every run whose operations all enqueue slots at home, and so in every run
with `BLNCFLG`, affinity is respected in every state. -/
theorem affinity_of_enqueuesHome (s : Kernel) :
    (∀ blncflg, ReachableHome blncflg s → AffinityRespected s) ∧
    (Reachable true s → AffinityRespected s) := by
  have respected : ∀ blncflg, ReachableHome blncflg s → AffinityRespected s := by
    intro blncflg reached
    obtain ⟨L, inv⟩ := reached.inv
    exact inv.affinityRespected
  exact ⟨respected, fun reached => respected true reached.home⟩

instance (p : Slot) : Decidable (ExitWakesHome s p) :=
  inferInstanceAs (Decidable (∀ _, _))

instance : (op : Op) → Decidable (EnqueuesHome blncflg s op)
  | .fork c => inferInstanceAs (Decidable (_ → ∀ p np, s.cpuProc c = some p → _ → _ = _))
  | .wakeup c _ => inferInstanceAs (Decidable (_ → ∀ x, s.cpuProc c ≠ some x → _ → _ → _ = _))
  | .exit c _ => inferInstanceAs (Decidable (_ → ∀ p, s.cpuProc c = some p → ExitWakesHome s p))
  | .wait .. | .sleep .. | .kill .. | .yield .. | .setcpu .. | .dispatch .. | .user .. =>
    inferInstanceAs (Decidable (_ → True))

/-- Without `BLNCFLG` init forks and sleeps, and its child wakes it on CPU 0, where it belongs.
With `BLNCFLG` init forks a child. -/
theorem affinity_of_enqueuesHome_family :
    (∃ s, ReachableHome false s ∧ (s.proc 0).state = .RUNNABLE ∧ AffinityRespected s) ∧
      ∃ s, Reachable true s ∧ (s.proc 1).state = .RUNNABLE ∧ AffinityRespected s := by
  have woken : (bootRun false (fun s op => op.Valid ∧ EnqueuesHome false s op) 14
      [.dispatch 0, .fork 0, .sleep 0 (.object 7), .dispatch 0, .wakeup 0 (.object 7)]).map
      (fun s => (s.proc 0).state) = some .RUNNABLE := by
    decide +kernel
  have forked : (bootRun true (fun _ => Op.Valid) 14 [.dispatch 0, .fork 0]).map
      (fun s => (s.proc 1).state) = some .RUNNABLE := by
    decide +kernel
  obtain ⟨s, found, state⟩ := Option.map_eq_some_iff.mp woken
  obtain ⟨s', found', state'⟩ := Option.map_eq_some_iff.mp forked
  have reached : ReachableHome false s :=
    bootRun_induction (fun _ => .boot)
      (fun _ op _ reached ⟨valid, home⟩ => .step op reached valid home) found
  have reached' := reachable_bootRun found'
  exact ⟨⟨s, reached, state, (affinity_of_enqueuesHome s).1 false reached⟩,
    s', reached', state', (affinity_of_enqueuesHome s').2 reached'⟩

/-- Init moves to CPU 1 and forks: the child waits on CPU 1, its `cpuNum` is 0. -/
theorem fork_after_setcpu_not_affine :
    ∃ s, Reachable false s ∧ ¬ AffinityRespected s := by
  have ran : (bootRun false (fun _ => Op.Valid) 14 [.dispatch 0, .setcpu 0 1, .fork 0]).map
      (fun s => (s.lists.first (.runnable 1), (s.proc 1).state, (s.proc 1).cpuNum)) =
      some (some 1, .RUNNABLE, 0) := by
    decide +kernel
  obtain ⟨s, found, now⟩ := Option.map_eq_some_iff.mp ran
  simp only [Prod.mk.injEq] at now
  obtain ⟨first, runnable, cpuNum⟩ := now
  refine ⟨s, reachable_bootRun found, ?_⟩
  rintro ⟨L, reads, home⟩
  have own := (home 1 runnable 1).mp (Family.mem_of_first reads first)
  rw [cpuNum] at own
  cases own

end OsbKernel
