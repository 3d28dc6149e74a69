import OsbKernel.Proc.Boot

/-!
# The invariant along every run

Every operation keeps the invariant or stops for a reason outside the lists, so
the invariant holds in every state of every run.
-/

namespace OsbKernel

open Function LinkedChain ExceptBind

variable {aff : Prop} {blncflg : Bool} {s s' : Kernel} {L L' : ListId → List Slot} {p np : Slot}

/-- The allocations of the operation, if it is a `fork`, succeed. -/
def AllocationsSucceed (s : Kernel) : Op → Prop
  | .fork c => ∀ p, s.cpuProc c = some p → s.lists.first .unusedList ≠ none → ¬ AllocationFails s p
  | _ => True

/-- No enqueue of the operation disagrees with the `cpuNum` of the slot it
enqueues. -/
def EnqueuesHome (blncflg : Bool) (s : Kernel) (op : Op) : Prop :=
  blncflg = false →
    match op with
    | .fork c => ∀ p np, s.cpuProc c = some p → s.lists.first .unusedList = some np →
        (s.proc np).cpuNum = (s.proc p).cpuNum
    | .wakeup c chan => ∀ x, s.cpuProc c ≠ some x → (s.proc x).state = .SLEEPING →
        (s.proc x).chan = chan → (s.proc x).cpuNum = 0
    | .exit c _ => ∀ p, s.cpuProc c = some p → ExitWakesHome s p
    | _ => True

theorem onCpu_sound {c : Cpu} {act : Slot → Except Fault Kernel} (inv : Inv aff s L)
    (each : ∀ p, s.cpuProc c = some p → Sound aff id (act p)) :
    Sound aff id (s.onCpu c act) := by
  unfold Kernel.onCpu
  cases runs : s.cpuProc c with
  | none => exact ⟨L, inv⟩
  | some p => exact each p runs

theorem Sound.of_ok {r : Except Fault Kernel} (result : ∃ s' L', r = .ok s' ∧ Inv aff s' L') :
    Sound aff id r := by
  obtain ⟨s', L', ran, inv⟩ := result
  rw [ran]
  exact ⟨L', inv⟩

theorem step_sound (inv : Inv aff s L) {op : Op} (valid : op.Valid)
    (allocations : AllocationsSucceed s op) (home : aff → EnqueuesHome blncflg s op) :
    Sound aff id (step blncflg s op) := by
  cases op with
  | fork c =>
    refine onCpu_sound inv fun p runs => ?_
    refine (fork_sound blncflg inv (inv.running runs) (allocations p runs) ?_).bind
      fun r L' _ inv' => ⟨L', inv'⟩
    exact fun respected off np head => home respected off p np runs head
  | exit c status =>
    refine onCpu_sound inv fun p runs => ?_
    by_cases init : s.initproc = some p
    · rw [exit, if_pos init.symm]
      exact fun same : "init exiting" = "Trying to remove from an empty list" => by
        simp at same
    · exact .of_ok (exit_ok inv runs init fun respected off => home respected off p runs)
  | wait c addr =>
    refine onCpu_sound inv fun p runs => ?_
    exact (wait_sound inv runs).bind fun r L' _ inv' => ⟨L', inv'⟩
  | sleep c chan => exact onCpu_sound inv fun p runs => .of_ok (sleep_ok chan inv runs)
  | wakeup c chan =>
    have woken : ∃ s', wakeup blncflg (s.cpuProc c) chan s = .ok s' ∧
        (∃ L', Inv aff s' L') ∧ Woke s s' := wakeup_ok inv home
    obtain ⟨s', ran, ⟨L', inv'⟩, _⟩ := woken
    exact .of_ok ⟨s', L', ran, inv'⟩
  | kill c pid =>
    refine onCpu_sound inv fun p runs => ?_
    have killed : ∃ r L', kill s pid = .ok r ∧ Inv aff r.1 L' :=
      killScan_ok inv (List.finRange NPROC)
    obtain ⟨r, L', ran, inv'⟩ := killed
    rw [ran]
    exact ⟨L', inv'⟩
  | yield c => exact onCpu_sound inv fun p runs => .of_ok (yield_ok inv runs)
  | setcpu c n =>
    refine onCpu_sound inv fun p runs => ?_
    have state := inv.running runs
    exact ⟨L, inv.editRunning state (by simpa using state) valid⟩
  | dispatch c =>
    simp only [step]
    cases runs : s.cpuProc c with
    | none => exact .of_ok (scheduler_ok inv)
    | some p => exact ⟨L, inv⟩
  | user c d =>
    refine onCpu_sound inv fun p runs => ⟨L, ?_⟩
    have state := inv.running runs
    have edited := inv.editRunning (q := { s.proc p with
      sz := d.sz
      pagetable := some d.pagetable
      trapframe := (s.proc p).trapframe.map fun saved => (saved.1, d.regs)
      ofile := d.ofile
      cwd := some d.cwd
      name := d.name
      killed := (s.proc p).killed || d.faulted }) state state (inv.slots p).range
    exact ⟨edited.reads, edited.slots, edited.counters, edited.running, edited.alone⟩

/-- An operation that returns kept the invariant: a `fork` whose allocations
fail does not return. -/
theorem step_inv (inv : Inv aff s L) {op : Op} (valid : op.Valid)
    (home : aff → EnqueuesHome blncflg s op) (ran : step blncflg s op = .ok s') :
    ∃ L', Inv aff s' L' := by
  have allocations : AllocationsSucceed s op := by
    cases op with
    | fork c =>
      intro p runs nonempty fails
      obtain ⟨np, head⟩ := Option.ne_none_iff_exists'.mp nonempty
      obtain ⟨f, stopped⟩ := fork_fails blncflg inv (inv.running runs) head fails
      simp only [step, Kernel.onCpu, runs, stopped, bind, Except.bind] at ran
      cases ran
    | _ => trivial
  have sound := step_sound inv valid allocations home
  rw [ran] at sound
  exact sound

theorem reachable_inv (reached : Reachable blncflg s) : ∃ L, Inv False s L := by
  induction reached with
  | boot returned =>
    obtain ⟨lists, page, pt, m, reads, rfl⟩ := boot_booted returned
    exact ⟨bootLists, boot_inv reads⟩
  | step op _ valid ran ih =>
    obtain ⟨L, inv⟩ := ih
    exact step_inv inv valid False.elim ran

instance : DecidablePred Op.Valid := fun op => by
  cases op <;> unfold Op.Valid <;> infer_instance

section BootRun

variable {allowed : Kernel → Op → Prop} [∀ s op, Decidable (allowed s op)] {n : Nat} {ops : List Op}

/-- The operations one after another, as long as they are allowed and return. -/
def runIf (blncflg : Bool) (allowed : Kernel → Op → Prop) [∀ s op, Decidable (allowed s op)]
    (s : Kernel) : List Op → Option Kernel
  | [] => some s
  | op :: ops =>
    if allowed s op then (step blncflg s op).toOption.bind (runIf blncflg allowed · ops) else none

/-- A run from a boot with the pages `1` to `n` free. -/
def bootRun (blncflg : Bool) (allowed : Kernel → Op → Prop) [∀ s op, Decidable (allowed s op)]
    (n : Nat) (ops : List Op) : Option Kernel :=
  (boot (List.range' 1 n) fun _ => 0).toOption.bind (runIf blncflg allowed · ops)

theorem runIf_induction {P : Kernel → Prop} (start : P s)
    (each : ∀ s op s', P s → allowed s op → step blncflg s op = .ok s' → P s')
    (ran : runIf blncflg allowed s ops = some s') : P s' := by
  induction ops generalizing s with
  | nil =>
    cases ran
    exact start
  | cons op ops ih =>
    rw [runIf] at ran
    split at ran
    · next may =>
      obtain ⟨s₁, first, rest⟩ := Option.bind_eq_some_iff.mp ran
      exact ih (each s op s₁ start may (toOption_some first)) rest
    · cases ran

theorem bootRun_induction {P : Kernel → Prop}
    (start : ∀ s, boot (List.range' 1 n) (fun _ => 0) = .ok s → P s)
    (each : ∀ s op s', P s → allowed s op → step blncflg s op = .ok s' → P s')
    (ran : bootRun blncflg allowed n ops = some s) : P s := by
  obtain ⟨s₀, booted, rest⟩ := Option.bind_eq_some_iff.mp ran
  exact runIf_induction (start s₀ (toOption_some booted)) each rest

end BootRun

theorem reachable_bootRun {n : Nat} {ops : List Op}
    (ran : bootRun blncflg (fun _ => Op.Valid) n ops = some s) : Reachable blncflg s :=
  bootRun_induction (fun _ => .boot) (fun _ op _ reached => .step op reached) ran

theorem boot_returns : ∃ s, boot (List.range' 1 7) (fun _ => 0) = .ok s := by
  have returns : (boot (List.range' 1 7) fun _ => 0).toOption.isSome = true := by decide +kernel
  obtain ⟨s, ran⟩ := Option.isSome_iff_exists.mp returns
  exact ⟨s, toOption_some ran⟩

end OsbKernel
