import OsbKernel.Smp.Deadlock

/-!
# What holds in every state of every interleaving

The process table as all CPUs see it while they work on it, and the checks that `acquire`,
`release` and `sched` make: none of their panics can be reached with the locks of `proc.c`.
-/

namespace OsbKernel

open LinkedChain

namespace Machine

variable {blncflg : Bool} {m : Machine} {c : Cpu} {f : Frame} {rest : List Frame} {d : Delta}
  {lk : KLock} {p : Slot} {act : Act}

/-- At any moment the lists are finite chains that share no slot, a slot whose `p->lock` is free
is on the list that goes with its state, and a process is executed by one CPU at most; that CPU
holds `p->lock`, or the process is `RUNNING` and on no list. -/
theorem slots_in_order (reached : Reachable blncflg m) :
    Family m.ls.head m.ls.lists.next m.ls.contents ∧
      (∀ i, m.owner (.proc i) = none → m.Home i) ∧
      (∀ c c' i, m.cur c = some i → m.cur c' = some i → c = c') ∧
      ∀ c i, m.cur c = some i → m.owner (.proc i) = some c ∨
        (m.pcb i).state = .RUNNING ∧ m.Off i := by
  have inv := reached.inv
  refine ⟨inv.lists.family, inv.rest, inv.alone, fun c i here => ?_⟩
  obtain ⟨f, rest, top, ok⟩ := inv.top c
  by_cases mine : ∃ h, f.hold (m.cur c) = some h ∧ h.mine = true
  · obtain ⟨h, holds, own⟩ := mine
    have same := Frame.hold_mine holds own
    rw [here] at same
    exact .inl (Option.some.inj same ▸ inv.owner_of_hold top holds)
  · exact .inr (ok.runs i here fun h holds => by simpa using fun own => mine ⟨h, holds, own⟩)

/-- Init has forked: its child is on a runnable list, and init itself runs and is on none. -/
theorem slots_in_order_fork : ∃ m, Reachable false m ∧
    ((m.pcb 1).state = .RUNNABLE ∧ ∃ t, 1 ∈ m.ls.contents (.runnable t)) ∧
      (m.pcb 0).state = .RUNNING ∧ m.Off 0 := by
  have ran : (first.run false
      (List.replicate 11 (0, .run) ++ [(0, .fork)] ++ List.replicate 18 (0, .run))).map (fun m =>
      ((m.pcb 1).state, m.owner (.proc 1), m.cur 0, m.owner (.proc 0))) =
      some (.RUNNABLE, none, some 0, none) := by
    decide +kernel
  obtain ⟨m, found, now⟩ := Option.map_eq_some_iff.mp ran
  simp only [Prod.mk.injEq] at now
  obtain ⟨runnable, unlocked, here, free⟩ := now
  have reached := (first_reachable false).run found
  obtain ⟨_, home, _, running⟩ := slots_in_order reached
  have child := home 1 unlocked
  rw [Home, runnable] at child
  rcases running 0 0 here with mine | parent
  · rw [free] at mine
    cases mine
  · exact ⟨m, reached, ⟨runnable, child⟩, parent⟩

theorem Acts.releases (inv : m.Inv) (top : m.frames c = f :: rest) (acts : Acts blncflg m c f rest d)
    (op : d.op = .release lk) : m.owner lk = some c := by
  have sits := inv.sits top
  rw [inv.owners, held, top, heldBy]
  cases acts with
  | release member =>
    cases op
    simp [Frame.own, Frame.hold, Frame.locks, member]
  | sleepAdd here =>
    cases op
    have below : heldBy (m.cur c) rest = [lk] := sits
    simp [Frame.gaveUp, below]
  | sleepResume here | yieldResume here | forkret here =>
    cases op
    simp [Frame.own, Frame.hold, here]
  | _ => cases op <;> simp [Frame.own, Frame.hold, Frame.locks]

/-- What `sched` checks: the thread holds `p->lock` and no other lock, and its process is not
`RUNNING`. -/
theorem Switches.checks {target : Option Slot} {events : List Event} {fs : List Frame} (inv : m.Inv)
    (top : m.frames c = f :: rest) (here : m.cur c = some p)
    (switches : Switches m c rest f target events fs) :
    m.held c = [.proc p] ∧ (m.pcb p).state ≠ .RUNNING := by
  have ok := inv.topOk top
  have sits := inv.sits top
  rw [here] at sits
  rw [held, top, heldBy, here]
  cases switches with
  | exit =>
    have state := (ok.hold ⟨p, true, some .ZOMBIE, .home⟩ (by rw [here]; rfl)).state _ rfl
    have bottom : rest = [] := sits
    simp [state, bottom, Frame.own, Frame.hold, Frame.locks, Frame.gaveUp, heldBy]
  | sleep =>
    have state := (ok.hold ⟨p, true, some .SLEEPING, .home⟩ (by rw [here]; rfl)).state _ rfl
    have below : heldBy (some p) rest = [_] := sits
    simp [state, below, Frame.own, Frame.hold, Frame.locks, Frame.gaveUp]
  | yield =>
    have state := (ok.hold ⟨p, true, some .RUNNABLE, .call⟩ (by rw [here]; rfl)).state _ rfl
    have below : heldBy (some p) rest = [] := sits.2
    simp [state, below, Frame.own, Frame.hold, Frame.locks, Frame.gaveUp]
  | sched idle => rw [here] at idle; cases idle

/-- The panics of `release`, `acquire` and `sched` are out of reach for the locks of `proc.c`: a
thread releases only locks that its CPU holds, acquires none that it holds already, and calls
`sched` with its own lock only and out of the state `RUNNING`. -/
theorem locks_checked (reached : Reachable blncflg m) (c : Cpu) (act : Act) :
    (∀ d lk, m.move blncflg c act = some (.act d) → d.op = .release lk → m.owner lk = some c) ∧
      (∀ d lk, m.move blncflg c act = some (.act d) → d.op = .acquire lk → (∀ n, lk ≠ .other n) →
        m.owner lk ≠ some c) ∧
      ∀ target events fs p, m.move blncflg c act = some (.swtch target events fs) →
        m.cur c = some p → m.held c = [.proc p] ∧ (m.pcb p).state ≠ .RUNNING := by
  have inv := reached.inv
  refine ⟨fun d lk moved op => ?_, fun d lk moved op table owned => ?_,
    fun target events fs p moved here => ?_⟩
  · obtain ⟨f, rest, top, does⟩ := does_of_move moved
    exact does.acts.releases inv top op
  · obtain ⟨f, rest, top, does⟩ := does_of_move moved
    obtain ⟨wait, pid, proc, -⟩ := does.acts.acquires inv top op
    cases lk with
    | waitLock =>
      have member := (inv.owners c _).mp owned
      rw [(wait rfl).1] at member
      cases member
    | pidLock =>
      obtain ⟨np, rfl⟩ := pid rfl
      obtain ⟨np, pid, same⟩ := inv.forkPid_of_owner top owned
      cases same
    | proc i =>
      obtain ⟨h, holds, -⟩ := inv.hold_of_owner top owned
      rw [(proc i rfl).1] at holds
      cases holds
    | other n => exact table n rfl
  · obtain ⟨f, rest, top, does⟩ := does_of_move moved
    exact (switches_of_does does).checks inv top here

/-- Init is about to release its lock in `forkret`. -/
theorem locks_checked_forkret : ∃ m, Reachable false m ∧ m.nextOp 0 = some (.release (.proc 0)) ∧
    m.owner (.proc 0) = some 0 := by
  have ran : (first.run false (List.replicate 10 (0, .run))).map (nextOp · 0) =
      some (some (.release (.proc 0))) := by decide +kernel
  obtain ⟨m, found, op⟩ := Option.map_eq_some_iff.mp ran
  have reached := (first_reachable false).run found
  refine ⟨m, reached, op, ?_⟩
  rw [nextOp] at op
  split at op
  · next d moved => exact (locks_checked reached 0 .run).1 d _ moved (Option.some.inj op)
  · cases op

end Machine

end OsbKernel
