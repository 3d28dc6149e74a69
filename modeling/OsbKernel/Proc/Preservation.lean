import OsbKernel.Proc.Invariant

/-!
# Every operation keeps the invariant

For each function of `proc.c` one lemma: started in a state with the invariant, it returns, and
the invariant holds again. Loops over the table are handled by a lemma for one round and the loop
rule.
-/

namespace OsbKernel

open Function LinkedChain ExceptBind

variable {aff : Prop} {blncflg : Bool} {s s' : Kernel} {L L' : ListId → List Slot} {p : Slot}

variable {c : Cpu} {myproc : Option Slot}

theorem enqueue_ok {i : Int} (reads : s.lists.Reads L) (free : ∀ l, p ∉ L l)
    (index : cpuAt i = .ok c) :
    ∃ lists, s.enqueue i p = .ok (s.setLists lists) ∧ lists.Reads (put L (.runnable c) p) := by
  obtain ⟨lists, added, reads'⟩ := Lists.addProcToList_reads (l := .runnable c) reads free
  refine ⟨lists, ?_, reads'⟩
  simp only [Kernel.enqueue, index, added, bind, Except.bind, pure, Except.pure]

theorem countPlacement_ok {n : Nat} (counters : s.procCount = onFirstCpu n) :
    s.countPlacement (leastUsedCpu s.procCount) =
      .ok (s.setProcCount (onFirstCpu (n + 1))) := by
  rw [countPlacement_leastUsed, counters, placement_onFirstCpu]
  rfl

theorem leastUsedCpu_of_counters {procCount : Cpu → Nat} (counters : ∃ n, procCount = onFirstCpu n) :
    leastUsedCpu procCount = 0 := by
  obtain ⟨n, rfl⟩ := counters
  exact leastUsedCpu_onFirstCpu n

theorem wakeupEnqueue_ok (blncflg : Bool) (reads : s.lists.Reads L) (free : ∀ l, p ∉ L l)
    (counters : ∃ n, s.procCount = onFirstCpu n) :
    ∃ lists procCount, lists.Reads (put L (.runnable 0) p) ∧
      (∃ n, procCount = onFirstCpu n) ∧
      wakeupEnqueue blncflg s p = .ok (((s.setProc p ((s.proc p).setCpuNum
        (if blncflg then 0 else (s.proc p).cpuNum))).setProcCount procCount).setLists lists) := by
  have index : cpuAt 0 = .ok 0 := cpuAt_cast 0
  cases blncflg with
  | true =>
    obtain ⟨n, count⟩ := counters
    have least := leastUsedCpu_of_counters ⟨n, count⟩
    have counted := countPlacement_ok count
    rw [least] at counted
    obtain ⟨lists, added, reads'⟩ := enqueue_ok
      (s := (s.setProc p ((s.proc p).setCpuNum 0)).setProcCount (onFirstCpu (n + 1)))
      reads free index
    refine ⟨lists, onFirstCpu (n + 1), reads', ⟨n + 1, rfl⟩, ?_⟩
    simp only [wakeupEnqueue, if_true, least, counted, bind, Except.bind]
    exact added
  | false =>
    obtain ⟨lists, added, reads'⟩ := enqueue_ok (s := s) reads free index
    refine ⟨lists, s.procCount, reads', counters, ?_⟩
    simp only [wakeupEnqueue, Bool.false_eq_true, if_false, added, Proc.setCpuNum_self,
      Kernel.setProc_self]
    rfl

theorem forkEnqueue_ok (blncflg : Bool) {np : Slot} (reads : s.lists.Reads L) (free : ∀ l, np ∉ L l)
    (counters : ∃ n, s.procCount = onFirstCpu n) (apart : p ≠ np)
    (home : (s.proc p).cpuNum = c) :
    ∃ lists procCount, lists.Reads (put L (.runnable (if blncflg then 0 else c)) np) ∧
      (∃ n, procCount = onFirstCpu n) ∧
      forkEnqueue blncflg s p np = .ok (((s.setProc np (((s.proc np).setState .RUNNABLE).setCpuNum
        (if blncflg then 0 else (s.proc np).cpuNum))).setProcCount procCount).setLists lists) := by
  cases blncflg with
  | true =>
    have index : cpuAt 0 = .ok 0 := cpuAt_cast 0
    obtain ⟨n, count⟩ := counters
    have least := leastUsedCpu_of_counters ⟨n, count⟩
    have counted := countPlacement_ok
      (s := s.setProc np (((s.proc np).setState .RUNNABLE).setCpuNum 0)) count
    rw [Kernel.setProc_procCount, least] at counted
    obtain ⟨lists, added, reads'⟩ := enqueue_ok
      (s := (s.setProc np (((s.proc np).setState .RUNNABLE).setCpuNum 0)).setProcCount
        (onFirstCpu (n + 1))) reads free index
    refine ⟨lists, onFirstCpu (n + 1), reads', ⟨n + 1, rfl⟩, ?_⟩
    simp only [forkEnqueue, if_true, Kernel.setProc_procCount, least, Kernel.setProc_proc,
      update_self, Kernel.setProc_setProc, bind, Except.bind]
    rw [show ((0 : Nat) : Int) = 0 from rfl] at counted ⊢
    rw [counted]
    exact added
  | false =>
    have index : cpuAt (s.proc p).cpuNum = .ok c := by
      rw [home]
      exact cpuAt_cast c
    obtain ⟨lists, added, reads'⟩ := enqueue_ok
      (s := s.setProc np ((s.proc np).setState .RUNNABLE)) reads free index
    refine ⟨lists, s.procCount, reads', counters, ?_⟩
    simp only [forkEnqueue, Bool.false_eq_true, if_false, Kernel.setProc_proc,
      update_of_ne apart, added]
    rfl

theorem Fits.enqueued {q : Proc} (free : ∀ l, p ∉ L l) (state : q.state = .RUNNABLE)
    (ready : q.context ≠ .inExit) (range : 0 ≤ q.cpuNum ∧ q.cpuNum < NCPU) (own : aff → q.cpuNum = c) :
    Fits aff (put L (.runnable c) p) p q := by
  refine Fits.runnable (mem_put_self _ _) ?_ state ready range own
  intro c' listed
  rcases mem_put.mp listed with old | ⟨same, _⟩
  · exact absurd old (free _)
  · exact ListId.runnable.inj same

theorem zero_range : (0 : Int) ≤ 0 ∧ (0 : Int) < NCPU := by decide

/-- What a stretch of wakeups leaves alone: the CPUs, every slot that was not
asleep, every slot that still is, and all parents. -/
structure Woke (s s' : Kernel) : Prop where
  cpuProc : s'.cpuProc = s.cpuProc
  initproc : s'.initproc = s.initproc
  awake : ∀ x, (s.proc x).state ≠ .SLEEPING → s'.proc x = s.proc x
  asleep : ∀ x, (s'.proc x).state = .SLEEPING → s'.proc x = s.proc x
  parent : ∀ x, (s'.proc x).parent = (s.proc x).parent

theorem Woke.refl (s : Kernel) : Woke s s :=
  ⟨rfl, rfl, fun _ _ => rfl, fun _ _ => rfl, fun _ => rfl⟩

theorem Woke.trans {s'' : Kernel} (first : Woke s s') (second : Woke s' s'') : Woke s s'' where
  cpuProc := second.cpuProc.trans first.cpuProc
  initproc := second.initproc.trans first.initproc
  awake x up := by
    have one := first.awake x up
    rw [second.awake x (by rw [one]; exact up), one]
  asleep x down := by
    have two := second.asleep x down
    rw [two, first.asleep x (by rw [← two]; exact down)]
  parent x := (second.parent x).trans (first.parent x)

theorem wakeupSlot_ok {chan : Chan} (inv : Inv aff s L)
    (home : aff → blncflg = false → myproc ≠ some p → (s.proc p).state = .SLEEPING →
      (s.proc p).chan = chan → (s.proc p).cpuNum = 0) :
    ∃ s', wakeupSlot blncflg myproc chan s p = .ok s' ∧
      (∃ L', Inv aff s' L') ∧ Woke s s' := by
  unfold wakeupSlot
  by_cases self : myproc = some p
  · rw [if_pos self]
    exact ⟨s, rfl, ⟨L, inv⟩, Woke.refl s⟩
  · rw [if_neg self]
    by_cases match_ : (s.proc p).state = .SLEEPING ∧ (s.proc p).chan = chan
    · rw [if_pos match_]
      obtain ⟨asleep, onChan⟩ := match_
      have listed := inv.listed_sleeping asleep
      obtain ⟨lists, removed, reads⟩ := Lists.removeProcFromList_reads inv.reads listed
      have free := Family.notMem_drop inv.reads listed
      obtain ⟨lists', procCount, reads', counters, placed⟩ := wakeupEnqueue_ok blncflg
        (s := (s.setProc p ((s.proc p).setState .RUNNABLE)).setLists lists) reads free inv.counters
      simp only [Kernel.setProc_lists, removed, bind, Except.bind]
      refine ⟨_, placed, ⟨put (drop L .sleepingList p) (.runnable 0) p, ?_⟩, ?_⟩
      · refine inv.moveIdle (p := p) reads' ?_ ?_ ?_ counters rfl (by rw [asleep]; decide)
        · intro x apart l
          rw [mem_put_of_ne apart, mem_drop_of_ne apart]
        · intro x apart
          simp [update_of_ne apart]
        · refine Fits.enqueued free ?_ ?_ ?_ ?_
          · simp
          · simpa using (inv.slots p).ready (.inr asleep)
          · cases blncflg
            · simpa using (inv.slots p).range
            · simp
          · intro respected
            cases blncflg
            · simpa using home respected rfl self asleep onChan
            · simp
      · refine ⟨rfl, rfl, fun x up => ?_, fun x down => ?_, fun x => ?_⟩
        · have apart : x ≠ p := by
            rintro rfl
            exact up asleep
          simp [update_of_ne apart]
        · have apart : x ≠ p := by
            rintro rfl
            simp at down
          simp [update_of_ne apart]
        · by_cases same : x = p
          · subst same
            simp
          · simp [update_of_ne same]
    · rw [if_neg match_]
      exact ⟨s, rfl, ⟨L, inv⟩, Woke.refl s⟩

theorem wakeup_ok {chan : Chan} (inv : Inv aff s L)
    (home : aff → blncflg = false → ∀ x, myproc ≠ some x → (s.proc x).state = .SLEEPING →
      (s.proc x).chan = chan → (s.proc x).cpuNum = 0) :
    ∃ s', wakeup blncflg myproc chan s = .ok s' ∧ (∃ L', Inv aff s' L') ∧ Woke s s' := by
  refine foldlM_ok (P := fun s' => (∃ L', Inv aff s' L') ∧ Woke s s')
    ⟨⟨L, inv⟩, Woke.refl s⟩ ?_
  rintro s₁ x _ ⟨⟨L₁, inv₁⟩, woke⟩
  have home₁ : aff → blncflg = false → myproc ≠ some x → (s₁.proc x).state = .SLEEPING →
      (s₁.proc x).chan = chan → (s₁.proc x).cpuNum = 0 := by
    intro respected off other asleep onChan
    have old := woke.asleep x asleep
    rw [old] at asleep onChan ⊢
    exact home respected off x other asleep onChan
  obtain ⟨s₂, ran, inv₂, woke₂⟩ := wakeupSlot_ok inv₁ home₁
  exact ⟨s₂, ran, inv₂, woke.trans woke₂⟩

theorem Fits.setKilled {q : Proc} {killed : Bool} (fits : Fits aff L p q) :
    Fits aff L p (q.setKilled killed) where
  placed := fits.placed
  range := fits.range
  affinity := fits.affinity
  clean free :=
    let old := fits.clean free
    ⟨old.chan, old.xstate, old.parent, old.sz, old.pagetable, old.trapframe⟩
  closed := fits.closed
  ready := fits.ready

theorem killSlot_asleep (inv : Inv aff s L) (asleep : (s.proc p).state = .SLEEPING) :
    ∃ c lists, (s.proc p).cpuNum = (c : Cpu) ∧
      lists.Reads (put (drop L .sleepingList p) (.runnable c) p) ∧
      killSlot s p = .ok ((s.setProc p (((s.proc p).setKilled true).setState .RUNNABLE)).setLists
        lists) := by
  have listed := inv.listed_sleeping asleep
  obtain ⟨lists, removed, reads⟩ := Lists.removeProcFromList_reads inv.reads listed
  have free := Family.notMem_drop inv.reads listed
  obtain ⟨c, index, own⟩ := cpuAt_of_range (inv.slots p).range.1 (inv.slots p).range.2
  obtain ⟨lists', added, reads'⟩ := enqueue_ok (p := p) (c := c) (i := (s.proc p).cpuNum)
    (s := (s.setProc p (((s.proc p).setKilled true).setState .RUNNABLE)).setLists lists)
    reads free index
  refine ⟨c, lists', own.symm, reads', ?_⟩
  simp only [killSlot, Kernel.setProc_proc, update_self, Proc.setKilled_state, asleep, if_true,
    Kernel.setProc_lists, removed, bind, Except.bind, Kernel.setProc_setProc,
    Proc.setState_cpuNum, Proc.setKilled_cpuNum, Kernel.setLists_proc]
  exact added

theorem killSlot_awake (awake : (s.proc p).state ≠ .SLEEPING) :
    killSlot s p = .ok (s.setProc p ((s.proc p).setKilled true)) := by
  simp [killSlot, awake]
  rfl

theorem killSlot_ok (inv : Inv aff s L) : ∃ s' L', killSlot s p = .ok s' ∧ Inv aff s' L' := by
  by_cases asleep : (s.proc p).state = .SLEEPING
  · obtain ⟨c, lists, own, reads, ran⟩ := killSlot_asleep inv asleep
    refine ⟨_, _, ran, inv.moveIdle (p := p) reads ?_ ?_ ?_ inv.counters rfl (by rw [asleep]; decide)⟩
    · intro x apart l
      rw [mem_put_of_ne apart, mem_drop_of_ne apart]
    · intro x apart
      simp [update_of_ne apart]
    · refine Fits.enqueued (Family.notMem_drop inv.reads (inv.listed_sleeping asleep)) ?_ ?_ ?_
        fun _ => ?_
      · simp
      · simpa using (inv.slots p).ready (.inr asleep)
      · simpa using (inv.slots p).range
      · simpa using own
  · refine ⟨_, L, killSlot_awake asleep, inv.edit (p := p) (fun x apart => ?_) rfl ?_ ?_ rfl rfl⟩
    · simp [update_of_ne apart]
    · simpa using (inv.slots p).setKilled
    · simp

theorem killScan_ok {pid : Int} (inv : Inv aff s L) (slots : List Slot) :
    ∃ r L', killScan pid slots s = .ok r ∧ Inv aff r.1 L' := by
  induction slots with
  | nil => exact ⟨(s, -1), L, rfl, inv⟩
  | cons x rest ih =>
    unfold killScan
    by_cases found : (s.proc x).pid = pid
    · rw [if_pos found]
      obtain ⟨s', L', ran, inv'⟩ := killSlot_ok (p := x) inv
      refine ⟨(s', 0), L', ?_, inv'⟩
      rw [ran]
      rfl
    · rw [if_neg found]
      exact ih

theorem sleep_ok (chan : Chan) (inv : Inv aff s L) (runs : s.cpuProc c = some p) :
    ∃ s' L', sleep s c p chan = .ok s' ∧ Inv aff s' L' := by
  have off := inv.off_of_running (inv.running runs)
  obtain ⟨lists, added, reads⟩ := Lists.addProcToList_reads (l := .sleepingList) inv.reads off
  refine ⟨?_, put L .sleepingList p, ?ran, ?_⟩
  case ran =>
    simp only [sleep, added, bind, Except.bind, sched, Kernel.setLists_proc, Kernel.setProc_proc,
      update_self, Proc.setState_state, reduceCtorEq, if_false]
    rfl
  · refine inv.leave (c := c) runs reads ?_ ?_ ?_ rfl rfl
    · intro x apart l
      exact mem_put_of_ne apart
    · intro x apart
      simp [update_of_ne apart]
    · refine ⟨?_, ?_, ?_, ?_, ?_, ?_⟩
      · simpa [Placed] using mem_put_self ListId.sleepingList p
      · simpa using (inv.slots p).range
      · intro _ c' listed
        rcases mem_put.mp listed with old | ⟨other, _⟩
        · exact absurd old (off _)
        · cases other
      · intro free
        simp at free
      · intro gone
        simp at gone
      · simp

theorem yield_ok (inv : Inv aff s L) (runs : s.cpuProc c = some p) :
    ∃ s' L', yield s c p = .ok s' ∧ Inv aff s' L' := by
  have off := inv.off_of_running (inv.running runs)
  have range := (inv.slots p).range
  obtain ⟨home, index, own⟩ := cpuAt_of_range range.1 range.2
  obtain ⟨lists, added, reads⟩ := enqueue_ok (s := s.setProc p ((s.proc p).setState .RUNNABLE))
    (p := p) (i := (s.proc p).cpuNum) inv.reads off index
  refine ⟨?_, put L (.runnable home) p, ?ran, ?_⟩
  case ran =>
    simp only [yield, Kernel.setProc_proc, update_self, Proc.setState_cpuNum, added, bind,
      Except.bind, sched, Kernel.setLists_proc, Proc.setState_state, reduceCtorEq, if_false]
    rfl
  · refine inv.leave (c := c) runs reads ?_ ?_ ?_ rfl rfl
    · intro x apart l
      exact mem_put_of_ne apart
    · intro x apart
      simp [update_of_ne apart]
    · refine Fits.enqueued off ?_ ?_ ?_ fun _ => ?_
      · simp
      · simp
      · simpa using range
      · simpa using own.symm

def dispatched (q : Proc) : Proc :=
  match q.context with
  | .inSleep => (q.setState .RUNNING).setChan .null
  | _ => q.setState .RUNNING

@[simp] theorem dispatched_state (q : Proc) : (dispatched q).state = .RUNNING := by
  unfold dispatched
  split <;> rfl

@[simp] theorem dispatched_cpuNum (q : Proc) : (dispatched q).cpuNum = q.cpuNum := by
  unfold dispatched
  split <;> rfl

theorem scheduler_dispatches (inv : Inv aff s L)
    (head : s.lists.first (.runnable c) = some p) :
    ∃ lists, lists.Reads (drop L (.runnable c) p) ∧ scheduler s c =
      .ok (((s.setProc p (dispatched (s.proc p))).setCpuProc c (some p)).setLists lists) := by
  have listed := Family.mem_of_first inv.reads head
  have ready : (s.proc p).state = .RUNNABLE := inv.state_of_listed listed
  obtain ⟨lists, removed, reads⟩ := Lists.removeProcFromList_reads inv.reads listed
  refine ⟨lists, reads, ?_⟩
  simp only [scheduler, head, Kernel.setCpuProc_lists, Kernel.setProc_lists, removed, bind,
    Except.bind, resume, Kernel.setLists_proc, Kernel.setCpuProc_proc, Kernel.setProc_proc,
    update_self, Proc.setState_context, dispatched]
  cases ctx : (s.proc p).context with
  | zero => rfl
  | forkret => rfl
  | inYield => rfl
  | inExit => exact absurd ctx ((inv.slots p).ready (.inl ready))
  | inSleep =>
    simp only [Kernel.setProc, Kernel.setLists, Kernel.setCpuProc, update_idem]

theorem scheduler_ok (inv : Inv aff s L) :
    ∃ s' L', scheduler s c = .ok s' ∧ Inv aff s' L' := by
  cases head : s.lists.first (.runnable c) with
  | none => exact ⟨s, L, by simp only [scheduler, head], inv⟩
  | some x =>
    have listed := Family.mem_of_first inv.reads head
    have ready : (s.proc x).state = .RUNNABLE := inv.state_of_listed listed
    obtain ⟨lists, reads, ran⟩ := scheduler_dispatches inv head
    refine ⟨_, drop L (.runnable c) x, ran, ?_⟩
    refine inv.enter (c := c) (p := x) (by rw [ready]; decide) reads ?_ ?_ ?_ ?_ rfl rfl
    · intro y apart l
      exact mem_drop_of_ne apart
    · intro y apart
      simp [update_of_ne apart]
    · exact Fits.busy (Family.notMem_drop inv.reads listed)
        (by simpa using (inv.slots x).range) (.inr (by simp))
    · simp

end OsbKernel
