import OsbKernel.Proc.Runs
import Mathlib.Order.WellFounded

/-!
# Which processes `kill` hits

`kill` looks for its pid in every slot, also in free ones, whose `pid` is 0. What an operation
does to `pid` and `killed` of a slot is said once; a new process is then unmarked in the runs in
which no `kill` marked a free slot.
-/

namespace OsbKernel

open Function LinkedChain ExceptBind

variable {aff : Prop} {blncflg : Bool} {s s' : Kernel} {L L' : ListId → List Slot} {p np : Slot}

structure Kept (q q' : Proc) : Prop where
  pid : q'.pid = q.pid
  killed : q'.killed = q.killed
  free : q'.state = .UNUSED ↔ q.state = .UNUSED

def Keeps (s s' : Kernel) : Prop := ∀ x, Kept (s.proc x) (s'.proc x)

theorem Kept.refl (q : Proc) : Kept q q := ⟨rfl, rfl, Iff.rfl⟩

variable {q : Proc} {c : Cpu} {myproc : Option Slot} {chan : Chan} {addr : Nat} {found : WaitScan}
    {pid : Int} {op : Op}

theorem Kept.trans {q' q'' : Proc} (first : Kept q q') (second : Kept q' q'') : Kept q q'' :=
  ⟨second.pid.trans first.pid, second.killed.trans first.killed, second.free.trans first.free⟩

theorem Keeps.refl (s : Kernel) : Keeps s s := fun x => Kept.refl (s.proc x)

theorem Keeps.trans {s'' : Kernel} (first : Keeps s s') (second : Keeps s' s'') : Keeps s s'' :=
  fun x => (first x).trans (second x)

theorem Keeps.of_proc (same : s'.proc = s.proc) : Keeps s s' := by
  intro x
  rw [same]
  exact .refl _

theorem Keeps.edit (same : s'.proc = update s.proc p q) (kept : Kept (s.proc p) q) :
    Keeps s s' := by
  intro x
  rw [same]
  by_cases here : x = p
  · subst here
    rw [update_self]
    exact kept
  · rw [update_of_ne here]
    exact .refl _

theorem Kept.of_live {q' : Proc} (pid : q'.pid = q.pid) (killed : q'.killed = q.killed)
    (live : q.state ≠ .UNUSED) (live' : q'.state ≠ .UNUSED) : Kept q q' :=
  ⟨pid, killed, ⟨fun h => absurd h live', fun h => absurd h live⟩⟩

theorem enqueue_proc {i : Int} (ran : s.enqueue i p = .ok s') : s'.proc = s.proc := by
  obtain ⟨c, _, rest⟩ := bind_ok ran
  obtain ⟨lists, _, done⟩ := bind_ok rest
  cases done
  rfl

theorem countPlacement_proc {i : Int} (ran : s.countPlacement i = .ok s') : s'.proc = s.proc := by
  obtain ⟨c, _, done⟩ := bind_ok ran
  cases done
  rfl

theorem sched_keeps {at_ : Context} (ran : sched s c p at_ = .ok s') : Keeps s s' := by
  unfold sched at ran
  split at ran <;> cases ran
  exact .edit rfl ⟨rfl, rfl, Iff.rfl⟩

theorem wakeupEnqueue_keeps (ran : wakeupEnqueue blncflg s p = .ok s') : Keeps s s' := by
  unfold wakeupEnqueue at ran
  split at ran
  · obtain ⟨s₁, counted, rest⟩ := bind_ok ran
    have moved := enqueue_proc rest
    refine .edit (p := p) (moved.trans ?_) (q := (s₁.proc p).setCpuNum (leastUsedCpu s.procCount)) ?_
    · rw [← countPlacement_proc counted]
      rfl
    · rw [← countPlacement_proc counted]
      exact ⟨rfl, rfl, Iff.rfl⟩
  · exact .of_proc (enqueue_proc ran)

theorem wakeupSlot_keeps (ran : wakeupSlot blncflg myproc chan s p = .ok s') : Keeps s s' := by
  unfold wakeupSlot at ran
  split at ran
  · cases ran
    exact .refl s
  · split at ran
    · rename_i asleep
      obtain ⟨lists, _, rest⟩ := bind_ok ran
      refine Keeps.trans ?_ (wakeupEnqueue_keeps rest)
      refine .edit (p := p) rfl (.of_live rfl rfl ?_ ?_)
      · rw [asleep.1]
        decide
      · simp
    · cases ran
      exact .refl s

theorem foldlM_keeps {round : Kernel → Slot → Except Fault Kernel} (slots : List Slot)
    (each : ∀ {s s' : Kernel} {x : Slot}, round s x = .ok s' → Keeps s s')
    (ran : slots.foldlM round s = .ok s') : Keeps s s' := by
  induction slots generalizing s with
  | nil =>
    cases ran
    exact .refl _
  | cons x rest ih =>
    obtain ⟨s₁, first, more⟩ := bind_ok ran
    exact (each first).trans (ih more)

theorem wakeup_keeps (ran : wakeup blncflg myproc chan s = .ok s') : Keeps s s' :=
  foldlM_keeps (List.finRange NPROC) wakeupSlot_keeps ran

theorem reparentSlot_keeps {pp : Slot} (ran : reparentSlot blncflg p s pp = .ok s') :
    Keeps s s' := by
  unfold reparentSlot at ran
  split at ran
  · refine Keeps.trans ?_ (wakeup_keeps ran)
    exact .edit rfl ⟨rfl, rfl, Iff.rfl⟩
  · cases ran
    exact .refl s

theorem exit_keeps {status : Int} (live : (s.proc p).state ≠ .UNUSED)
    (ran : exit blncflg s c p status = .ok s') : Keeps s s' := by
  unfold exit at ran
  split at ran
  · cases ran
  · obtain ⟨s₁, adopted, ran⟩ := bind_ok ran
    obtain ⟨s₂, woken, ran⟩ := bind_ok ran
    obtain ⟨lists, _, ran⟩ := bind_ok ran
    have first : Keeps s s₁ := by
      refine Keeps.trans ?_ (foldlM_keeps (List.finRange NPROC) reparentSlot_keeps adopted)
      exact .edit rfl ⟨rfl, rfl, Iff.rfl⟩
    have second := first.trans (wakeup_keeps woken)
    have live₂ : (s₂.proc p).state ≠ .UNUSED := fun free => live ((second p).free.mp free)
    refine second.trans (Keeps.trans ?_ (sched_keeps ran))
    exact .edit rfl (.of_live rfl rfl live₂ (by simp))

theorem sleep_keeps (live : (s.proc p).state ≠ .UNUSED)
    (ran : sleep s c p chan = .ok s') : Keeps s s' := by
  obtain ⟨lists, _, ran⟩ := bind_ok ran
  refine Keeps.trans ?_ (sched_keeps ran)
  exact .edit rfl (.of_live rfl rfl live (by simp))

theorem yield_keeps (live : (s.proc p).state ≠ .UNUSED)
    (ran : yield s c p = .ok s') : Keeps s s' := by
  obtain ⟨s₁, placed, ran⟩ := bind_ok ran
  refine Keeps.trans ?_ (sched_keeps ran)
  exact .edit (enqueue_proc placed) (.of_live rfl rfl live (by simp))

theorem resume_keeps (ran : resume s p = .ok s') : Keeps s s' := by
  unfold resume at ran
  split at ran
  · cases ran
    exact .edit rfl ⟨rfl, rfl, Iff.rfl⟩
  · cases ran
  · cases ran
    exact .refl s

theorem scheduler_keeps (inv : Inv aff s L) (ran : scheduler s c = .ok s') :
    Keeps s s' := by
  unfold scheduler at ran
  split at ran
  · cases ran
    exact .refl s
  · rename_i p head
    obtain ⟨lists, _, ran⟩ := bind_ok ran
    have state := inv.state_of_listed (Family.mem_of_first inv.reads head)
    refine Keeps.trans ?_ (resume_keeps ran)
    refine .edit (p := p) rfl (.of_live rfl rfl ?_ (by simp))
    rw [state]
    simp [ListId.state]

structure Frees (s : Kernel) (np : Slot) (s' : Kernel) : Prop where
  freed : (s'.proc np).state = .UNUSED ∧ (s'.proc np).pid = 0 ∧ (s'.proc np).killed = false
  others : ∀ x, x ≠ np → Kept (s.proc x) (s'.proc x)

theorem freeproc_frees (ran : freeproc s np = .ok s') : Frees s np s' := by
  obtain ⟨m, _, ran⟩ := bind_ok ran
  obtain ⟨lists, _, ran⟩ := bind_ok ran
  obtain ⟨lists', _, ran⟩ := bind_ok ran
  cases ran
  refine ⟨?_, ?_⟩
  · simp [Proc.reset]
  · intro x other
    simp only [Kernel.setKmem_proc, Kernel.setLists_proc, Kernel.setProc_proc, update_of_ne other]
    exact .refl _

theorem Frees.after {s'' : Kernel} (first : Keeps s s') (second : Frees s' np s'') :
    Frees s np s'' :=
  ⟨second.freed, fun x other => (first x).trans (second.others x other)⟩

theorem waitReap_frees (ran : waitReap s p np addr = .ok (s', found)) :
    Keeps s s' ∨ Frees s np s' ∧ ∃ pid, found = .reaped pid := by
  unfold waitReap at ran
  split at ran
  · obtain ⟨s₁, freed, ran⟩ := bind_ok ran
    cases ran
    exact .inr ⟨freeproc_frees freed, _, rfl⟩
  · split at ran
    · cases ran
    · split at ran
      rename_i copied pt' _
      have edited : Keeps s (s.setProc p ((s.proc p).setPagetable (some pt'))) :=
        .edit rfl ⟨rfl, rfl, Iff.rfl⟩
      split at ran
      · cases ran
        exact .inl edited
      · obtain ⟨s₁, freed, ran⟩ := bind_ok ran
        cases ran
        exact .inr ⟨.after edited (freeproc_frees freed), _, rfl⟩

theorem waitScan_frees (slots : List Slot) (havekids : Bool)
    (ran : waitScan p addr slots havekids s = .ok (s', found)) :
    Keeps s s' ∨ (∃ np, Frees s np s') ∧ ∃ pid, found = .reaped pid := by
  induction slots generalizing havekids with
  | nil =>
    cases ran
    exact .inl (.refl _)
  | cons x rest ih =>
    unfold waitScan at ran
    split at ran
    · split at ran
      · rcases waitReap_frees ran with kept | ⟨frees, pid⟩
        · exact .inl kept
        · exact .inr ⟨⟨x, frees⟩, pid⟩
      · exact ih true ran
    · exact ih havekids ran

theorem wait_frees {r : Option Int} (live : (s.proc p).state ≠ .UNUSED)
    (ran : wait s c p addr = .ok (s', r)) : Keeps s s' ∨ ∃ np, Frees s np s' := by
  obtain ⟨⟨s₁, found⟩, scanned, ran⟩ := bind_ok ran
  have scan := waitScan_frees _ _ scanned
  cases found with
  | reaped pid | copyoutFailed =>
    cases ran
    exact scan.imp_right And.left
  | nothing havekids =>
    have first : Keeps s s₁ := by
      rcases scan with kept | ⟨_, pid, other⟩
      · exact kept
      · cases other
    simp only at ran
    split at ran
    · cases ran
      exact .inl first
    · obtain ⟨s₂, slept, ran⟩ := bind_ok ran
      cases ran
      have live₁ : (s₁.proc p).state ≠ .UNUSED := fun free => live ((first p).free.mp free)
      exact .inl (first.trans (sleep_keeps live₁ slept))

structure Creates (s : Kernel) (np : Slot) (s' : Kernel) : Prop where
  free : (s.proc np).state = .UNUSED
  live : (s'.proc np).state ≠ .UNUSED
  killed : (s'.proc np).killed = (s.proc np).killed
  others : ∀ x, x ≠ np → Kept (s.proc x) (s'.proc x)

theorem fork_creates (inv : Inv aff s L) (state : (s.proc p).state = .RUNNING)
    (ran : fork blncflg s p = .ok (s', pid)) : Keeps s s' ∨ ∃ np, Creates s np s' := by
  cases head : s.lists.first .unusedList with
  | none =>
    simp only [fork, allocproc, head, bind, Except.bind, pure, Except.pure] at ran
    cases ran
    exact .inl (.refl _)
  | some np =>
    obtain ⟨page, new, m, allocates⟩ := fork_allocates inv state head ran
    obtain ⟨home, _, own⟩ := cpuAt_of_range (inv.slots p).range.1 (inv.slots p).range.2
    obtain ⟨lists, procCount, _, _, made⟩ := fork_ok blncflg inv state head allocates own.symm
    rw [made] at ran
    cases ran
    refine .inr ⟨np, inv.state_of_listed (Family.mem_of_first inv.reads head), ?_, ?_, ?_⟩
    · simp [forked, forkChild]
    · simp [forked, forkChild, forkFields, allocated]
    · intro x other
      simp only [forked, Kernel.setKmem_proc, Kernel.setNextpid_proc, Kernel.setLists_proc,
        Kernel.setProcCount_proc, Kernel.setProc_proc, update_of_ne other]
      exact .refl _

/-- The slot that `kill` finds: the first one with the pid. -/
structure Found (s : Kernel) (pid : Int) (p : Slot) : Prop where
  named : (s.proc p).pid = pid
  first : ∀ x, x < p → (s.proc x).pid ≠ pid

/-- A process that `kill` has marked. -/
def marked (q : Proc) : Proc :=
  { q with killed := true, state := if q.state = .SLEEPING then .RUNNABLE else q.state }

/-- Only the slot `p` is marked; when it was asleep it has moved to the runnable list of
its CPU. -/
structure Marks (s : Kernel) (p : Slot) (s' : Kernel) : Prop where
  slot : s'.proc = update s.proc p (marked (s.proc p))
  awake : (s.proc p).state ≠ .SLEEPING → s'.lists = s.lists
  asleep : (s.proc p).state = .SLEEPING → ∃ L c, s.lists.Reads L ∧ (s.proc p).cpuNum = (c : Cpu) ∧
    s'.lists.Reads (put (drop L .sleepingList p) (.runnable c) p)
  cpuProc : s'.cpuProc = s.cpuProc
  procCount : s'.procCount = s.procCount
  nextpid : s'.nextpid = s.nextpid
  initproc : s'.initproc = s.initproc
  kmem : s'.kmem = s.kmem

theorem killSlot_marks (inv : Inv aff s L) (p : Slot) :
    ∃ s', killSlot s p = .ok s' ∧ Marks s p s' := by
  by_cases asleep : (s.proc p).state = .SLEEPING
  · obtain ⟨c, lists, own, reads, ran⟩ := killSlot_asleep inv asleep
    refine ⟨_, ran, ?_, fun up => absurd asleep up, fun _ => ⟨L, c, inv.reads, own, reads⟩,
      rfl, rfl, rfl, rfl, rfl⟩
    simp [marked, asleep, Proc.setKilled, Proc.setState]
  · refine ⟨_, killSlot_awake asleep, ?_, fun _ => rfl, fun down => absurd down asleep,
      rfl, rfl, rfl, rfl, rfl⟩
    simp [marked, asleep, Proc.setKilled]

/-- The search of `kill` through slots of which the first with the pid is the first of all. -/
theorem killScan_found (inv : Inv aff s L) {slots : List Slot} (sorted : slots.Pairwise (· < ·))
    (listed : p ∈ slots) (found : Found s pid p) :
    ∃ s', killScan pid slots s = .ok (s', 0) ∧ Marks s p s' := by
  induction slots with
  | nil => cases listed
  | cons x rest ih =>
    obtain ⟨before, sorted⟩ := List.pairwise_cons.mp sorted
    unfold killScan
    cases listed with
    | head =>
      obtain ⟨s', ran, marks⟩ := killSlot_marks inv p
      refine ⟨s', ?_, marks⟩
      rw [if_pos found.named, ran]
      rfl
    | tail _ later =>
      rw [if_neg (found.first x (before p later))]
      exact ih sorted later

theorem kill_found (inv : Inv aff s L) (found : Found s pid p) :
    ∃ s', kill s pid = .ok (s', 0) ∧ Marks s p s' :=
  killScan_found inv (List.pairwise_lt_finRange NPROC) (List.mem_finRange p) found

theorem killScan_missing (slots : List Slot) (none : ∀ x, (s.proc x).pid ≠ pid) :
    killScan pid slots s = .ok (s, -1) := by
  induction slots with
  | nil => rfl
  | cons x rest ih =>
    rw [killScan, if_neg (none x)]
    exact ih

theorem found_or_missing (s : Kernel) (pid : Int) :
    (∃ p, Found s pid p) ∨ ∀ x, (s.proc x).pid ≠ pid := by
  by_cases named : ∃ x, (s.proc x).pid = pid
  · have wf : WellFounded ((· < ·) : Slot → Slot → Prop) := wellFounded_lt
    obtain ⟨p, here, least⟩ := wf.has_min {x | (s.proc x).pid = pid} named
    exact .inl ⟨p, here, fun x before there => least x there before⟩
  · exact .inr fun x there => named ⟨x, there⟩

structure Faults (s : Kernel) (p : Slot) (s' : Kernel) : Prop where
  pid : (s'.proc p).pid = (s.proc p).pid
  state : (s'.proc p).state = (s.proc p).state
  others : ∀ x, x ≠ p → s'.proc x = s.proc x

inductive Effect (s : Kernel) : Op → Kernel → Prop where
  | keeps {op : Op} {s' : Kernel} (keeps : Keeps s s') : Effect s op s'
  | frees {op : Op} {s' : Kernel} {np : Slot} (frees : Frees s np s') : Effect s op s'
  | creates {op : Op} {s' : Kernel} {np : Slot} (creates : Creates s np s') : Effect s op s'
  | marks {c : Cpu} {pid : Int} {s' : Kernel} {me p : Slot} (runs : s.cpuProc c = some me)
      (found : Found s pid p) (marks : Marks s p s') : Effect s (.kill c pid) s'
  | faults {c : Cpu} {d : UserData} {s' : Kernel} {p : Slot} (runs : s.cpuProc c = some p)
      (faulted : d.faulted = true) (faults : Faults s p s') : Effect s (.user c d) s'

theorem kill_effect {r : Int} {me : Slot} (inv : Inv aff s L)
    (runs : s.cpuProc c = some me) (ran : kill s pid = .ok (s', r)) :
    Effect s (.kill c pid) s' := by
  rcases found_or_missing s pid with ⟨p, found⟩ | missing
  · obtain ⟨s'', killed, marks⟩ := kill_found inv found
    rw [killed] at ran
    cases ran
    exact .marks runs found marks
  · rw [kill, killScan_missing _ missing] at ran
    cases ran
    exact .keeps (.refl _)

theorem user_effect {d : UserData} (runs : s.cpuProc c = some p) :
    Effect s (.user c d) (userStep s p d) := by
  cases faulted : d.faulted with
  | true =>
    refine .faults runs faulted ⟨?_, ?_, ?_⟩
    · simp [userStep]
    · simp [userStep]
    · intro x other
      simp [userStep, update_of_ne other]
  | false =>
    refine .keeps (.edit (p := p) rfl ⟨rfl, ?_, Iff.rfl⟩)
    simp [faulted]

theorem step_effect (inv : Inv aff s L) (ran : step blncflg s op = .ok s') :
    Effect s op s' := by
  have idle : ∀ {c : Cpu} {act : Slot → Except Fault Kernel}, s.onCpu c act = .ok s' →
      s' = s ∨ ∃ p, s.cpuProc c = some p ∧ (s.proc p).state ≠ .UNUSED ∧ act p = .ok s' := by
    intro c act ran
    unfold Kernel.onCpu at ran
    split at ran
    · cases ran
      exact .inl rfl
    · rename_i p runs
      refine .inr ⟨p, runs, ?_, ran⟩
      rw [inv.running runs]
      decide
  cases op with
  | wakeup c chan => exact .keeps (wakeup_keeps ran)
  | dispatch c =>
    simp only [step] at ran
    split at ran
    · exact .keeps (scheduler_keeps inv ran)
    · cases ran
      exact .keeps (.refl _)
  | fork c =>
    rcases idle ran with rfl | ⟨p, runs, _, ran⟩
    · exact .keeps (.refl _)
    · obtain ⟨⟨s₁, pid⟩, forked, done⟩ := bind_ok ran
      cases done
      rcases fork_creates inv (inv.running runs) forked with kept | ⟨np, creates⟩
      · exact .keeps kept
      · exact .creates creates
  | exit c status =>
    rcases idle ran with rfl | ⟨p, _, live, ran⟩
    · exact .keeps (.refl _)
    · exact .keeps (exit_keeps live ran)
  | wait c addr =>
    rcases idle ran with rfl | ⟨p, _, live, ran⟩
    · exact .keeps (.refl _)
    · obtain ⟨⟨s₁, r⟩, waited, done⟩ := bind_ok ran
      cases done
      rcases wait_frees live waited with kept | ⟨np, frees⟩
      · exact .keeps kept
      · exact .frees frees
  | sleep c chan =>
    rcases idle ran with rfl | ⟨p, _, live, ran⟩
    · exact .keeps (.refl _)
    · exact .keeps (sleep_keeps live ran)
  | kill c pid =>
    rcases idle ran with rfl | ⟨p, runs, _, ran⟩
    · exact .keeps (.refl _)
    · obtain ⟨⟨s₁, r⟩, killed, done⟩ := bind_ok ran
      cases done
      exact kill_effect inv runs killed
  | yield c =>
    rcases idle ran with rfl | ⟨p, _, live, ran⟩
    · exact .keeps (.refl _)
    · exact .keeps (yield_keeps live ran)
  | setcpu c n =>
    rcases idle ran with rfl | ⟨p, _, _, ran⟩
    · exact .keeps (.refl _)
    · cases ran
      exact .keeps (.edit rfl ⟨rfl, rfl, Iff.rfl⟩)
  | user c d =>
    rcases idle ran with rfl | ⟨p, runs, _, ran⟩
    · exact .keeps (.refl _)
    · cases ran
      exact user_effect runs

def FreePids (s : Kernel) : Prop := ∀ x, (s.proc x).state = .UNUSED → (s.proc x).pid = 0

def FreeUnmarked (s : Kernel) : Prop := ∀ x, (s.proc x).state = .UNUSED → (s.proc x).killed = false

/-- The slot that `kill` marks is in use.  Where it is not, the call can still go
unnoticed: the free slot was marked before, and so was a process that is awake. -/
def KillHitsLive (s : Kernel) (pid : Int) : Prop :=
  ∀ p, Found s pid p → (s.proc p).state ≠ .UNUSED ∨
    (s.proc p).killed = true ∧ ∃ q, (s.proc q).state ≠ .UNUSED ∧ (s.proc q).state ≠ .SLEEPING ∧
      (s.proc q).pid = pid ∧ (s.proc q).killed = true

theorem Marks.other (marks : Marks s p s') {x : Slot} (other : x ≠ p) : s'.proc x = s.proc x := by
  rw [marks.slot, update_of_ne other]

theorem Marks.self (marks : Marks s p s') : s'.proc p = marked (s.proc p) := by
  rw [marks.slot, update_self]

theorem marked_free : (marked q).state = .UNUSED ↔ q.state = .UNUSED := by
  unfold marked
  by_cases asleep : q.state = .SLEEPING
  · simp [asleep]
  · simp [asleep]

theorem FreePids.effect (pids : FreePids s) (effect : Effect s op s') : FreePids s' := by
  intro x free
  cases effect with
  | keeps keeps =>
    rw [(keeps x).pid]
    exact pids x ((keeps x).free.mp free)
  | @frees _ _ np frees =>
    by_cases same : x = np
    · subst same
      exact frees.freed.2.1
    · rw [(frees.others x same).pid]
      exact pids x ((frees.others x same).free.mp free)
  | @creates _ _ np creates =>
    by_cases same : x = np
    · subst same
      exact absurd free creates.live
    · rw [(creates.others x same).pid]
      exact pids x ((creates.others x same).free.mp free)
  | @marks c pid _ me p runs found marks =>
    by_cases same : x = p
    · subst same
      rw [marks.self] at free ⊢
      exact pids x (marked_free.mp free)
    · rw [marks.other same] at free ⊢
      exact pids x free
  | @faults c d _ p runs faulted faults =>
    by_cases same : x = p
    · subst same
      rw [faults.pid]
      exact pids x (faults.state ▸ free)
    · rw [faults.others x same] at free ⊢
      exact pids x free

theorem FreeUnmarked.effect (inv : Inv aff s L) (clear : FreeUnmarked s)
    (hits : ∀ c pid, op = .kill c pid → s.cpuProc c ≠ none → KillHitsLive s pid)
    (effect : Effect s op s') : FreeUnmarked s' := by
  intro x free
  cases effect with
  | keeps keeps =>
    rw [(keeps x).killed]
    exact clear x ((keeps x).free.mp free)
  | @frees _ _ np frees =>
    by_cases same : x = np
    · subst same
      exact frees.freed.2.2
    · rw [(frees.others x same).killed]
      exact clear x ((frees.others x same).free.mp free)
  | @creates _ _ np creates =>
    by_cases same : x = np
    · subst same
      exact absurd free creates.live
    · rw [(creates.others x same).killed]
      exact clear x ((creates.others x same).free.mp free)
  | @marks c pid _ me p runs found marks =>
    by_cases same : x = p
    · subst same
      rw [marks.self] at free
      have unused := marked_free.mp free
      rcases hits c pid rfl (by simp [runs]) x found with live | ⟨already, _⟩
      · exact absurd unused live
      · rw [clear x unused] at already
        cases already
    · rw [marks.other same] at free ⊢
      exact clear x free
  | @faults c d _ p runs faulted faults =>
    by_cases same : x = p
    · subst same
      rw [faults.state, inv.running runs] at free
      cases free
    · rw [faults.others x same] at free ⊢
      exact clear x free

theorem boot_free {pages : List Page} {code : PageData} (returned : boot pages code = .ok s) :
    FreePids s ∧ FreeUnmarked s := by
  obtain ⟨lists, page, pt, m, -, rfl⟩ := boot_booted returned
  have slot : ∀ x, x ≠ 0 → (booted pages lists page pt m).proc x = (bss pages).proc x := by
    intro x other
    simp [booted, update_of_ne other]
  have init : (booted pages lists page pt m).proc 0 = initProcess ((bss pages).proc 0) page pt := by
    simp [booted]
  constructor
  · intro x free
    by_cases same : x = 0
    · rw [same, init] at free
      cases free
    · rw [slot x same]
      rfl
  · intro x free
    by_cases same : x = 0
    · rw [same, init] at free
      cases free
    · rw [slot x same]
      rfl

theorem reachable_freePids (reached : Reachable blncflg s) : FreePids s := by
  induction reached with
  | boot returned => exact (boot_free returned).1
  | step op before _ ran ih =>
    obtain ⟨L, inv⟩ := reachable_inv before
    exact ih.effect (step_effect inv ran)

/-- The runs in which every call of `kill` hits a slot in use. -/
inductive ReachableHits (blncflg : Bool) : Kernel → Prop where
  | boot {pages : List Page} {code : PageData} {s : Kernel}
      (booted : OsbKernel.boot pages code = .ok s) : ReachableHits blncflg s
  | step {s s' : Kernel} (op : Op) (reached : ReachableHits blncflg s) (valid : op.Valid)
      (hits : ∀ c pid, op = .kill c pid → s.cpuProc c ≠ none → KillHitsLive s pid)
      (ran : step blncflg s op = .ok s') : ReachableHits blncflg s'

theorem ReachableHits.reachable (reached : ReachableHits blncflg s) : Reachable blncflg s := by
  induction reached with
  | boot returned => exact .boot returned
  | step op _ valid _ ran ih => exact .step op ih valid ran

theorem ReachableHits.freeUnmarked (reached : ReachableHits blncflg s) : FreeUnmarked s := by
  induction reached with
  | boot returned => exact (boot_free returned).2
  | step op before _ hits ran ih =>
    obtain ⟨L, inv⟩ := reachable_inv before.reachable
    exact ih.effect inv hits (step_effect inv ran)

/-- What `kill` should do: mark the process with the pid, or fail and change nothing. -/
structure KillsLive (s : Kernel) (pid : Int) (s' : Kernel) (r : Int) : Prop where
  returns : r = 0 ↔ ∃ p, (s.proc p).state ≠ .UNUSED ∧ (s.proc p).pid = pid
  marks : r = 0 → ∃ p, (s.proc p).state ≠ .UNUSED ∧ (s.proc p).pid = pid ∧ Marks s p s'
  fails : r ≠ 0 → r = -1 ∧ s' = s

theorem marked_of_killed (killed : q.killed = true) (awake : q.state ≠ .SLEEPING) :
    marked q = q := by
  unfold marked
  rw [if_neg awake, ← killed]

theorem Marks.again {q : Slot} (marks : Marks s p s') (killed : (s.proc p).killed = true)
    (awake : (s.proc p).state ≠ .SLEEPING) (killed' : (s.proc q).killed = true)
    (awake' : (s.proc q).state ≠ .SLEEPING) : Marks s q s' := by
  refine ⟨?_, fun _ => marks.awake awake, fun asleep => absurd asleep awake', marks.cpuProc,
    marks.procCount, marks.nextpid, marks.initproc, marks.kmem⟩
  rw [marks.slot, marked_of_killed killed awake, marked_of_killed killed' awake', update_eq_self,
    update_eq_self]

theorem killsLive_of_hits (inv : Inv aff s L) (hits : KillHitsLive s pid) :
    ∃ s' r, kill s pid = .ok (s', r) ∧ KillsLive s pid s' r := by
  rcases found_or_missing s pid with ⟨p, found⟩ | missing
  · obtain ⟨s', ran, marks⟩ := kill_found inv found
    have whom : ∃ q, (s.proc q).state ≠ .UNUSED ∧ (s.proc q).pid = pid ∧ Marks s q s' := by
      by_cases free : (s.proc p).state = .UNUSED
      · rcases hits p found with live | ⟨killed, q, live, awake, named, killed'⟩
        · exact absurd free live
        · exact ⟨q, live, named, marks.again killed (by simp [free]) killed' awake⟩
      · exact ⟨p, free, found.named, marks⟩
    obtain ⟨q, live, named, _⟩ := id whom
    exact ⟨s', 0, ran, ⟨fun _ => ⟨q, live, named⟩, fun _ => rfl⟩, fun _ => whom,
      fun failed => absurd rfl failed⟩
  · refine ⟨s, -1, killScan_missing _ missing, ⟨?_, ?_⟩, ?_, fun _ => ⟨rfl, rfl⟩⟩
    · intro zero
      cases zero
    · rintro ⟨p, _, named⟩
      exact absurd named (missing p)
    · intro zero
      cases zero

theorem hits_of_killsLive {r : Int} (inv : Inv aff s L) (ran : kill s pid = .ok (s', r))
    (lives : KillsLive s pid s' r) : KillHitsLive s pid := by
  intro p found
  obtain ⟨s'', ran', marks⟩ := kill_found inv found
  rw [ran] at ran'
  cases ran'
  by_cases live : (s.proc p).state = .UNUSED
  · obtain ⟨q, liveq, named, only⟩ := lives.marks rfl
    have apart : p ≠ q := by
      rintro rfl
      exact liveq live
    have here := only.other apart
    rw [marks.self] at here
    have there := marks.other apart.symm
    rw [only.self] at there
    refine .inr ⟨?_, q, liveq, ?_, named, ?_⟩
    · rw [← here]
      rfl
    · intro asleep
      have state := congrArg Proc.state there
      simp [marked, asleep] at state
    · rw [← there]
      rfl
  · exact .inl live

theorem killHitsLive_of_ne_zero (pids : FreePids s) (nonzero : pid ≠ 0) :
    KillHitsLive s pid := by
  intro p found
  refine .inl fun free => nonzero ?_
  rw [← found.named]
  exact pids p free

/-- The runs in which a process stays in its slot, is not named by a call of `kill`, and
does not fault. -/
inductive Spared (blncflg : Bool) (np : Slot) : Kernel → Kernel → Prop where
  | refl (s : Kernel) : Spared blncflg np s s
  | step {s₁ s₂ s₃ : Kernel} (op : Op) (run : Spared blncflg np s₁ s₂) (valid : op.Valid)
      (ran : step blncflg s₂ op = .ok s₃) (live : (s₃.proc np).state ≠ .UNUSED)
      (unnamed : ∀ c, op ≠ .kill c (s₂.proc np).pid)
      (sound : ∀ c d, op = .user c d → s₂.cpuProc c = some np → d.faulted = false) :
      Spared blncflg np s₁ s₃

theorem Spared.unmarked {s₁ s₂ : Kernel} (reached : Reachable blncflg s₁)
    (start : (s₁.proc np).state ≠ .UNUSED ∧ (s₁.proc np).killed = false)
    (run : Spared blncflg np s₁ s₂) :
    Reachable blncflg s₂ ∧ (s₂.proc np).state ≠ .UNUSED ∧ (s₂.proc np).killed = false := by
  induction run with
  | refl => exact ⟨reached, start⟩
  | step op _ valid ran live unnamed sound ih =>
    obtain ⟨reached, live₂, clear⟩ := ih
    obtain ⟨L, inv⟩ := reachable_inv reached
    refine ⟨.step op reached valid ran, live, ?_⟩
    cases step_effect inv ran with
    | keeps keeps => rw [(keeps np).killed, clear]
    | @frees _ _ x frees =>
      have apart : np ≠ x := by
        rintro rfl
        exact live frees.freed.1
      rw [(frees.others np apart).killed, clear]
    | @creates _ _ x creates =>
      have apart : np ≠ x := by
        rintro rfl
        exact live₂ creates.free
      rw [(creates.others np apart).killed, clear]
    | @marks c pid _ me p runs found marks =>
      have apart : np ≠ p := by
        rintro rfl
        exact unnamed c (by rw [found.named])
      rw [marks.other apart, clear]
    | @faults c d _ p runs faulted faults =>
      have apart : np ≠ p := by
        rintro rfl
        have clean := sound c d rfl runs
        rw [faulted] at clean
        cases clean
      rw [faults.others np apart, clear]

theorem forked_unmarked {s₁ s₂ : Kernel} (reached : ReachableHits blncflg s)
    (ran : step blncflg s (.fork c) = .ok s₁) (free : (s.proc np).state = .UNUSED)
    (live : (s₁.proc np).state ≠ .UNUSED) (spared : Spared blncflg np s₁ s₂) :
    (s₂.proc np).killed = false := by
  obtain ⟨L, inv⟩ := reachable_inv reached.reachable
  have clear : (s₁.proc np).killed = false := by
    have before := reached.freeUnmarked np free
    cases step_effect inv ran with
    | keeps keeps => rw [(keeps np).killed, before]
    | @frees _ _ x frees =>
      have apart : np ≠ x := by
        rintro rfl
        exact live frees.freed.1
      rw [(frees.others np apart).killed, before]
    | @creates _ _ x creates =>
      by_cases same : np = x
      · subst same
        rw [creates.killed, before]
      · rw [(creates.others np same).killed, before]
  exact (spared.unmarked (.step (.fork c) reached.reachable trivial ran) ⟨live, clear⟩).2.2

/-- `kill` marks the process with the pid, or fails without a trace, exactly when the
first slot with the pid is not a free one; so it is for every pid but 0.  In the runs
in which this holds of every call, a new process is not marked until a call of `kill`
names its pid or it faults. -/
theorem kill_hits_live_iff (reached : Reachable blncflg s) (pid : Int) :
    ((∃ s' r, kill s pid = .ok (s', r) ∧ KillsLive s pid s' r) ↔ KillHitsLive s pid) ∧
    (pid ≠ 0 → KillHitsLive s pid) ∧
    (ReachableHits blncflg s → ∀ c np s₁ s₂, step blncflg s (.fork c) = .ok s₁ →
      (s.proc np).state = .UNUSED → (s₁.proc np).state ≠ .UNUSED → Spared blncflg np s₁ s₂ →
      (s₂.proc np).killed = false) := by
  obtain ⟨L, inv⟩ := reachable_inv reached
  refine ⟨⟨?_, killsLive_of_hits inv⟩, killHitsLive_of_ne_zero (reachable_freePids reached), ?_⟩
  · rintro ⟨s', r, ran, lives⟩
    exact hits_of_killsLive inv ran lives
  · intro hits c np s₁ s₂ ran free live spared
    exact forked_unmarked hits ran free live spared

/-- Init calls `kill(0)`, which finds the free slot 1 and reports success; the child that
init forks next is marked from the beginning. -/
theorem kill_marks_free_slot :
    ∃ s s₁ s₂ : Kernel, Reachable false s ∧
      (∀ x, (s.proc x).state ≠ .UNUSED → (s.proc x).pid ≠ 0) ∧
      kill s 0 = .ok (s₁, 0) ∧ step false s (.kill 0 0) = .ok s₁ ∧
      (s₁.proc 1).state = .UNUSED ∧ (s₁.proc 1).killed = true ∧
      step false s₁ (.fork 0) = .ok s₂ ∧ (s₂.proc 1).state = .RUNNABLE ∧
      (s₂.proc 1).killed = true := by
  have ran : ((bootRun false (fun _ => Op.Valid) 14 [.dispatch 0]).bind fun s =>
      (kill s 0).toOption.bind fun r => (step false r.1 (.fork 0)).toOption.map fun s₂ =>
        ((s.cpuProc 0, decide (∀ x, (s.proc x).state ≠ .UNUSED → (s.proc x).pid ≠ 0), r.2),
          ((r.1.proc 1).state, (r.1.proc 1).killed), (s₂.proc 1).state, (s₂.proc 1).killed)) =
      some ((some 0, true, 0), (.UNUSED, true), .RUNNABLE, true) := by
    decide +kernel
  obtain ⟨s, found, rest⟩ := Option.bind_eq_some_iff.mp ran
  obtain ⟨⟨s₁, r⟩, killed, rest⟩ := Option.bind_eq_some_iff.mp rest
  obtain ⟨s₂, forks, now⟩ := Option.map_eq_some_iff.mp rest
  simp only [Prod.mk.injEq, decide_eq_true_eq] at now
  obtain ⟨⟨runs, pids, rfl⟩, ⟨free, marked⟩, made, born⟩ := now
  have kills := toOption_some killed
  refine ⟨s, s₁, s₂, reachable_bootRun found, pids, kills, ?_, free, marked, toOption_some forks,
    made, born⟩
  simp only [step, Kernel.onCpu, runs, kills, bind, Except.bind, pure, Except.pure]

/-- Init calls `kill(1)` on itself in a table whose other slots are free. -/
theorem kill_hits_live_iff_init : ∃ s : Kernel, Reachable false s ∧ KillHitsLive s 1 ∧
    ¬ KillHitsLive s 0 ∧ ∃ s' r, kill s 1 = .ok (s', r) ∧ KillsLive s 1 s' r := by
  have ran : (bootRun false (fun _ => Op.Valid) 7 [.dispatch 0]).map (fun s =>
      ((s.proc 0).pid, (s.proc 1).pid, (s.proc 1).state, (s.proc 1).killed)) =
      some (1, 0, .UNUSED, false) := by
    decide +kernel
  obtain ⟨s, found, now⟩ := Option.map_eq_some_iff.mp ran
  simp only [Prod.mk.injEq] at now
  obtain ⟨own, pid, free, unmarked⟩ := now
  have reached := reachable_bootRun found
  have both := kill_hits_live_iff reached 1
  have hits := both.2.1 (by decide)
  refine ⟨s, reached, hits, ?_, both.1.mpr hits⟩
  intro other
  have first : Found s 0 1 := by
    refine ⟨pid, fun x before => ?_⟩
    have zero : x = 0 := Fin.ext (Nat.lt_one_iff.mp before)
    rw [zero, own]
    decide
  rcases other 1 first with live | ⟨killed, _⟩
  · exact live free
  · rw [unmarked] at killed
    cases killed

end OsbKernel
