import OsbKernel.Smp.Code

/-!
# The invariant of the kernel on several CPUs

A lock is held by the CPU whose thread has taken it. A slot whose `p->lock` is free is on the list
that goes with its state; otherwise the frame that holds the lock says where the slot is. A CPU
knows only about slots it has locked and its own process, and no step of another CPU changes
those.
-/

namespace OsbKernel

open Function
open scoped List

def Frame.call (c : Cpu) (self : Option Slot) : Frame → Option ListCall
  | .forkLook => some (.pick .unusedList)
  | .forkNone => some (.pick .unusedList)
  | .forkGot _ => some (.pick .unusedList)
  | .forkRemove np => some (.remove .unusedList np)
  | .forkAdd np _ t => some (.add (.runnable t) np)
  | .exitAdd => self.map (.add .zombieList ·)
  | .waitRemove np _ _ => some (.remove .zombieList np)
  | .waitAdd np _ _ => some (.add .unusedList np)
  | .sleepAdd _ _ => self.map (.add .sleepingList ·)
  | .yieldAdd t => self.map (.add (.runnable t) ·)
  | .wakeRemove _ _ q _ => some (.remove .sleepingList q)
  | .wakeAdd _ _ q t _ => some (.add (.runnable t) q)
  | .killRemove q => some (.remove .sleepingList q)
  | .killAdd q t => some (.add (.runnable t) q)
  | .schedLook => some (.pick (.runnable c))
  | .schedNone => some (.pick (.runnable c))
  | .schedGot _ => some (.pick (.runnable c))
  | .schedRemove p => some (.remove (.runnable c) p)
  | _ => none

variable {self : Option Slot}

theorem Frame.hold_of_call {c : Cpu} {f : Frame} {call : ListCall} {i : Slot}
    (calls : f.call c self = some call) (concerns : call.index = some i) :
    ∃ h, f.hold self = some h ∧ h.slot = i ∧ h.state ≠ none ∧ h.place = .call := by
  cases f <;> cases self <;>
    simp [Frame.call, Frame.hold] at calls ⊢ <;> subst calls <;>
    simp [ListCall.index] at concerns ⊢ <;> exact concerns

theorem Frame.hold_mine {f : Frame} {h : Hold} (holds : f.hold self = some h)
    (mine : h.mine = true) : self = some h.slot := by
  cases f <;> cases self <;> simp [Frame.hold] at holds ⊢ <;> subst holds <;> first | rfl | cases mine

/-- The slot that a fork in progress has taken and not enqueued yet, when its lock is free. -/
def Frame.reserves : Frame → Option Slot
  | .forkLink np _ => some np
  | .forkLinked np _ => some np
  | .forkReady np _ => some np
  | _ => none

/-- The value of `c->proc` while the scheduler of `c` is at a place. -/
def Frame.running : Frame → Option Slot
  | .schedRemove p => some p
  | .schedBack p => some p
  | _ => none

def Frame.Sits (self : Option Slot) (rest : List Frame) : Frame → Prop
  | .code _ => True
  | .wakeLoop _ _ _ => rest ≠ []
  | .wakeRemove _ _ _ _ => rest ≠ []
  | .wakeAdd _ _ _ _ _ => rest ≠ []
  | .wakeSkip _ _ _ _ => rest ≠ []
  | .sleepStart _ lk => heldBy self rest = [lk]
  | .sleepAdd _ lk => heldBy self rest = [lk]
  | .sleepSet _ lk => heldBy self rest = [lk]
  | .sleepSwitch _ lk => heldBy self rest = [lk]
  | .sleepResume lk => heldBy self rest = [lk]
  | .sleepRelock lk => heldBy self rest = [lk]
  | .yieldStart => rest ≠ [] ∧ heldBy self rest = []
  | .yieldAdd _ => rest ≠ [] ∧ heldBy self rest = []
  | .yieldResume => rest ≠ [] ∧ heldBy self rest = []
  | .schedIdle => self = none ∧ rest = []
  | .schedLook => self = none ∧ rest = []
  | .schedNone => self = none ∧ rest = []
  | .schedGot _ => self = none ∧ rest = []
  | .schedRemove _ => self = none ∧ rest = []
  | .schedBack _ => self = none ∧ rest = []
  | _ => rest = []

/-- A well-formed thread: only the innermost frame holds a `p->lock`. -/
def Shape (self : Option Slot) : List Frame → Prop
  | [] => True
  | f :: rest => f.Sits self rest ∧ (∀ g ∈ rest, g.hold self = none) ∧ Shape self rest

/-- Where `swtch` can resume a thread. -/
def Frame.Resumable : Frame → Prop
  | .sleepResume _ => True
  | .yieldResume => True
  | .forkret => True
  | _ => False

def ProcState.Waits (st : ProcState) : Prop :=
  st = .RUNNABLE ∨ st = .SLEEPING ∨ st = .RUNNING ∨ st = .USED

namespace Machine

variable (m : Machine)

def Off (i : Slot) : Prop := ∀ l, i ∉ m.ls.contents l

def Home (i : Slot) : Prop :=
  match (m.pcb i).state with
  | .UNUSED => i ∈ m.ls.contents .unusedList
  | .SLEEPING => i ∈ m.ls.contents .sleepingList
  | .ZOMBIE => i ∈ m.ls.contents .zombieList
  | .RUNNABLE => ∃ t, i ∈ m.ls.contents (.runnable t)
  | .USED => m.Off i
  | .RUNNING => m.Off i

def Away (i : Slot) : Prop := ∀ c, m.cur c ≠ some i

def InCall (c : Cpu) : Option ListCall → Prop
  | none => m.ls.frame c = none
  | some call => (∃ g, m.ls.frame c = some g ∧ g.call = call) ∨
      (m.ls.frame c = none ∧ call.Post m.ls.contents)

/-- What a frame of CPU `c` knows about the slot that it has locked. -/
structure HoldOk (c : Cpu) (h : Hold) : Prop where
  state : ∀ st, h.state = some st → (m.pcb h.slot).state = st
  home : h.place = .home → m.Home h.slot
  sleeping : h.place = .sleeping → h.slot ∈ m.ls.contents .sleepingList
  runnable : h.place = .runnable → h.slot ∈ m.ls.contents (.runnable c)
  away : h.mine = false → h.state ≠ none → m.Away h.slot

/-- What the innermost frame of the thread on CPU `c` knows. -/
structure TopOk (c : Cpu) (f : Frame) : Prop where
  call : m.InCall c (f.call c (m.cur c))
  hold : ∀ h, f.hold (m.cur c) = some h → m.HoldOk c h
  runs : ∀ p, m.cur c = some p → (∀ h, f.hold (m.cur c) = some h → h.mine = false) →
    (m.pcb p).state = .RUNNING ∧ m.Off p

structure Parked (i : Slot) : Prop where
  shape : Shape (some i) (m.stack i)
  held : heldBy (some i) (m.stack i) = [.proc i]
  top : ∃ f rest, m.stack i = f :: rest ∧ f.Resumable

/-- A fork of `p` has reserved the slot. -/
def Reserves (p np : Slot) : Prop := ∃ f ∈ m.stack p, f.reserves = some np

structure Inv : Prop where
  lists : ListInv m.ls
  owners : ∀ c k, m.owner k = some c ↔ k ∈ m.held c
  nodup : ∀ c, (m.held c).Nodup
  shape : ∀ c, Shape (m.cur c) (m.frames c)
  top : ∀ c, ∃ f rest, m.frames c = f :: rest ∧ m.TopOk c f
  rest : ∀ i, m.owner (.proc i) = none → m.Home i
  alone : ∀ c c' i, m.cur c = some i → m.cur c' = some i → c = c'
  back : ∀ c p, m.cur c = some p → m.sched c = [.schedBack p]
  cpu : ∀ c f, (m.sched c).getLast? = some f → m.cpuProc c = f.running
  parked : ∀ i, m.Away i → (m.pcb i).state.Waits → m.Parked i
  reserved : ∀ p np, m.Reserves p np → (m.pcb np).state = .USED
  once : ∀ p q np, m.Reserves p np → m.Reserves q np → p = q

variable {m} {m' : Machine} {c c' : Cpu} {f : Frame} {rest : List Frame} {i p : Slot} {h : Hold}

theorem hold_mem_held (top : m.frames c = f :: rest) (holds : f.hold (m.cur c) = some h) :
    .proc h.slot ∈ m.held c := by
  rw [held, top, heldBy, Frame.own, holds]
  simp

theorem Inv.owner_of_hold (inv : m.Inv) (top : m.frames c = f :: rest)
    (holds : f.hold (m.cur c) = some h) : m.owner (.proc h.slot) = some c :=
  (inv.owners c _).mpr (hold_mem_held top holds)

theorem Inv.topOk (inv : m.Inv) (top : m.frames c = f :: rest) : m.TopOk c f := by
  obtain ⟨f', rest', shape, ok⟩ := inv.top c
  rw [top] at shape
  cases shape
  exact ok

/-- A slot in another state than `RUNNING` whose lock no other CPU holds is not executed elsewhere. -/
theorem Inv.away_of_state (inv : m.Inv) (apart : m.cur c ≠ some i)
    (owned : m.owner (.proc i) = none ∨ m.owner (.proc i) = some c)
    (state : (m.pcb i).state ≠ .RUNNING) : m.Away i := by
  intro c' here
  obtain ⟨f, rest, top, ok⟩ := inv.top c'
  refine state (ok.runs i here fun h holds => ?_).1
  by_contra other
  have same := Frame.hold_mine holds (Bool.eq_true_of_not_eq_false other)
  rw [here] at same
  have mine := inv.owner_of_hold top holds
  rw [← Option.some.inj same] at mine
  rcases owned with free | owned
  · rw [free] at mine
    cases mine
  · rw [owned] at mine
    cases mine
    exact apart here

/-- Nothing that CPU `c'` knows about changes. -/
structure Quiet (m m' : Machine) (c' : Cpu) : Prop where
  frames : m'.frames c' = m.frames c'
  cur : m'.cur c' = m.cur c'
  call : m'.ls.frame c' = m.ls.frame c'
  state : ∀ i, m.owner (.proc i) = some c' ∨ m.cur c' = some i →
    (m'.pcb i).state = (m.pcb i).state
  listed : ∀ i, m.owner (.proc i) = some c' ∨ m.cur c' = some i →
    ∀ l, i ∈ m'.ls.contents l ↔ i ∈ m.ls.contents l
  away : ∀ i, m.owner (.proc i) = some c' → m.Away i → m'.Away i

theorem home_congr (state : (m'.pcb i).state = (m.pcb i).state)
    (listed : ∀ l, i ∈ m'.ls.contents l ↔ i ∈ m.ls.contents l) : m'.Home i ↔ m.Home i := by
  simp only [Home, Off, state, listed]

theorem Quiet.topOk (quiet : Quiet m m' c') (inv : m.Inv) (top : m.frames c' = f :: rest)
    (ok : m.TopOk c' f) : m'.TopOk c' f := by
  constructor
  · rw [quiet.cur]
    have before := ok.call
    cases calls : f.call c' (m.cur c') with
    | none =>
      rw [calls] at before
      exact quiet.call.trans before
    | some call =>
      rw [calls] at before
      rcases before with ⟨g, there, same⟩ | ⟨idle, post⟩
      · exact .inl ⟨g, quiet.call.trans there, same⟩
      · refine .inr ⟨quiet.call.trans idle, ?_⟩
        have mine : ∀ i, call.index = some i → ∀ l, i ∈ m'.ls.contents l ↔ i ∈ m.ls.contents l := by
          intro i concerns
          obtain ⟨h, holds, same, _⟩ := Frame.hold_of_call calls concerns
          exact quiet.listed i (.inl (same ▸ inv.owner_of_hold top holds))
        cases call with
        | add l i => exact (mine i rfl l).mpr post
        | remove l i => exact fun l' listed => post l' ((mine i rfl l').mp listed)
        | pick l => trivial
  · intro h holds
    rw [quiet.cur] at holds
    have owned := inv.owner_of_hold top holds
    have known := ok.hold h holds
    have listed := quiet.listed h.slot (.inl owned)
    have state := quiet.state h.slot (.inl owned)
    constructor
    · exact fun st same => state.trans (known.state st same)
    · exact fun home => (home_congr state listed).mpr (known.home home)
    · exact fun place => (listed _).mpr (known.sleeping place)
    · exact fun place => (listed _).mpr (known.runnable place)
    · exact fun other state => quiet.away _ owned (known.away other state)
  · intro p here apart
    rw [quiet.cur] at here apart
    obtain ⟨state, off⟩ := ok.runs p here apart
    refine ⟨(quiet.state p (.inr here)).trans state, fun l listed => ?_⟩
    exact off l ((quiet.listed p (.inr here) l).mp listed)

end Machine

end OsbKernel
