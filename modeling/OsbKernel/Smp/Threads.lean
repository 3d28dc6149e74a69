import OsbKernel.Smp.Acts

/-!
# What a step changes

A step of a CPU changes the thread that it executes, may start the thread of a new process, and
writes fields of at most one slot. `Change` lists the writes of protected fields with the state in
which they find the slot.
-/

namespace OsbKernel

open Function
open scoped List

/-- The kernel thread of a process, or the scheduler thread of a CPU. -/
abbrev Thread := Slot ⊕ Cpu

def Thread.self : Thread → Option Slot
  | .inl p => some p
  | .inr _ => none

namespace Machine

def thread (m : Machine) : Thread → List Frame
  | .inl p => m.stack p
  | .inr c => m.sched c

def running (m : Machine) (c : Cpu) : Thread :=
  match m.cur c with
  | some p => .inl p
  | none => .inr c

variable {blncflg : Bool} {m m' : Machine} {c c' : Cpu} {f : Frame} {rest : List Frame} {d : Delta}
  {owner : KLock → Option Cpu} {i p : Slot} {t : Thread}

theorem frames_eq (m : Machine) (c : Cpu) : m.frames c = m.thread (m.running c) := by
  rw [frames, running]
  cases m.cur c <;> rfl

theorem running_self (m : Machine) (c : Cpu) : (m.running c).self = m.cur c := by
  rw [running]
  cases m.cur c <;> rfl

theorem Fits.thread_self (fits : Fits m c d owner) :
    (m.apply c d owner).thread (m.running c) = d.frames := by
  have same : (m.apply c d owner).running c = m.running c := by
    rw [running, running, apply_cur]
  rw [← same, ← frames_eq]
  exact fits.frames_self

theorem apply_thread_other (d : Delta) (owner : KLock → Option Cpu) (other : t ≠ m.running c) :
    (m.apply c d owner).thread t = m.thread t ∨
      ((m.apply c d owner).thread t = [.forkret] ∧ ∃ i, t = .inl i ∧ d.spawn = some i) := by
  cases t with
  | inl i =>
    by_cases spawned : d.spawn = some i
    · exact .inr ⟨stack_apply_spawn spawned, i, rfl, spawned⟩
    · refine .inl (stack_apply_of_ne ?_ spawned)
      intro here
      rw [running, here] at other
      exact other rfl
  | inr e =>
    left
    change (m.apply c d owner).sched e = m.sched e
    rw [apply_sched]
    cases here : m.cur c with
    | some p => rfl
    | none =>
      refine update_of_ne ?_ _ _
      rintro rfl
      rw [running, here] at other
      exact other rfl

theorem Fits.mem_thread (fits : Fits m c d owner) (member : f ∈ (m.apply c d owner).thread t) :
    (t = m.running c ∧ f ∈ d.frames) ∨ (t ≠ m.running c ∧ f ∈ m.thread t) ∨ f = .forkret := by
  by_cases self : t = m.running c
  · subst self
    rw [fits.thread_self] at member
    exact .inl ⟨rfl, member⟩
  · rcases apply_thread_other d owner self with same | ⟨started, _⟩
    · rw [same] at member
      exact .inr (.inl ⟨self, member⟩)
    · rw [started] at member
      exact .inr (.inr (List.mem_singleton.mp member))

section Switch

variable {target : Option Slot} {events : List Event} {fs : List Frame}

@[simp] theorem swtch_ls : (m.swtch c target events fs).ls = m.ls := by
  simp only [swtch, setFrames]
  split <;> rfl

@[simp] theorem swtch_pcb : (m.swtch c target events fs).pcb = m.pcb := by
  simp only [swtch, setFrames]
  split <;> rfl

@[simp] theorem swtch_log : (m.swtch c target events fs).log = m.log ++ events := rfl

theorem swtch_thread_self : (m.swtch c target events fs).thread (m.running c) = fs := by
  rw [running]
  cases here : m.cur c with
  | none | some p => simp [thread, swtch, setFrames, here]

theorem swtch_thread_other (other : t ≠ m.running c) :
    (m.swtch c target events fs).thread t = m.thread t := by
  cases here : m.cur c with
  | none =>
    cases t with
    | inl i => simp [thread, swtch, setFrames, here]
    | inr e =>
      have apart : e ≠ c := by
        rintro rfl
        rw [running, here] at other
        exact other rfl
      simp [thread, swtch, setFrames, here, update_of_ne apart]
  | some p =>
    cases t with
    | inr e => simp [thread, swtch, setFrames, here]
    | inl i =>
      have apart : i ≠ p := by
        rintro rfl
        rw [running, here] at other
        exact other rfl
      simp [thread, swtch, setFrames, here, update_of_ne apart]

end Switch

inductive Change (m : Machine) (c : Cpu) (i : Slot) : Frame → Pcb → Prop where
  | same {f : Frame} {q : Pcb} (same : q.Same (m.pcb i)) : Change m c i f q
  | pid {pid : Int} (before : (m.pcb i).state = .UNUSED) :
      Change m c i (.forkPid i pid) { m.pcb i with pid := pid }
  | used (before : (m.pcb i).state = .UNUSED) :
      Change m c i (.forkRemove i) { m.pcb i with state := .USED }
  | ready {pid : Int} {q : Pcb} (before : (m.pcb i).state = .USED)
      (after : q.Same { m.pcb i with state := .RUNNABLE }) : Change m c i (.forkReady i pid) q
  | exits {status : Int} (here : m.cur c = some i) (before : (m.pcb i).state = .RUNNING) :
      Change m c i (.exitLock status) { m.pcb i with xstate := status, state := .ZOMBIE }
  | frees {pid status : Int} (before : (m.pcb i).state = .ZOMBIE) :
      Change m c i (.waitRemove i pid status) { m.pcb i with
        pid := 0, chan := .null, killed := false, xstate := 0, state := .UNUSED }
  | sleeps {chan : Chan} {lk : KLock} (here : m.cur c = some i)
      (before : (m.pcb i).state = .RUNNING) :
      Change m c i (.sleepSet chan lk) { m.pcb i with chan := chan, state := .SLEEPING }
  | resumes {lk : KLock} (here : m.cur c = some i) (before : (m.pcb i).state = .RUNNING) :
      Change m c i (.sleepResume lk) { m.pcb i with chan := .null }
  | yields (here : m.cur c = some i) (before : (m.pcb i).state = .RUNNING) :
      Change m c i .yieldStart { m.pcb i with state := .RUNNABLE }
  | wakes {n : Nat} {chan : Chan} {todo : List Slot} (before : (m.pcb i).state = .SLEEPING)
      (same : (m.pcb i).chan = chan) :
      Change m c i (.wakeLoop n chan (i :: todo)) { m.pcb i with state := .RUNNABLE }
  | kills (before : (m.pcb i).state = .SLEEPING) :
      Change m c i (.killRemove i) { m.pcb i with state := .RUNNABLE }
  | runs (before : (m.pcb i).state = .RUNNABLE) :
      Change m c i (.schedGot i) { m.pcb i with state := .RUNNING }

theorem placed_same {q : Pcb} {t : Cpu} : (placed blncflg q t).Same q := by
  rw [placed]
  split <;> exact ⟨rfl, rfl, rfl, rfl⟩

theorem Acts.change {q : Pcb} (inv : m.Inv) (top : m.frames c = f :: rest)
    (acts : Acts blncflg m c f rest d) (wrote : d.pcb = some (i, q)) : Change m c i f q := by
  have ok := inv.topOk top
  have runs : f.hold (m.cur c) = none → ∀ p, m.cur c = some p → (m.pcb p).state = .RUNNING :=
    fun free p here => (inv.runs top (by rw [free]; nofun) p here).1
  have known : ∀ {h st}, f.hold (m.cur c) = some h → h.state = some st →
      (m.pcb h.slot).state = st := fun holds same => (ok.hold _ holds).state _ same
  cases acts with
  | setcpu here | killSleeper here found asleep | killOther here found awake =>
    cases wrote
    exact .same ⟨rfl, rfl, rfl, rfl⟩
  | forkPid here =>
    cases wrote
    exact .pid (known rfl rfl)
  | forkRemove here =>
    cases wrote
    exact .used (known rfl rfl)
  | @forkReady p np pid rest t here target =>
    cases wrote
    refine .ready (inv.reserved p _ ⟨.forkReady i pid, ?_, rfl⟩) placed_same
    rw [stack_of_frames here top]
    exact List.mem_cons_self
  | exitLock here =>
    cases wrote
    exact .exits here (runs rfl _ here)
  | waitRemove here =>
    cases wrote
    exact .frees (known rfl rfl)
  | @sleepSet p chan lk rest here =>
    cases wrote
    have holds : Frame.hold (m.cur c) (.sleepSet chan lk) = some ⟨i, true, some .RUNNING, .sleeping⟩ := by
      rw [here]
      rfl
    exact .sleeps here (known holds rfl)
  | @sleepResume p lk rest here =>
    cases wrote
    have holds : Frame.hold (m.cur c) (.sleepResume lk) = some ⟨i, true, some .RUNNING, .home⟩ := by
      rw [here]
      rfl
    exact .resumes here (known holds rfl)
  | yieldStart here target =>
    cases wrote
    exact .yields here (runs rfl _ here)
  | killRemove here target =>
    cases wrote
    exact .kills (known rfl rfl)
  | schedGot here =>
    cases wrote
    exact .runs (known rfl rfl)
  | wakeSleeper other asleep same =>
    cases wrote
    exact .wakes asleep same
  | wakeRemove target =>
    cases wrote
    exact .same placed_same
  | _ => cases wrote

theorem Acts.pcb_cases (owner : KLock → Option Cpu) (inv : m.Inv) (top : m.frames c = f :: rest)
    (acts : Acts blncflg m c f rest d) (i : Slot) :
    (m.apply c d owner).pcb i = m.pcb i ∨ Change m c i f ((m.apply c d owner).pcb i) := by
  rw [apply_pcb]
  rcases setAt_cases m.pcb d.pcb i with ⟨q, wrote, now⟩ | now
  · rw [now]
    exact .inr (acts.change inv top wrote)
  · exact .inl now

theorem Inv.remover {g : ListFrame} (inv : m.Inv) (calling : m.ls.frame c = some g)
    (call : g.call = .remove (.runnable c') i) :
    c' = c ∧ m.cur c = none ∧ m.sched c = [.schedRemove i] := by
  obtain ⟨f, rest, top, _⟩ := inv.top c
  have calls := inv.calling top calling
  rw [call] at calls
  cases f <;> cases here : m.cur c <;> simp [Frame.call, here] at calls
  all_goals
    obtain ⟨rfl, rfl⟩ := calls
    obtain ⟨idle, bottom⟩ : m.cur c = none ∧ rest = [] := inv.sits top
  · refine ⟨rfl, rfl, ?_⟩
    rw [sched_of_frames here top, bottom]
  · rw [here] at idle
    cases idle

end Machine

end OsbKernel
