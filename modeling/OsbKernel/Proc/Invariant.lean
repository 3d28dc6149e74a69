import OsbKernel.Proc.Balance
import OsbKernel.Proc.Ops

/-!
# The process-table invariant

The invariant of the runs of `Reachable`. Slot by slot, it says on which list a slot in a given
state is, that its `cpuNum` is a CPU, and what a slot not in use still contains; for the whole
table, which process each CPU is running. The parameter `aff` switches on CPU affinity, which
holds only in some runs.
-/

namespace OsbKernel

open Function LinkedChain

def Placed (L : ListId → List Slot) (p : Slot) : ProcState → Prop
  | .UNUSED => p ∈ L .unusedList
  | .USED => ∀ l, p ∉ L l
  | .SLEEPING => p ∈ L .sleepingList
  | .RUNNABLE => ∃ c, p ∈ L (.runnable c)
  | .RUNNING => ∀ l, p ∉ L l
  | .ZOMBIE => p ∈ L .zombieList

theorem Placed.congr {L L' : ListId → List Slot} {p : Slot} {st : ProcState}
    (placed : Placed L p st) (same : ∀ l, p ∈ L' l ↔ p ∈ L l) : Placed L' p st := by
  cases st <;> simpa only [Placed, same] using placed

def ListId.state : ListId → ProcState
  | .unusedList => .UNUSED
  | .zombieList => .ZOMBIE
  | .sleepingList => .SLEEPING
  | .runnable _ => .RUNNABLE

/-- The fields that `freeproc` has reset in a free slot. -/
structure Clean (q : Proc) : Prop where
  chan : q.chan = .null
  xstate : q.xstate = 0
  parent : q.parent = none
  sz : q.sz = 0
  pagetable : q.pagetable = none
  trapframe : q.trapframe = none

/-- No open file and no directory, as `exit` leaves them. -/
def Closed (q : Proc) : Prop := q.ofile = (fun _ => none) ∧ q.cwd = none

structure Fits (aff : Prop) (L : ListId → List Slot) (p : Slot) (q : Proc) : Prop where
  placed : Placed L p q.state
  range : 0 ≤ q.cpuNum ∧ q.cpuNum < NCPU
  affinity : aff → ∀ c, p ∈ L (.runnable c) → q.cpuNum = c
  clean : q.state = .UNUSED → Clean q
  closed : q.state = .UNUSED ∨ q.state = .ZOMBIE → Closed q
  ready : q.state = .RUNNABLE ∨ q.state = .SLEEPING → q.context ≠ .inExit

/-- The invariant of the process table with its lists read as `L`. -/
structure Inv (aff : Prop) (s : Kernel) (L : ListId → List Slot) : Prop where
  reads : s.lists.Reads L
  slots : ∀ p, Fits aff L p (s.proc p)
  counters : ∃ n, s.procCount = onFirstCpu n
  running : ∀ {c p}, s.cpuProc c = some p → (s.proc p).state = .RUNNING
  alone : ∀ {c c' p}, s.cpuProc c = some p → s.cpuProc c' = some p → c = c'

variable {aff : Prop} {s s' : Kernel} {L L' : ListId → List Slot} {p : Slot} {q : Proc}

theorem Fits.congr (fits : Fits aff L p q) (same : ∀ l, p ∈ L' l ↔ p ∈ L l) :
    Fits aff L' p q where
  placed := fits.placed.congr same
  range := fits.range
  affinity respected c listed := fits.affinity respected c ((same _).mp listed)
  clean := fits.clean
  closed := fits.closed
  ready := fits.ready

theorem Fits.busy (off : ∀ l, p ∉ L l) (range : 0 ≤ q.cpuNum ∧ q.cpuNum < NCPU)
    (state : q.state = .USED ∨ q.state = .RUNNING) : Fits aff L p q where
  placed := by rcases state with h | h <;> rw [h] <;> exact off
  range := range
  affinity _ c listed := absurd listed (off _)
  clean h := by rcases state with h' | h' <;> rw [h] at h' <;> cases h'
  closed h := by rcases state with h' | h' <;> rw [h'] at h <;> rcases h with h | h <;> cases h
  ready h := by rcases state with h' | h' <;> rw [h'] at h <;> rcases h with h | h <;> cases h

variable {c : Cpu}

theorem Fits.runnable (listed : p ∈ L (.runnable c))
    (only : ∀ c', p ∈ L (.runnable c') → c' = c) (state : q.state = .RUNNABLE)
    (ready : q.context ≠ .inExit) (range : 0 ≤ q.cpuNum ∧ q.cpuNum < NCPU)
    (own : aff → q.cpuNum = c) : Fits aff L p q where
  placed := by rw [state]; exact ⟨c, listed⟩
  range := range
  affinity respected c' listed' := by rw [only c' listed']; exact own respected
  clean h := by rw [state] at h; cases h
  closed h := by rw [state] at h; rcases h with h | h <;> cases h
  ready _ := ready

namespace Inv

theorem slots_of_frame (inv : Inv aff s L) (others : ∀ x, x ≠ p → ∀ l, x ∈ L' l ↔ x ∈ L l)
    (frame : ∀ x, x ≠ p → s'.proc x = s.proc x) (fits : Fits aff L' p (s'.proc p)) (x : Slot) :
    Fits aff L' x (s'.proc x) := by
  by_cases same : x = p
  · subst same
    exact fits
  · rw [frame x same]
    exact (inv.slots x).congr (others x same)

theorem moveIdle (inv : Inv aff s L) (reads : s'.lists.Reads L')
    (others : ∀ x, x ≠ p → ∀ l, x ∈ L' l ↔ x ∈ L l)
    (frame : ∀ x, x ≠ p → s'.proc x = s.proc x) (fits : Fits aff L' p (s'.proc p))
    (counters : ∃ n, s'.procCount = onFirstCpu n) (cpus : s'.cpuProc = s.cpuProc)
    (idle : (s.proc p).state ≠ .RUNNING) : Inv aff s' L' where
  reads := reads
  slots := inv.slots_of_frame others frame fits
  counters := counters
  running {c x} runs := by
    rw [cpus] at runs
    have apart : x ≠ p := by
      rintro rfl
      exact idle (inv.running runs)
    rw [frame x apart]
    exact inv.running runs
  alone runs runs' := by
    rw [cpus] at runs runs'
    exact inv.alone runs runs'

theorem edit (inv : Inv aff s L) (frame : ∀ x, x ≠ p → s'.proc x = s.proc x)
    (lists : s'.lists = s.lists) (fits : Fits aff L p (s'.proc p))
    (state : (s'.proc p).state = (s.proc p).state)
    (counters : s'.procCount = s.procCount) (cpus : s'.cpuProc = s.cpuProc) : Inv aff s' L where
  reads := by rw [lists]; exact inv.reads
  slots := inv.slots_of_frame (fun _ _ _ => Iff.rfl) frame fits
  counters := by rw [counters]; exact inv.counters
  running {c x} runs := by
    rw [cpus] at runs
    by_cases same : x = p
    · subst same
      rw [state]
      exact inv.running runs
    · rw [frame x same]
      exact inv.running runs
  alone runs runs' := by
    rw [cpus] at runs runs'
    exact inv.alone runs runs'

theorem leave (inv : Inv aff s L) (runs : s.cpuProc c = some p)
    (reads : s'.lists.Reads L') (others : ∀ x, x ≠ p → ∀ l, x ∈ L' l ↔ x ∈ L l)
    (frame : ∀ x, x ≠ p → s'.proc x = s.proc x) (fits : Fits aff L' p (s'.proc p))
    (counters : s'.procCount = s.procCount) (cpus : s'.cpuProc = update s.cpuProc c none) :
    Inv aff s' L' where
  reads := reads
  slots := inv.slots_of_frame others frame fits
  counters := by rw [counters]; exact inv.counters
  running {c' x} runs' := by
    rw [cpus] at runs'
    by_cases same : c' = c
    · subst same
      rw [update_self] at runs'
      cases runs'
    · rw [update_of_ne same] at runs'
      have apart : x ≠ p := by
        rintro rfl
        exact same (inv.alone runs' runs)
      rw [frame x apart]
      exact inv.running runs'
  alone {c₁ c₂ x} runs₁ runs₂ := by
    rw [cpus] at runs₁ runs₂
    by_cases h₁ : c₁ = c
    · subst h₁
      rw [update_self] at runs₁
      cases runs₁
    · by_cases h₂ : c₂ = c
      · subst h₂
        rw [update_self] at runs₂
        cases runs₂
      · rw [update_of_ne h₁] at runs₁
        rw [update_of_ne h₂] at runs₂
        exact inv.alone runs₁ runs₂

theorem enter (inv : Inv aff s L) (idle : (s.proc p).state ≠ .RUNNING)
    (reads : s'.lists.Reads L') (others : ∀ x, x ≠ p → ∀ l, x ∈ L' l ↔ x ∈ L l)
    (frame : ∀ x, x ≠ p → s'.proc x = s.proc x) (fits : Fits aff L' p (s'.proc p))
    (state : (s'.proc p).state = .RUNNING) (counters : s'.procCount = s.procCount)
    (cpus : s'.cpuProc = update s.cpuProc c (some p)) : Inv aff s' L' where
  reads := reads
  slots := inv.slots_of_frame others frame fits
  counters := by rw [counters]; exact inv.counters
  running {c' x} runs := by
    by_cases same : x = p
    · subst same
      exact state
    · rw [cpus] at runs
      by_cases here : c' = c
      · subst here
        rw [update_self] at runs
        exact absurd (Option.some.inj runs).symm same
      · rw [update_of_ne here] at runs
        rw [frame x same]
        exact inv.running runs
  alone {c₁ c₂ x} runs₁ runs₂ := by
    rw [cpus] at runs₁ runs₂
    have elsewhere : ∀ {c'}, c' ≠ c → update s.cpuProc c (some p) c' = some x → x ≠ p := by
      rintro c' other runs rfl
      rw [update_of_ne other] at runs
      exact idle (inv.running runs)
    by_cases h₁ : c₁ = c <;> by_cases h₂ : c₂ = c
    · rw [h₁, h₂]
    · subst h₁
      rw [update_self] at runs₁
      exact absurd (Option.some.inj runs₁).symm (elsewhere h₂ runs₂)
    · subst h₂
      rw [update_self] at runs₂
      exact absurd (Option.some.inj runs₂).symm (elsewhere h₁ runs₁)
    · rw [update_of_ne h₁] at runs₁
      rw [update_of_ne h₂] at runs₂
      exact inv.alone runs₁ runs₂

theorem off_of_running (inv : Inv aff s L) (state : (s.proc p).state = .RUNNING) (l : ListId) :
    p ∉ L l := by
  have placed := (inv.slots p).placed
  rw [state] at placed
  exact placed l

theorem listed_sleeping (inv : Inv aff s L) (state : (s.proc p).state = .SLEEPING) :
    p ∈ L .sleepingList := by
  have placed := (inv.slots p).placed
  rw [state] at placed
  exact placed

theorem listed_zombie (inv : Inv aff s L) (state : (s.proc p).state = .ZOMBIE) :
    p ∈ L .zombieList := by
  have placed := (inv.slots p).placed
  rw [state] at placed
  exact placed

theorem state_of_listed (inv : Inv aff s L) {l : ListId} (listed : p ∈ L l) :
    (s.proc p).state = l.state := by
  have placed := (inv.slots p).placed
  cases state : (s.proc p).state with
  | UNUSED | SLEEPING | ZOMBIE =>
    rw [state] at placed
    rw [Family.disjoint inv.reads listed placed, ListId.state]
  | USED | RUNNING =>
    rw [state] at placed
    exact absurd listed (placed l)
  | RUNNABLE =>
    rw [state] at placed
    obtain ⟨c, there⟩ := placed
    rw [Family.disjoint inv.reads listed there, ListId.state]

end Inv

end OsbKernel
