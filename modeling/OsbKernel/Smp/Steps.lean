import OsbKernel.Smp.Invariant

/-!
# What a step must show to keep the invariant

A step of a CPU writes its own thread, at most one lock, and fields of at most one slot. `Fits`
collects what is to be shown about those; the rest of the invariant follows, because no other CPU
knows anything about what has been written.
-/

namespace OsbKernel

open Function
open scoped List

def KOp.Moves (before after : List KLock) : KOp → Prop
  | .skip => after.Perm before
  | .acquire k => after.Perm (k :: before)
  | .release k => before.Perm (k :: after)

/-- The fields that `p->lock` protects agree. -/
def Pcb.Same (q q' : Pcb) : Prop :=
  q.state = q'.state ∧ q.chan = q'.chan ∧ q.pid = q'.pid ∧ q.xstate = q'.xstate

namespace Machine

variable {m : Machine} {c c' : Cpu} {f : Frame} {rest : List Frame} {d : Delta}
  {owner : KLock → Option Cpu} {i p np : Slot}

section Fields

variable (m c d owner)

@[simp] theorem apply_owner : (m.apply c d owner).owner = owner := rfl

@[simp] theorem apply_pcb : (m.apply c d owner).pcb = setAt m.pcb d.pcb := rfl

@[simp] theorem apply_parent : (m.apply c d owner).parent = setAt m.parent d.parent := rfl

@[simp] theorem apply_log : (m.apply c d owner).log = m.log ++ d.events := rfl

@[simp] theorem apply_nextpid : (m.apply c d owner).nextpid = d.nextpid.getD m.nextpid := rfl

@[simp] theorem apply_cur : (m.apply c d owner).cur = m.cur := by
  simp only [apply, setFrames]
  split <;> rfl

@[simp] theorem apply_contents : (m.apply c d owner).ls.contents = m.ls.contents := by
  simp only [apply]
  split <;> rfl

theorem apply_ls : (m.apply c d owner).ls =
    match d.call with
    | some call => m.ls.enter c call
    | none => m.ls := rfl

theorem apply_call_self : (m.apply c d owner).ls.frame c =
    match d.call with
    | some call => some (.start call)
    | none => m.ls.frame c := by
  rw [apply_ls]
  cases d.call with
  | none => rfl
  | some call => exact update_self _ _ _

theorem apply_sched : (m.apply c d owner).sched =
    match m.cur c with
    | some _ => m.sched
    | none => update m.sched c d.frames := by
  simp only [apply, setFrames]
  cases m.cur c <;> rfl

theorem apply_stack : (m.apply c d owner).stack =
    setAt (match m.cur c with
      | some p => update m.stack p d.frames
      | none => m.stack) (d.spawn.map (·, [.forkret])) := by
  simp only [apply, setFrames]
  cases m.cur c <;> rfl

theorem apply_cpuProc : (m.apply c d owner).cpuProc =
    setAt m.cpuProc (d.cpuProc.map (c, ·)) := rfl

end Fields

theorem apply_call_other (other : c' ≠ c) :
    (m.apply c d owner).ls.frame c' = m.ls.frame c' := by
  rw [apply_ls]
  cases d.call with
  | none => rfl
  | some call => exact update_of_ne other _ _

theorem setAt_of_ne {α β : Type} [DecidableEq α] {g : α → β} {a : α} {o : Option (α × β)}
    (apart : ∀ b, o ≠ some (a, b)) : setAt g o a = g a := by
  cases o with
  | none => rfl
  | some entry =>
    obtain ⟨a', b⟩ := entry
    refine update_of_ne ?_ _ _
    rintro rfl
    exact apart b rfl

theorem setAt_cases {α β : Type} [DecidableEq α] (g : α → β) (o : Option (α × β)) (a : α) :
    (∃ b, o = some (a, b) ∧ setAt g o a = b) ∨ setAt g o a = g a := by
  by_cases wrote : ∃ b, o = some (a, b)
  · obtain ⟨b, rfl⟩ := wrote
    exact .inl ⟨b, rfl, update_self ..⟩
  · exact .inr (setAt_of_ne fun b found => wrote ⟨b, found⟩)

theorem apply_frames_self (spawns : d.spawn = none ∨ ∃ i, d.spawn = some i ∧ m.cur c ≠ some i) :
    (m.apply c d owner).frames c = d.frames := by
  rw [frames, apply_cur, apply_stack, apply_sched]
  cases here : m.cur c with
  | none => exact update_self _ _ _
  | some p =>
    simp only
    rw [setAt_of_ne, update_self]
    intro fs spawned
    rcases spawns with none | ⟨i, found, apart⟩
    · simp [none] at spawned
    · simp only [found, Option.map_some, Option.some.injEq, Prod.mk.injEq] at spawned
      rw [here, spawned.1] at apart
      exact apart rfl

theorem apply_frames_other (other : c' ≠ c) (alone : ∀ i, m.cur c = some i → m.cur c' ≠ some i)
    (spawns : ∀ i, d.spawn = some i → m.cur c' ≠ some i) :
    (m.apply c d owner).frames c' = m.frames c' := by
  rw [frames, frames, apply_cur, apply_stack, apply_sched]
  cases there : m.cur c' with
  | none =>
    cases m.cur c with
    | none => exact update_of_ne other _ _
    | some p => rfl
  | some p' =>
    simp only
    rw [setAt_of_ne]
    · cases here : m.cur c with
      | none => rfl
      | some p =>
        refine update_of_ne ?_ _ _
        rintro rfl
        exact alone p' here there
    · intro fs spawned
      obtain ⟨i, found, same⟩ := Option.map_eq_some_iff.mp spawned
      cases same
      exact spawns p' found there

theorem Inv.owners_after {op : KOp} (inv : m.Inv) (held' : Cpu → List KLock)
    (locked : m.lockAfter c op = some owner) (self : op.Moves (m.held c) (held' c))
    (others : ∀ c', c' ≠ c → held' c' = m.held c') :
    (∀ c' k, owner k = some c' ↔ k ∈ held' c') ∧ ∀ c', (held' c').Nodup := by
  cases op with
  | skip =>
    cases locked
    refine ⟨fun c' k => ?_, fun c' => ?_⟩
    · by_cases same : c' = c
      · subst same
        rw [inv.owners, List.Perm.mem_iff self]
      · rw [inv.owners, others c' same]
    · by_cases same : c' = c
      · subst same
        exact (List.Perm.nodup_iff self).mpr (inv.nodup c')
      · rw [others c' same]
        exact inv.nodup c'
  | acquire k =>
    have free : m.owner k = none := by
      by_contra taken
      simp [lockAfter, taken] at locked
    simp only [lockAfter, free, if_true, Option.some.injEq] at locked
    subst locked
    have fresh : ∀ c', k ∉ m.held c' := by
      intro c' member
      rw [(inv.owners c' k).mpr member] at free
      cases free
    refine ⟨fun c' k' => ?_, fun c' => ?_⟩
    · by_cases same : c' = c
      · subst same
        rw [List.Perm.mem_iff self, List.mem_cons]
        by_cases this : k' = k
        · subst this
          simp
        · rw [update_of_ne this, inv.owners]
          simp [this]
      · rw [others c' same]
        by_cases this : k' = k
        · subst this
          simp [fresh c', Ne.symm same]
        · rw [update_of_ne this, inv.owners]
    · by_cases same : c' = c
      · subst same
        exact (List.Perm.nodup_iff self).mpr (List.nodup_cons.mpr ⟨fresh c', inv.nodup c'⟩)
      · rw [others c' same]
        exact inv.nodup c'
  | release k =>
    have owned : m.owner k = some c := by
      by_contra other
      simp [lockAfter, other] at locked
    simp only [lockAfter, owned, if_true, Option.some.injEq] at locked
    subst locked
    have distinct := (List.Perm.nodup_iff self).mp (inv.nodup c)
    obtain ⟨gone, distinct'⟩ := List.nodup_cons.mp distinct
    refine ⟨fun c' k' => ?_, fun c' => ?_⟩
    · by_cases same : c' = c
      · subst same
        by_cases this : k' = k
        · subst this
          simp [gone]
        · rw [update_of_ne this, inv.owners, List.Perm.mem_iff self, List.mem_cons]
          simp [this]
      · rw [others c' same]
        by_cases this : k' = k
        · subst this
          rw [update_self]
          refine ⟨nofun, fun member => ?_⟩
          rw [(inv.owners c' k').mpr member] at owned
          exact absurd (Option.some.inj owned) same
        · rw [update_of_ne this, inv.owners]
    · by_cases same : c' = c
      · subst same
        exact distinct'
      · rw [others c' same]
        exact inv.nodup c'

variable {k : KLock} {g : ListFrame} {events : List Event} {fs : List Frame}

theorem lockAfter_acquire (locked : m.lockAfter c (.acquire k) = some owner) :
    m.owner k = none ∧ owner = update m.owner k (some c) := by
  by_cases free : m.owner k = none
  · simp only [lockAfter, free, if_true, Option.some.injEq] at locked
    exact ⟨free, locked.symm⟩
  · simp [lockAfter, free] at locked

theorem lockAfter_release (locked : m.lockAfter c (.release k) = some owner) :
    m.owner k = some c ∧ owner = update m.owner k none := by
  by_cases owned : m.owner k = some c
  · simp only [lockAfter, owned, if_true, Option.some.injEq] at locked
    exact ⟨owned, locked.symm⟩
  · simp [lockAfter, owned] at locked

theorem lockAfter_free {op : KOp} (locked : m.lockAfter c op = some owner)
    (free : owner k = none) : m.owner k = none ∨ op = .release k := by
  cases op with
  | skip =>
    cases locked
    exact .inl free
  | acquire k' =>
    obtain ⟨_, rfl⟩ := lockAfter_acquire locked
    by_cases same : k = k'
    · subst same
      simp at free
    · rw [update_of_ne same] at free
      exact .inl free
  | release k' =>
    obtain ⟨_, rfl⟩ := lockAfter_release locked
    by_cases same : k = k'
    · exact .inr (by rw [same])
    · rw [update_of_ne same] at free
      exact .inl free

/-- What is to be shown about a step of CPU `c` that writes `d`. -/
structure Fits (m : Machine) (c : Cpu) (d : Delta) (owner : KLock → Option Cpu) : Prop where
  shape : Shape (m.cur c) d.frames
  moves : d.op.Moves (m.held c) (heldBy (m.cur c) d.frames)
  top : ∃ f rest, d.frames = f :: rest ∧ (m.apply c d owner).TopOk c f
  calls : ∀ call, d.call = some call → m.ls.frame c = none ∧ m.ls.Admissible call
  writes : ∀ i q, d.pcb = some (i, q) → q.Same (m.pcb i) ∨
    ((m.owner (.proc i) = some c ∨ d.op = .acquire (.proc i)) ∧ (m.cur c = some i ∨ m.Away i))
  released : ∀ i, d.op = .release (.proc i) → (m.apply c d owner).Home i
  wakes : ∀ i q, d.pcb = some (i, q) → m.Away i → q.state.Waits →
    (m.pcb i).state.Waits ∨ d.spawn = some i
  spawns : ∀ i, d.spawn = some i → m.Away i
  used : ∀ i q, d.pcb = some (i, q) → (m.pcb i).state = .USED → q.state = .USED ∨
    ∃ p, m.cur c = some p ∧ m.Reserves p i ∧ ∀ g ∈ d.frames, g.reserves ≠ some i
  reserves : ∀ p np, m.cur c = some p → (∃ g ∈ d.frames, g.reserves = some np) →
    m.Reserves p np ∨ ∃ q, d.pcb = some (np, q) ∧ q.state = .USED ∧ (m.pcb np).state ≠ .USED
  cpu : match m.cur c with
    | none => ∀ b, d.frames.getLast? = some b → d.cpuProc.getD (m.cpuProc c) = b.running
    | some _ => d.cpuProc = none

theorem Fits.mine (fits : Fits m c d owner) (locked : m.lockAfter c d.op = some owner) {q : Pcb}
    (wrote : d.pcb = some (i, q)) (changed : ¬ q.Same (m.pcb i)) :
    (m.owner (.proc i) = none ∨ m.owner (.proc i) = some c) ∧ (m.cur c = some i ∨ m.Away i) := by
  obtain ⟨lock, place⟩ := (fits.writes i q wrote).resolve_left changed
  refine ⟨?_, place⟩
  rcases lock with owned | acquires
  · exact .inr owned
  · rw [acquires] at locked
    exact .inl (lockAfter_acquire locked).1

theorem Fits.same (fits : Fits m c d owner) (locked : m.lockAfter c d.op = some owner)
    (apart : (m.owner (.proc i) ≠ none ∧ m.owner (.proc i) ≠ some c) ∨
      (m.cur c ≠ some i ∧ ¬ m.Away i)) : ((m.apply c d owner).pcb i).Same (m.pcb i) := by
  rw [apply_pcb]
  rcases setAt_cases m.pcb d.pcb i with ⟨q, wrote, now⟩ | now
  · rw [now]
    by_contra changed
    obtain ⟨lock, place⟩ := fits.mine locked wrote changed
    rcases apart with ⟨taken, other⟩ | ⟨elsewhere, runs⟩
    · exact lock.elim taken other
    · exact place.elim elsewhere runs
  · rw [now]
    exact ⟨rfl, rfl, rfl, rfl⟩

theorem Fits.frames_self (fits : Fits m c d owner) : (m.apply c d owner).frames c = d.frames := by
  apply apply_frames_self
  cases spawned : d.spawn with
  | none => exact .inl rfl
  | some i => exact .inr ⟨i, rfl, fits.spawns i spawned c⟩

theorem Fits.quiet (fits : Fits m c d owner) (inv : m.Inv)
    (locked : m.lockAfter c d.op = some owner) (other : c' ≠ c) :
    Quiet m (m.apply c d owner) c' := by
  have alone : ∀ i, m.cur c = some i → m.cur c' ≠ some i :=
    fun i here there => other (inv.alone c' c i there here)
  have same : ∀ i, m.owner (.proc i) = some c' ∨ m.cur c' = some i →
      ((m.apply c d owner).pcb i).Same (m.pcb i) := by
    intro i sees
    apply fits.same locked
    rcases sees with owned | runs
    · rw [owned]
      exact .inl ⟨nofun, fun eq => other (Option.some.inj eq)⟩
    · exact .inr ⟨fun here => alone i here runs, fun away => away c' runs⟩
  constructor
  · exact apply_frames_other other alone fun i spawned => fits.spawns i spawned c'
  · rw [apply_cur]
  · exact apply_call_other other
  · exact fun i sees => (same i sees).1
  · intro i _ l
    rw [apply_contents]
  · intro i _ away
    exact fun c'' => by rw [apply_cur]; exact away c''

theorem away_apply : (m.apply c d owner).Away i ↔ m.Away i := by
  simp only [Away, apply_cur]

theorem stack_apply_of_ne (self : m.cur c ≠ some i) (spawned : d.spawn ≠ some i) :
    (m.apply c d owner).stack i = m.stack i := by
  rw [apply_stack, setAt_of_ne]
  · cases here : m.cur c with
    | none => rfl
    | some p =>
      refine update_of_ne ?_ _ _
      rintro rfl
      exact self here
  · intro fs found
    obtain ⟨j, this, same⟩ := Option.map_eq_some_iff.mp found
    cases same
    exact spawned this

theorem stack_apply_spawn (spawned : d.spawn = some i) :
    (m.apply c d owner).stack i = [.forkret] := by
  rw [apply_stack, spawned]
  exact update_self _ _ _

theorem stack_apply_self (here : m.cur c = some p) (spawned : d.spawn ≠ some p) :
    (m.apply c d owner).stack p = d.frames := by
  rw [apply_stack, setAt_of_ne]
  · rw [here]
    exact update_self _ _ _
  · intro fs found
    obtain ⟨j, this, same⟩ := Option.map_eq_some_iff.mp found
    cases same
    exact spawned this

theorem parked_forkret (fresh : m.stack i = [.forkret]) : m.Parked i where
  shape := by
    rw [fresh]
    exact ⟨rfl, nofun, trivial⟩
  held := by
    rw [fresh]
    rfl
  top := ⟨.forkret, [], fresh, trivial⟩

theorem Parked.congr {m' : Machine} (parked : m.Parked i) (same : m'.stack i = m.stack i) :
    m'.Parked i where
  shape := by rw [same]; exact parked.shape
  held := by rw [same]; exact parked.held
  top := by rw [same]; exact parked.top

theorem Fits.reserves_cases (fits : Fits m c d owner)
    (reserves : (m.apply c d owner).Reserves p np) :
    (m.Reserves p np ∧ ∀ q, d.pcb = some (np, q) → (m.pcb np).state = .USED → q.state = .USED ∨
      m.cur c ≠ some p) ∨
    (m.cur c = some p ∧ ∃ q, d.pcb = some (np, q) ∧ q.state = .USED ∧ (m.pcb np).state ≠ .USED) := by
  obtain ⟨g, member, found⟩ := reserves
  by_cases spawned : d.spawn = some p
  · rw [stack_apply_spawn spawned, List.mem_singleton] at member
    subst member
    cases found
  by_cases here : m.cur c = some p
  · rw [stack_apply_self here spawned] at member
    rcases fits.reserves p np here ⟨g, member, found⟩ with before | now
    · refine .inl ⟨before, fun q wrote used => ?_⟩
      rcases fits.used np q wrote used with kept | ⟨p', here', _, dropped⟩
      · exact .inl kept
      · exact absurd found (dropped g member)
    · exact .inr ⟨here, now⟩
  · rw [stack_apply_of_ne here spawned] at member
    exact .inl ⟨⟨g, member, found⟩, fun _ _ _ => .inr here⟩

theorem Quiet.held {m' : Machine} (quiet : Quiet m m' c') : m'.held c' = m.held c' := by
  rw [Machine.held, Machine.held, quiet.frames, quiet.cur]

theorem Inv.tops {m' : Machine} (inv : m.Inv) (quiet : ∀ c', c' ≠ c → Quiet m m' c')
    (shape : Shape (m'.cur c) (m'.frames c))
    (top : ∃ f rest, m'.frames c = f :: rest ∧ m'.TopOk c f) :
    (∀ c', Shape (m'.cur c') (m'.frames c')) ∧
      ∀ c', ∃ f rest, m'.frames c' = f :: rest ∧ m'.TopOk c' f := by
  refine ⟨fun c' => ?_, fun c' => ?_⟩ <;> by_cases self : c' = c
  · exact self ▸ shape
  · rw [(quiet c' self).frames, (quiet c' self).cur]
    exact inv.shape c'
  · exact self ▸ top
  · obtain ⟨f, rest, before, ok⟩ := inv.top c'
    exact ⟨f, rest, (quiet c' self).frames.trans before, (quiet c' self).topOk inv before ok⟩

theorem Inv.sameLocks {m' : Machine} (inv : m.Inv) (quiet : ∀ c', c' ≠ c → Quiet m m' c')
    (owner : m'.owner = m.owner) (self : m'.held c = m.held c) :
    (∀ c' k, m'.owner k = some c' ↔ k ∈ m'.held c') ∧ ∀ c', (m'.held c').Nodup := by
  have same : ∀ c', m'.held c' = m.held c' := by
    intro c'
    by_cases here : c' = c
    · rw [here, self]
    · exact (quiet c' here).held
  refine ⟨fun c' k => ?_, fun c' => ?_⟩
  · rw [same, owner]
    exact inv.owners c' k
  · rw [same]
    exact inv.nodup c'

theorem Fits.homes (fits : Fits m c d owner) (inv : m.Inv) (locked : m.lockAfter c d.op = some owner)
    (free : owner (.proc i) = none) : (m.apply c d owner).Home i := by
  rcases lockAfter_free locked free with before | released
  · have same : ((m.apply c d owner).pcb i).state = (m.pcb i).state := by
      rw [apply_pcb]
      rcases setAt_cases m.pcb d.pcb i with ⟨q, wrote, now⟩ | now
      · rw [now]
        rcases fits.writes i q wrote with same | ⟨owned | acquires, _⟩
        · exact same.1
        · rw [before] at owned
          cases owned
        · rw [acquires] at locked
          obtain ⟨_, rfl⟩ := lockAfter_acquire locked
          simp at free
      · rw [now]
    refine (home_congr same fun l => ?_).mpr (inv.rest i before)
    rw [apply_contents]
  · exact fits.released i released

theorem Fits.cpus (fits : Fits m c d owner) (inv : m.Inv) {b : Frame}
    (last : ((m.apply c d owner).sched c').getLast? = some b) :
    (m.apply c d owner).cpuProc c' = b.running := by
  have keeps := fits.cpu
  rw [apply_sched] at last
  rw [apply_cpuProc]
  cases here : m.cur c with
  | some p =>
    rw [here] at last keeps
    rw [keeps]
    exact inv.cpu c' b last
  | none =>
    rw [here] at last keeps
    by_cases self : c' = c
    · subst self
      simp only [update_self] at last
      rw [← keeps b last]
      cases d.cpuProc with
      | none => rfl
      | some v => exact update_self _ _ _
    · simp only [update_of_ne self] at last
      rw [← inv.cpu c' b last, setAt_of_ne]
      intro v found
      obtain ⟨w, _, same⟩ := Option.map_eq_some_iff.mp found
      cases same
      exact self rfl

theorem Fits.parks (fits : Fits m c d owner) (inv : m.Inv) (away : m.Away i)
    (waits : ((m.apply c d owner).pcb i).state.Waits) : (m.apply c d owner).Parked i := by
  by_cases spawned : d.spawn = some i
  · exact parked_forkret (stack_apply_spawn spawned)
  · have waits' : (m.pcb i).state.Waits := by
      rw [apply_pcb] at waits
      rcases setAt_cases m.pcb d.pcb i with ⟨q, wrote, now⟩ | now
      · rw [now] at waits
        exact (fits.wakes i q wrote away waits).resolve_right spawned
      · rwa [now] at waits
    exact (inv.parked i away waits').congr (stack_apply_of_ne (away c) spawned)

theorem Fits.usedSlots (fits : Fits m c d owner) (inv : m.Inv) {p np : Slot}
    (reserves : (m.apply c d owner).Reserves p np) : ((m.apply c d owner).pcb np).state = .USED := by
  rw [apply_pcb]
  rcases fits.reserves_cases reserves with ⟨before, kept⟩ | ⟨_, q, wrote, used, _⟩
  · have used := inv.reserved p np before
    rcases setAt_cases m.pcb d.pcb np with ⟨q, wrote, now⟩ | now
    · rw [now]
      rcases kept q wrote used with now | other
      · exact now
      · rcases fits.used np q wrote used with now | ⟨p', here, mine, _⟩
        · exact now
        · rw [inv.once p p' np before mine] at other
          exact absurd here other
    · rw [now]
      exact used
  · rw [wrote]
    simp only [setAt, update_self]
    exact used

theorem Inv.apply (inv : m.Inv) (locked : m.lockAfter c d.op = some owner)
    (fits : Fits m c d owner) : (m.apply c d owner).Inv := by
  have frames := fits.frames_self
  have quiet : ∀ c', c' ≠ c → Quiet m (m.apply c d owner) c' := fun _ => fits.quiet inv locked
  have moves : d.op.Moves (m.held c) ((m.apply c d owner).held c) := by
    rw [held, held, frames, apply_cur]
    exact fits.moves
  obtain ⟨owners, nodup⟩ := inv.owners_after (m.apply c d owner).held locked moves
    fun c' other => (quiet c' other).held
  obtain ⟨shape, top⟩ := inv.tops quiet (by rw [frames, apply_cur]; exact fits.shape)
    (by rw [frames]; exact fits.top)
  constructor
  case lists =>
    rw [apply_ls]
    cases calls : d.call with
    | none => exact inv.lists
    | some call =>
      obtain ⟨idle, admissible⟩ := fits.calls call calls
      exact inv.lists.enter idle admissible
  case owners => exact owners
  case nodup => exact nodup
  case shape => exact shape
  case top => exact top
  case rest => exact fun i free => fits.homes inv locked free
  case alone =>
    rw [apply_cur]
    exact inv.alone
  case back =>
    intro c' p there
    rw [apply_cur] at there
    rw [apply_sched]
    cases here : m.cur c with
    | some _ => exact inv.back c' p there
    | none =>
      have other : c' ≠ c := by
        rintro rfl
        rw [here] at there
        cases there
      exact (update_of_ne other _ _).trans (inv.back c' p there)
  case cpu => exact fun c' b last => fits.cpus inv last
  case parked => exact fun i away waits => fits.parks inv (away_apply.mp away) waits
  case reserved => exact fun p np reserves => fits.usedSlots inv reserves
  case once =>
    intro p p' np left right
    rcases fits.reserves_cases left with ⟨before, _⟩ | ⟨here, _, _, _, unused⟩
    · rcases fits.reserves_cases right with ⟨before', _⟩ | ⟨_, _, _, _, unused⟩
      · exact inv.once p p' np before before'
      · exact absurd (inv.reserved p np before) unused
    · rcases fits.reserves_cases right with ⟨before', _⟩ | ⟨here', _⟩
      · exact absurd (inv.reserved p' np before') unused
      · rw [here] at here'
        exact Option.some.inj here'

theorem Inv.calling (inv : m.Inv) (top : m.frames c = f :: rest)
    (calling : m.ls.frame c = some g) : f.call c (m.cur c) = some g.call := by
  have waits := (inv.topOk top).call
  cases calls : f.call c (m.cur c) with
  | none =>
    rw [calls] at waits
    rw [InCall, calling] at waits
    cases waits
  | some call =>
    rw [calls] at waits
    rcases waits with ⟨g', there, same⟩ | ⟨idle, _⟩
    · rw [calling] at there
      cases there
      rw [same]
    · rw [calling] at idle
      cases idle

/-- The slot that a list call concerns is locked, and its process does not run elsewhere. -/
theorem Inv.calling_slot (inv : m.Inv) (calling : m.ls.frame c = some g)
    (concerns : g.call.index = some i) :
    m.owner (.proc i) = some c ∧ (m.cur c = some i ∨ m.Away i) := by
  obtain ⟨f, rest, top, ok⟩ := inv.top c
  obtain ⟨h, holds, rfl, known, _⟩ := Frame.hold_of_call (inv.calling top calling) concerns
  refine ⟨inv.owner_of_hold top holds, ?_⟩
  cases mine : h.mine with
  | true => exact .inl (Frame.hold_mine holds mine)
  | false => exact .inr ((ok.hold h holds).away mine known)

theorem Inv.listStep {ls : ListSys Cpu} {log : List Event} (inv : m.Inv)
    (calling : m.ls.frame c = some g) (stepped : m.ls.advance c = some ls) :
    ({ m with ls := ls, log := log } : Machine).Inv := by
  have advances := inv.lists.advances calling stepped
  have away : ∀ {i}, m.owner (.proc i) ≠ some c → g.call.index ≠ some i :=
    fun other concerns => other (inv.calling_slot calling concerns).1
  constructor
  case lists => exact advances.inv
  case owners => exact inv.owners
  case nodup => exact inv.nodup
  case shape => exact inv.shape
  case alone => exact inv.alone
  case back => exact inv.back
  case cpu => exact inv.cpu
  case parked => exact fun i away waits => (inv.parked i away waits).congr rfl
  case reserved => exact inv.reserved
  case once => exact inv.once
  case rest =>
    intro i free
    have listed := advances.listed (away (i := i) (by rw [free]; nofun))
    have same : ({ m with ls := ls, log := log } : Machine).Home i ↔ m.Home i :=
      home_congr rfl listed
    exact same.mpr (inv.rest i free)
  case top =>
    intro c'
    obtain ⟨f, rest, top, ok⟩ := inv.top c'
    refine ⟨f, rest, top, ?_⟩
    by_cases self : c' = c
    · subst self
      have calls := inv.calling top calling
      constructor
      · rw [calls]
        cases now : ls.frame c' with
        | none => exact .inr ⟨now, advances.post now⟩
        | some g' => exact .inl ⟨g', now, advances.call g' now⟩
      · intro h holds
        have known := ok.hold h holds
        have listed : h.place ≠ .call → ∀ l, h.slot ∈ ls.contents l ↔ h.slot ∈ m.ls.contents l := by
          intro fixed
          apply advances.listed
          intro concerns
          obtain ⟨h', holds', _, _, place⟩ := Frame.hold_of_call calls concerns
          rw [holds] at holds'
          cases holds'
          exact fixed place
        constructor
        · exact known.state
        · intro place
          have same : ({ m with ls := ls, log := log } : Machine).Home h.slot ↔ m.Home h.slot :=
            home_congr rfl (listed (by rw [place]; nofun))
          exact same.mpr (known.home place)
        · exact fun place => (listed (by rw [place]; nofun) _).mpr (known.sleeping place)
        · exact fun place => (listed (by rw [place]; nofun) _).mpr (known.runnable place)
        · exact known.away
      · intro p here apart
        obtain ⟨state, off⟩ := ok.runs p here apart
        refine ⟨state, fun l listed => off l ((advances.listed ?_ l).mp listed)⟩
        intro concerns
        obtain ⟨h, holds, rfl, known, _⟩ := Frame.hold_of_call calls concerns
        exact (ok.hold h holds).away (apart h holds) known c' here
    · have quiet : Quiet m { m with ls := ls, log := log } c' := by
        constructor
        · rfl
        · rfl
        · exact advances.others c' self
        · exact fun _ _ => rfl
        · intro i sees
          apply advances.listed
          intro concerns
          obtain ⟨owned, runs⟩ := inv.calling_slot calling concerns
          rcases sees with other | there
          · rw [owned] at other
            exact self (Option.some.inj other).symm
          · rcases runs with here | gone
            · exact self (inv.alone c' c i there here)
            · exact gone c' there
        · exact fun _ _ away => away
      exact quiet.topOk inv top ok

/-- The state after process `p` on CPU `c` has switched to the scheduler. -/
def leave (m : Machine) (c : Cpu) (p : Slot) (events : List Event) (fs : List Frame) : Machine :=
  { m with cur := update m.cur c none, stack := update m.stack p fs, log := m.log ++ events }

theorem swtch_leave (here : m.cur c = some p) :
    m.swtch c none events fs = m.leave c p events fs := by
  simp [swtch, setFrames, here, leave]

theorem leave_cur_self :
    (m.leave c p events fs).cur c = none := update_self _ _ _

theorem leave_cur_other (other : c' ≠ c) :
    (m.leave c p events fs).cur c' = m.cur c' := update_of_ne other _ _

theorem leave_reserves {g : Frame} {q : Slot} (stack : m.stack p = f :: rest)
    (fresh : g.reserves = none) (reserves : (m.leave c p events (g :: rest)).Reserves q np) :
    m.Reserves q np := by
  obtain ⟨f', member, found⟩ := reserves
  by_cases self : q = p
  · subst self
    simp only [leave, update_self, List.mem_cons] at member
    rcases member with rfl | member
    · rw [fresh] at found
      cases found
    · exact ⟨f', by rw [stack]; exact List.mem_cons_of_mem f member, found⟩
  · simp only [leave, update_of_ne self] at member
    exact ⟨f', member, found⟩

theorem Inv.leave_quiet {g : Frame} (inv : m.Inv) (here : m.cur c = some p) (other : c' ≠ c) :
    Quiet m (m.leave c p events (g :: rest)) c' := by
  constructor
  · simp only [frames, leave_cur_other other]
    cases there : m.cur c' with
    | none => rfl
    | some p' =>
      refine update_of_ne ?_ _ _
      rintro rfl
      exact other (inv.alone c' c p' there here)
  · exact leave_cur_other other
  · rfl
  · exact fun _ _ => rfl
  · exact fun _ _ _ => Iff.rfl
  · intro i _ away c''
    by_cases self : c'' = c
    · subst self
      rw [leave_cur_self]
      simp
    · rw [leave_cur_other self]
      exact away c''

theorem Inv.leave_parked {g : Frame} (inv : m.Inv) (here : m.cur c = some p)
    (shape : Shape (some p) (g :: rest)) (parks : (m.pcb p).state.Waits →
      g.Resumable ∧ heldBy (some p) (g :: rest) = [.proc p])
    (away : (m.leave c p events (g :: rest)).Away i) (waits : (m.pcb i).state.Waits) :
    (m.leave c p events (g :: rest)).Parked i := by
  by_cases self : i = p
  · subst self
    have now : (m.leave c i events (g :: rest)).stack i = g :: rest := update_self _ _ _
    constructor
    · rw [now]
      exact shape
    · rw [now]
      exact (parks waits).2
    · exact ⟨g, rest, now, (parks waits).1⟩
  · have away' : m.Away i := by
      intro c' there
      by_cases this : c' = c
      · subst this
        rw [here] at there
        exact self (Option.some.inj there).symm
      · exact away c' (by rw [leave_cur_other this, there])
    exact (inv.parked i away' waits).congr (update_of_ne self _ _)

theorem leave_other (there : (m.leave c p events fs).cur c' = some i) :
    m.cur c' = some i := by
  have other : c' ≠ c := by
    rintro rfl
    rw [leave_cur_self] at there
    cases there
  rwa [leave_cur_other other] at there

theorem Inv.swtchOut {g : Frame} (inv : m.Inv)
    (top : m.frames c = f :: rest) (here : m.cur c = some p) (idle : m.ls.frame c = none)
    (shape : Shape (some p) (g :: rest)) (same : heldBy (some p) (f :: rest) = [.proc p])
    (home : m.Home p) (parks : (m.pcb p).state.Waits →
      g.Resumable ∧ heldBy (some p) (g :: rest) = [.proc p]) (fresh : g.reserves = none) :
    (m.swtch c none events (g :: rest)).Inv := by
  have stack : m.stack p = f :: rest := by
    rw [← top, frames, here]
  rw [swtch_leave here]
  have quiet : ∀ c', c' ≠ c → Quiet m (m.leave c p events (g :: rest)) c' :=
    fun c' => inv.leave_quiet here
  have framesSelf : (m.leave c p events (g :: rest)).frames c = [.schedBack p] := by
    rw [frames, leave_cur_self]
    exact inv.back c p here
  have heldSelf : (m.leave c p events (g :: rest)).held c = m.held c := by
    rw [held, held, framesSelf, leave_cur_self, top, here, same]
    rfl
  obtain ⟨owners, nodup⟩ := inv.sameLocks quiet rfl heldSelf
  obtain ⟨shapes, tops⟩ := inv.tops quiet
    (by rw [framesSelf, leave_cur_self]; exact ⟨⟨rfl, rfl⟩, (by simp), trivial⟩) <| by
    refine ⟨_, _, framesSelf, idle, ?_, ?_⟩
    · rintro h ⟨⟩
      exact ⟨(by simp), fun _ => home, (by simp), (by simp), (by simp)⟩
    · intro p' now
      rw [leave_cur_self] at now
      cases now
  constructor
  case lists => exact inv.lists
  case owners => exact owners
  case nodup => exact nodup
  case shape => exact shapes
  case top => exact tops
  case rest => exact inv.rest
  case alone => exact fun c₁ c₂ i h₁ h₂ => inv.alone c₁ c₂ i (leave_other h₁) (leave_other h₂)
  case back => exact fun c' p' there => inv.back c' p' (leave_other there)
  case cpu => exact inv.cpu
  case parked => exact fun i away waits => inv.leave_parked here shape parks away waits
  case reserved => exact fun q np reserves => inv.reserved q np (leave_reserves stack fresh reserves)
  case once =>
    exact fun q q' np left right => inv.once q q' np (leave_reserves stack fresh left)
      (leave_reserves stack fresh right)

/-- The state after the scheduler of CPU `c` has switched to process `p`. -/
def resume (m : Machine) (c : Cpu) (p : Slot) (events : List Event) (fs : List Frame) : Machine :=
  { m with cur := update m.cur c (some p), sched := update m.sched c fs, log := m.log ++ events }

theorem swtch_resume (here : m.cur c = none) :
    m.swtch c (some p) events fs = m.resume c p events fs := by
  simp [swtch, setFrames, here, resume]

theorem resume_cur_self :
    (m.resume c p events fs).cur c = some p := update_self _ _ _

theorem resume_cur_other (other : c' ≠ c) :
    (m.resume c p events fs).cur c' = m.cur c' := update_of_ne other _ _

theorem resume_quiet (owned : m.owner (.proc p) = some c) (other : c' ≠ c) :
    Quiet m (m.resume c p events fs) c' := by
  constructor
  · simp only [frames, resume_cur_other other]
    cases m.cur c' with
    | none => exact update_of_ne other _ _
    | some p' => rfl
  · exact resume_cur_other other
  · rfl
  · exact fun _ _ => rfl
  · exact fun _ _ _ => Iff.rfl
  · intro i theirs gone c''
    by_cases self : c'' = c
    · subst self
      rw [resume_cur_self]
      rintro ⟨⟩
      rw [owned] at theirs
      exact other (Option.some.inj theirs).symm
    · rw [resume_cur_other self]
      exact gone c''

theorem resume_top (resumable : f.Resumable) (idle : m.ls.frame c = none)
    (state : (m.pcb p).state = .RUNNING) (off : m.Off p) : (m.resume c p events fs).TopOk c f := by
  have hold : f.hold (some p) = some ⟨p, true, some .RUNNING, .home⟩ := by
    cases f <;> first | rfl | cases resumable
  have calls : f.call c (some p) = none := by
    cases f <;> first | rfl | cases resumable
  constructor
  · rw [resume_cur_self, calls]
    exact idle
  · intro h found
    rw [resume_cur_self, hold] at found
    cases found
    refine ⟨?_, fun _ => ?_, (by simp), (by simp), (by simp)⟩
    · rintro st ⟨⟩
      exact state
    · rw [Home]
      rw [show ((m.resume c p events fs).pcb p).state = .RUNNING from state]
      exact off
  · intro p' now apart
    rw [resume_cur_self] at now
    exact absurd (apart _ (by rw [resume_cur_self, hold])) (by simp)

theorem Inv.resume_alone (inv : m.Inv) (away : m.Away p) {c₁ c₂ : Cpu}
    (h₁ : (m.resume c p events fs).cur c₁ = some i) (h₂ : (m.resume c p events fs).cur c₂ = some i) :
    c₁ = c₂ := by
  by_cases self₁ : c₁ = c
  · by_cases self₂ : c₂ = c
    · rw [self₁, self₂]
    · subst self₁
      rw [resume_cur_self] at h₁
      cases h₁
      rw [resume_cur_other self₂] at h₂
      exact absurd h₂ (away c₂)
  · by_cases self₂ : c₂ = c
    · subst self₂
      rw [resume_cur_self] at h₂
      cases h₂
      rw [resume_cur_other self₁] at h₁
      exact absurd h₁ (away c₁)
    · rw [resume_cur_other self₁] at h₁
      rw [resume_cur_other self₂] at h₂
      exact inv.alone c₁ c₂ i h₁ h₂

theorem Inv.swtchIn (inv : m.Inv) (here : m.cur c = none)
    (top : m.frames c = [.schedRemove p]) (idle : m.ls.frame c = none) :
    (m.swtch c (some p) events [.schedBack p]).Inv := by
  rw [swtch_resume here]
  have sched : m.sched c = [.schedRemove p] := by
    rw [← top, frames, here]
  have ok := inv.topOk top
  have known : m.HoldOk c ⟨p, false, some .RUNNING, .call⟩ := ok.hold _ (by rw [here]; rfl)
  have owned : m.owner (.proc p) = some c := inv.owner_of_hold top (by rw [here]; rfl)
  have state : (m.pcb p).state = .RUNNING := known.state _ rfl
  have away : m.Away p := known.away rfl (by simp)
  have off : m.Off p := by
    have done := ok.call
    rcases done with ⟨g, there, _⟩ | ⟨_, post⟩
    · rw [idle] at there
      cases there
    · exact post
  obtain ⟨shape, holds, f, rest, stack, resumable⟩ := inv.parked p away (.inr (.inr (.inl state)))
  have framesSelf : (m.resume c p events [.schedBack p]).frames c = f :: rest := by
    rw [frames, resume_cur_self]
    exact stack
  have heldSelf : (m.resume c p events [.schedBack p]).held c = m.held c := by
    rw [held, held, framesSelf, resume_cur_self, ← stack, holds, top, here]
    rfl
  have quiet : ∀ c', c' ≠ c → Quiet m (m.resume c p events [.schedBack p]) c' :=
    fun c' => resume_quiet owned
  obtain ⟨owners, nodup⟩ := inv.sameLocks quiet rfl heldSelf
  obtain ⟨shapes, tops⟩ := inv.tops quiet (by rw [framesSelf, resume_cur_self, ← stack]; exact shape)
    ⟨f, rest, framesSelf, resume_top resumable idle state off⟩
  constructor
  case lists => exact inv.lists
  case owners => exact owners
  case nodup => exact nodup
  case shape => exact shapes
  case top => exact tops
  case rest => exact inv.rest
  case alone => exact fun c₁ c₂ i => inv.resume_alone away
  case back =>
    intro c' p' there
    by_cases self : c' = c
    · subst self
      rw [resume_cur_self] at there
      cases there
      exact update_self _ _ _
    · rw [resume_cur_other self] at there
      exact (update_of_ne self _ _).trans (inv.back c' p' there)
  case cpu =>
    intro c' b last
    by_cases self : c' = c
    · subst self
      have now : (m.resume c' p events [.schedBack p]).sched c' = [.schedBack p] := update_self _ _ _
      rw [now] at last
      cases last
      exact inv.cpu c' (.schedRemove p) (by rw [sched]; rfl)
    · refine inv.cpu c' b ?_
      rw [← last]
      exact congrArg List.getLast? (update_of_ne self _ _).symm
  case parked =>
    intro i gone waits
    refine (inv.parked i (fun c' there => ?_) waits).congr rfl
    by_cases self : c' = c
    · subst self
      rw [here] at there
      cases there
    · exact gone c' (by rw [resume_cur_other self, there])
  case reserved => exact inv.reserved
  case once => exact inv.once

end Machine

end OsbKernel
