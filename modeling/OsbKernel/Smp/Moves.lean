import OsbKernel.Smp.Steps

/-!
# Kinds of steps

Most steps are of one of two kinds: they only move a lock and go on, or they call a
list function on a slot that is locked.
-/

namespace OsbKernel

open Function
open scoped List

/-- The step writes no protected field and calls no list function. -/
structure Delta.Plain (d : Delta) (m : Machine) (f' : Frame) (rest : List Frame) : Prop where
  frames : d.frames = f' :: rest
  pcb : ∀ i q, d.pcb = some (i, q) → q.Same (m.pcb i)
  spawn : d.spawn = none
  cpuProc : d.cpuProc = none
  call : d.call = none

/-- A frame at its beginning: it has taken no lock and called no list function. -/
structure Frame.Fresh (g : Frame) : Prop where
  hold : ∀ self, g.hold self = none
  call : ∀ c self, g.call c self = none
  locks : g.locks = []
  keeps : g.gaveUp = none
  reserves : g.reserves = none

def ListCall.Pre (C : ListId → List Slot) : ListCall → Prop
  | .add _ i => ∀ l, i ∉ C l
  | .remove l i => i ∈ C l
  | .pick _ => True

section Calls

variable {g : ListFrame} {ls : Lists} {C : ListId → List Slot} {k : ListLock}

theorem ListFrame.done_of_acquire (op : g.op ls = .ok (.acquire k)) : g.done = false := by
  cases g with
  | add l i pc | remove l i pc => cases pc <;> first | rfl | cases op
  | pickAcquire l => rfl
  | pickRelease l => cases op

theorem ListFrame.Ok.pre (ok : g.Ok ls C) (pending : g.done = false) : g.call.Pre C := by
  cases g with
  | add l i pc =>
    cases pc with
    | acquireList => exact ok
    | acquireOnly | acquireFirst | acquireNext | releaseCurr | releaseEarly | acquireNew =>
      exact ok.1
    | _ => cases pending
  | remove l i pc =>
    cases pc with
    | acquireList => exact List.singleton_sublist.mp ok
    | acquireHead | acquireFirst => exact List.singleton_sublist.mp ok.1
    | acquireNext | releasePrev | releaseEarly | acquireNode =>
      exact ok.1.subset (by simp)
    | _ => cases pending
  | pickAcquire l => trivial
  | pickRelease l => trivial

end Calls

namespace Machine

variable {m : Machine} {c : Cpu} {f f' g : Frame} {rest : List Frame} {d : Delta}
  {owner : KLock → Option Cpu} {i p np : Slot}

theorem stack_of_frames (here : m.cur c = some p) (top : m.frames c = f :: rest) :
    m.stack p = f :: rest := by
  rw [← top, frames, here]

theorem mem_rest_of_reserves {g f' : Frame} (fresh : f'.reserves = none) (member : g ∈ f' :: rest)
    (found : g.reserves = some np) : g ∈ rest := by
  rcases List.mem_cons.mp member with rfl | member
  · rw [fresh] at found
    cases found
  · exact member

theorem reserves_replace {f' : Frame} (here : m.cur c = some p) (top : m.frames c = f :: rest)
    (fresh : f'.reserves = none) (found : ∃ g ∈ f' :: rest, g.reserves = some np) : m.Reserves p np := by
  obtain ⟨g, member, found⟩ := found
  refine ⟨g, ?_, found⟩
  rw [stack_of_frames here top]
  exact List.mem_cons_of_mem f (mem_rest_of_reserves fresh member found)

theorem sched_of_frames (here : m.cur c = none) (top : m.frames c = f :: rest) :
    m.sched c = f :: rest := by
  rw [← top, frames, here]

theorem Inv.shape_rest (inv : m.Inv) (top : m.frames c = f :: rest) :
    (∀ g ∈ rest, g.hold (m.cur c) = none) ∧ Shape (m.cur c) rest := by
  have shape := inv.shape c
  rw [top] at shape
  exact shape.2

theorem Inv.sits (inv : m.Inv) (top : m.frames c = f :: rest) : f.Sits (m.cur c) rest := by
  have shape := inv.shape c
  rw [top] at shape
  exact shape.1

theorem Inv.shape_replace (inv : m.Inv) (top : m.frames c = f :: rest)
    (sits : f'.Sits (m.cur c) rest) : Shape (m.cur c) (f' :: rest) :=
  ⟨sits, inv.shape_rest top⟩

theorem Inv.shape_push (inv : m.Inv) (top : m.frames c = f :: rest)
    (below : f'.Sits (m.cur c) rest) (free : f'.hold (m.cur c) = none)
    (sits : g.Sits (m.cur c) (f' :: rest)) : Shape (m.cur c) (g :: f' :: rest) := by
  refine ⟨sits, fun g' member => ?_, inv.shape_replace top below⟩
  rcases List.mem_cons.mp member with rfl | member
  · exact free
  · exact (inv.shape_rest top).1 g' member

theorem moves_append {op : KOp} {before after more : List KLock} (moves : op.Moves before after) :
    op.Moves (before ++ more) (after ++ more) := by
  cases op with
  | skip | acquire k | release k => exact List.Perm.append_right more moves

theorem held_cons (top : m.frames c = f :: rest) (keeps : f.gaveUp = none) :
    m.held c = f.own (m.cur c) ++ heldBy (m.cur c) rest := by
  rw [held, top, heldBy, keeps]

variable {self : Option Slot} {call : ListCall}

theorem heldBy_cons (keeps : f.gaveUp = none) :
    heldBy self (f :: rest) = f.own self ++ heldBy self rest := by
  rw [heldBy, keeps]

theorem moves_replace {op : KOp} (top : m.frames c = f :: rest) (keeps : f.gaveUp = none)
    (keeps' : f'.gaveUp = none) (moves : op.Moves (f.own (m.cur c)) (f'.own (m.cur c))) :
    op.Moves (m.held c) (heldBy (m.cur c) (f' :: rest)) := by
  rw [held_cons top keeps, heldBy_cons keeps']
  exact moves_append moves

theorem proc_notMem_locks (f : Frame) (i : Slot) : .proc i ∉ f.locks := by
  cases f <;> simp [Frame.locks]

theorem notMem_heldBy {lk : KLock} (own : ∀ g ∈ rest, lk ∉ g.own self) :
    lk ∉ heldBy self rest := by
  induction rest with
  | nil => exact List.not_mem_nil
  | cons f rest ih =>
    have below := ih fun g member => own g (List.mem_cons_of_mem f member)
    rw [heldBy, List.mem_append]
    rintro (mine | more)
    · exact own f List.mem_cons_self mine
    · cases gave : f.gaveUp with
      | none =>
        rw [gave] at more
        exact below more
      | some lk =>
        rw [gave] at more
        exact below (List.mem_of_mem_erase more)

theorem proc_notMem_heldBy (free : ∀ g ∈ rest, g.hold self = none) (i : Slot) :
    .proc i ∉ heldBy self rest := by
  refine notMem_heldBy fun g member => ?_
  rw [Frame.own, free g member]
  simpa using proc_notMem_locks g i

theorem same_locks (top : m.frames c = f :: rest) (keeps : f.gaveUp = none)
    (keeps' : f'.gaveUp = none) (same : f'.own (m.cur c) = f.own (m.cur c)) :
    heldBy (m.cur c) (f' :: rest) = m.held c := by
  rw [held_cons top keeps, heldBy_cons keeps', same]

theorem same_apply (same : ∀ i q, d.pcb = some (i, q) → q.Same (m.pcb i)) (i : Slot) :
    ((m.apply c d owner).pcb i).Same (m.pcb i) := by
  rw [apply_pcb]
  rcases setAt_cases m.pcb d.pcb i with ⟨q, wrote, now⟩ | now
  · rw [now]
    exact same i q wrote
  · rw [now]
    exact ⟨rfl, rfl, rfl, rfl⟩

theorem home_apply (same : ∀ i q, d.pcb = some (i, q) → q.Same (m.pcb i)) :
    (m.apply c d owner).Home i ↔ m.Home i := by
  apply home_congr
  · exact (same_apply same i).1
  · intro l
    rw [apply_contents]

theorem HoldOk.apply {h : Hold} (same : ∀ i q, d.pcb = some (i, q) → q.Same (m.pcb i))
    (ok : m.HoldOk c h) : (m.apply c d owner).HoldOk c h := by
  constructor
  · exact fun st known => (same_apply same h.slot).1.trans (ok.state st known)
  · exact fun place => (home_apply same).mpr (ok.home place)
  · rw [apply_contents]
    exact ok.sleeping
  · rw [apply_contents]
    exact ok.runnable
  · exact fun other known => away_apply.mpr (ok.away other known)

theorem off_apply : (m.apply c d owner).Off i ↔ m.Off i := by
  simp only [Off, apply_contents]

theorem inCall_enter (calls : d.call = some call) :
    (m.apply c d owner).InCall c (some call) := by
  refine .inl ⟨.start call, ?_, ListFrame.start_call⟩
  rw [apply_call_self, calls]

theorem inCall_apply {o : Option ListCall} (calls : d.call = none) (waits : m.InCall c o) :
    (m.apply c d owner).InCall c o := by
  have frame : (m.apply c d owner).ls.frame c = m.ls.frame c := by
    rw [apply_call_self, calls]
  cases o with
  | none => exact frame.trans waits
  | some call =>
    rcases waits with ⟨g, there, same⟩ | ⟨idle, post⟩
    · exact .inl ⟨g, frame.trans there, same⟩
    · refine .inr ⟨frame.trans idle, ?_⟩
      rw [apply_contents]
      exact post

theorem inCall_of_idle (idle : m.ls.frame c = none) (free : f.hold (m.cur c) = none) :
    m.InCall c (f.call c (m.cur c)) := by
  cases calls : f.call c (m.cur c) with
  | none => exact idle
  | some call =>
    refine .inr ⟨idle, ?_⟩
    cases call with
    | pick l => trivial
    | add l i | remove l i =>
      obtain ⟨h, holds, _⟩ := Frame.hold_of_call calls rfl
      rw [free] at holds
      cases holds

theorem Inv.state_of_listed (inv : m.Inv) (home : m.Home i) :
    (i ∈ m.ls.contents .unusedList → (m.pcb i).state = .UNUSED) ∧
      ∀ t, i ∈ m.ls.contents (.runnable t) → (m.pcb i).state = .RUNNABLE := by
  have only : ∀ {l l'}, i ∈ m.ls.contents l → i ∈ m.ls.contents l' → l = l' :=
    fun left right => inv.lists.family.disjoint left right
  unfold Home at home
  constructor
  · intro listed
    cases state : (m.pcb i).state with
    | UNUSED => rfl
    | SLEEPING | ZOMBIE =>
      rw [state] at home
      cases only home listed
    | RUNNABLE =>
      rw [state] at home
      obtain ⟨t, there⟩ := home
      cases only there listed
    | USED | RUNNING =>
      rw [state] at home
      exact absurd listed (home _)
  · intro t listed
    cases state : (m.pcb i).state with
    | RUNNABLE => rfl
    | SLEEPING | ZOMBIE | UNUSED =>
      rw [state] at home
      cases only home listed
    | USED | RUNNING =>
      rw [state] at home
      exact absurd listed (home _)

theorem Inv.listed_of_head {l : ListId} (inv : m.Inv)
    (picks : m.ls.frame c = some (.pickRelease l)) (head : m.ls.lists.first l = some i) :
    (m.ls.contents l).head? = some i := by
  have quiet : ¬ m.ls.Pending l := by
    apply inv.lists.not_pending_of_held picks
    · exact List.mem_singleton.mpr rfl
    · rintro ⟨j, same⟩
      cases same
  rw [← inv.lists.family.first_eq l, ListSys.head_of_not_pending quiet, head]

theorem Inv.runs (inv : m.Inv) (top : m.frames c = f :: rest)
    (other : ∀ h, f.hold (m.cur c) = some h → h.mine = false) (p : Slot) (here : m.cur c = some p) :
    (m.pcb p).state = .RUNNING ∧ m.Off p :=
  (inv.topOk top).runs p here other

theorem Inv.away_of_free (inv : m.Inv) (top : m.frames c = f :: rest)
    (other : ∀ h, f.hold (m.cur c) = some h → h.mine = false) (free : m.owner (.proc i) = none)
    (state : (m.pcb i).state ≠ .RUNNING) : m.Away i := by
  refine inv.away_of_state (c := c) (fun here => ?_) (.inl free) state
  exact state (inv.runs top other i here).1

theorem Inv.hold_visit (inv : m.Inv) (free : m.owner (.proc i) = none) :
    m.HoldOk c ⟨i, false, none, .home⟩ :=
  ⟨nofun, fun _ => inv.rest i free, nofun, nofun, fun _ known => absurd rfl known⟩

theorem Inv.post (inv : m.Inv) (top : m.frames c = f :: rest) (idle : m.ls.frame c = none)
    (calls : f.call c (m.cur c) = some call) : call.Post m.ls.contents := by
  have waits := (inv.topOk top).call
  rw [calls] at waits
  rcases waits with ⟨g, there, _⟩ | ⟨_, post⟩
  · rw [idle] at there
    cases there
  · exact post

/-- What is to be shown about a step that only moves a lock and goes on. -/
structure Still (m : Machine) (c : Cpu) (f : Frame) (rest : List Frame) (d : Delta) (f' : Frame)
    (rest' : List Frame) : Prop where
  frames : d.frames = f' :: rest'
  pcb : ∀ i q, d.pcb = some (i, q) → q.Same (m.pcb i)
  spawn : d.spawn = none
  cpuProc : d.cpuProc = none
  shape : Shape (m.cur c) (f' :: rest')
  moves : d.op.Moves (m.held c) (heldBy (m.cur c) (f' :: rest'))
  calls : (d.call = none ∧ m.InCall c (f'.call c (m.cur c))) ∨
    ∃ l, d.call = some (.pick l) ∧ f'.call c (m.cur c) = some (.pick l) ∧ m.ls.frame c = none
  hold : ∀ h, f'.hold (m.cur c) = some h → m.HoldOk c h
  runs : ∀ p, m.cur c = some p → (∀ h, f'.hold (m.cur c) = some h → h.mine = false) →
    (m.pcb p).state = .RUNNING ∧ m.Off p
  released : ∀ i, d.op = .release (.proc i) → m.Home i
  reserves : ∀ g ∈ f' :: rest', ∀ np, g.reserves = some np → ∃ g' ∈ f :: rest, g'.reserves = some np
  bottom : m.cur c = none → ((f' :: rest').getLast?.bind Frame.running) =
    ((f :: rest).getLast?.bind Frame.running)

theorem Still.fits {rest' : List Frame} (still : Still m c f rest d f' rest') (inv : m.Inv)
    (top : m.frames c = f :: rest) : Fits m c d owner := by
  constructor
  case shape =>
    rw [still.frames]
    exact still.shape
  case moves =>
    rw [still.frames]
    exact still.moves
  case top =>
    refine ⟨f', rest', still.frames, ?_, ?_, ?_⟩
    · rw [apply_cur]
      rcases still.calls with ⟨none, waits⟩ | ⟨l, calls, same, _⟩
      · exact inCall_apply none waits
      · rw [same]
        exact inCall_enter calls
    · intro h holds
      rw [apply_cur] at holds
      exact (still.hold h holds).apply still.pcb
    · intro p here apart
      rw [apply_cur] at here apart
      rw [(same_apply still.pcb p).1, off_apply]
      exact still.runs p here apart
  case calls =>
    intro call calls
    rcases still.calls with ⟨none, _⟩ | ⟨l, picks, _, idle⟩
    · rw [none] at calls
      cases calls
    · rw [picks] at calls
      cases calls
      exact ⟨idle, trivial⟩
  case writes => exact fun i q wrote => .inl (still.pcb i q wrote)
  case released => exact fun i released => (home_apply still.pcb).mpr (still.released i released)
  case wakes => exact fun i q wrote _ waits => .inl ((still.pcb i q wrote).1 ▸ waits)
  case spawns => simp [still.spawn]
  case used => exact fun i q wrote used => .inl ((still.pcb i q wrote).1.trans used)
  case reserves =>
    intro p np here
    rintro ⟨g, member, found⟩
    rw [still.frames] at member
    obtain ⟨g', member', found'⟩ := still.reserves g member np found
    exact .inl ⟨g', by rw [stack_of_frames here top]; exact member', found'⟩
  case cpu =>
    cases here : m.cur c with
    | some p => exact still.cpuProc
    | none =>
      intro b last
      have bottom := still.bottom here
      rw [← still.frames, last, Option.bind_some] at bottom
      rw [still.cpuProc, Option.getD_none]
      cases before : (f :: rest).getLast? with
      | none => simp at before
      | some b' =>
        rw [before, Option.bind_some] at bottom
        rw [← sched_of_frames here top] at before
        rw [inv.cpu c b' before, bottom]

theorem bottom_cons (more : rest ≠ []) :
    ((f' :: rest).getLast?.bind Frame.running) = ((f :: rest).getLast?.bind Frame.running) := by
  rw [List.getLast?_cons_of_ne_nil more, List.getLast?_cons_of_ne_nil more]

theorem Inv.goes (inv : m.Inv) (f' : Frame) (top : m.frames c = f :: rest) (plain : d.Plain m f' rest)
    (sits : f'.Sits (m.cur c) rest) (keeps : f.gaveUp = none) (keeps' : f'.gaveUp = none)
    (moves : d.op.Moves (f.own (m.cur c)) (f'.own (m.cur c)))
    (waits : m.InCall c (f'.call c (m.cur c)))
    (hold : ∀ h, f'.hold (m.cur c) = some h → m.HoldOk c h)
    (runs : ∀ p, m.cur c = some p → (∀ h, f'.hold (m.cur c) = some h → h.mine = false) →
      (m.pcb p).state = .RUNNING ∧ m.Off p)
    (released : ∀ i, d.op = .release (.proc i) → m.Home i)
    (reserves : f'.reserves = none ∨ f'.reserves = f.reserves)
    (bottom : m.cur c = none → rest = [] → f'.running = f.running) : Fits m c d owner := by
  suffices still : Still m c f rest d f' rest from still.fits inv top
  constructor
  case frames => exact plain.frames
  case pcb => exact plain.pcb
  case spawn => exact plain.spawn
  case cpuProc => exact plain.cpuProc
  case shape => exact inv.shape_replace top sits
  case moves => exact moves_replace top keeps keeps' moves
  case calls => exact .inl ⟨plain.call, waits⟩
  case hold => exact hold
  case runs => exact runs
  case released => exact released
  case reserves =>
    intro g member np found
    rcases List.mem_cons.mp member with rfl | member
    · rcases reserves with none | same
      · rw [none] at found
        cases found
      · exact ⟨f, List.mem_cons_self, by rw [← same, found]⟩
    · exact ⟨g, List.mem_cons_of_mem f member, found⟩
  case bottom =>
    intro here
    by_cases more : rest = []
    · subst more
      simp [bottom here rfl]
    · exact bottom_cons more

theorem Inv.pushes (inv : m.Inv) (f' g : Frame) (top : m.frames c = f :: rest)
    (plain : d.Plain m g (f' :: rest)) (skips : d.op = .skip) (fresh : g.Fresh)
    (below : f'.Sits (m.cur c) rest) (sits : g.Sits (m.cur c) (f' :: rest))
    (idle : m.ls.frame c = none) (free : f.hold (m.cur c) = none)
    (free' : f'.hold (m.cur c) = none) (locks : heldBy (m.cur c) (f' :: rest) = m.held c)
    (reserves : f'.reserves = none ∨ f'.reserves = f.reserves)
    (bottom : m.cur c = none → rest = [] → f'.running = f.running) : Fits m c d owner := by
  have hold : g.hold (m.cur c) = none := fresh.hold _
  suffices still : Still m c f rest d g (f' :: rest) from still.fits inv top
  constructor
  case frames => exact plain.frames
  case pcb => exact plain.pcb
  case spawn => exact plain.spawn
  case cpuProc => exact plain.cpuProc
  case shape => exact inv.shape_push top below free' sits
  case moves =>
    rw [skips, heldBy_cons fresh.keeps, Frame.own, hold, fresh.locks, locks]
    exact List.Perm.refl _
  case calls =>
    refine .inl ⟨plain.call, ?_⟩
    rw [fresh.call]
    exact idle
  case hold =>
    intro h holds
    rw [hold] at holds
    cases holds
  case runs => exact fun p here _ => inv.runs top (by rw [free]; simp) p here
  case released =>
    rw [skips]
    simp
  case reserves =>
    intro g' member np found
    rcases List.mem_cons.mp member with rfl | member
    · rw [fresh.reserves] at found
      cases found
    rcases List.mem_cons.mp member with rfl | member
    · rcases reserves with none | same
      · rw [none] at found
        cases found
      · exact ⟨f, List.mem_cons_self, by rw [← same, found]⟩
    · exact ⟨g', List.mem_cons_of_mem f member, found⟩
  case bottom =>
    intro here
    by_cases more : rest = []
    · subst more
      simp [bottom here rfl]
    · exact bottom_cons more

theorem Inv.pops (inv : m.Inv) (top : m.frames c = f :: rest) (more : rest ≠ [])
    (frames : d.frames = rest) (still : d.pcb = none ∧ d.spawn = none ∧ d.cpuProc = none ∧ d.call = none)
    (moves : d.op.Moves (m.held c) (heldBy (m.cur c) rest)) (idle : m.ls.frame c = none)
    (runs : ∀ p, m.cur c = some p → (m.pcb p).state = .RUNNING ∧ m.Off p)
    (released : ∀ i, d.op = .release (.proc i) → m.Home i) : Fits m c d owner := by
  obtain ⟨pcb, spawn, cpuProc, call⟩ := still
  obtain ⟨under, shape⟩ := inv.shape_rest top
  cases rest with
  | nil => exact absurd rfl more
  | cons g rest =>
    have free := under g List.mem_cons_self
    suffices still : Still m c f (g :: rest) d g rest from still.fits inv top
    constructor
    case frames => exact frames
    case pcb => simp [pcb]
    case spawn => exact spawn
    case cpuProc => exact cpuProc
    case shape => exact shape
    case moves => exact moves
    case calls => exact .inl ⟨call, inCall_of_idle idle free⟩
    case hold =>
      intro h holds
      rw [free] at holds
      cases holds
    case runs => exact fun p here _ => runs p here
    case released => exact released
    case reserves => exact fun g' member np found => ⟨g', List.mem_cons_of_mem f member, found⟩
    case bottom =>
      intro _
      rw [List.getLast?_cons_of_ne_nil (List.cons_ne_nil g rest)]

theorem Inv.admissible (inv : m.Inv) (concerns : call.index = some i)
    (lock : m.owner (.proc i) = none ∨ m.owner (.proc i) = some c) (idle : m.ls.frame c = none)
    (place : call.Pre m.ls.contents) : m.ls.Admissible call := by
  have apart : ∀ c' g, m.ls.frame c' = some g → g.call.index ≠ some i := by
    intro c' g there same
    have owned := (inv.calling_slot there same).1
    rcases lock with free | mine
    · rw [free] at owned
      cases owned
    · rw [mine] at owned
      cases owned
      rw [idle] at there
      cases there
  cases call with
  | add l j | remove l j =>
    cases concerns
    exact ⟨place, apart⟩
  | pick l => trivial

/-- What is to be shown about a step that calls a list function on slot `i`. -/
structure Calls (m : Machine) (c : Cpu) (rest : List Frame) (d : Delta) (f' : Frame) (i : Slot)
    (mine : Bool) (st : ProcState) (call : ListCall) : Prop where
  delta : d.frames = f' :: rest ∧ d.spawn = none ∧ d.call = some call
  frame : f'.call c (m.cur c) = some call ∧ f'.hold (m.cur c) = some ⟨i, mine, some st, .call⟩ ∧
    f'.reserves = none
  concerns : call.index = some i
  writes : (d.pcb = none ∧ (m.pcb i).state = st) ∨ ∃ q, d.pcb = some (i, q) ∧ q.state = st
  idle : m.ls.frame c = none
  place : call.Pre m.ls.contents
  sits : f'.Sits (m.cur c) rest
  moves : d.op.Moves (m.held c) (heldBy (m.cur c) (f' :: rest))
  lock : m.owner (.proc i) = some c ∨ d.op = .acquire (.proc i)
  keeps : ∀ j, d.op ≠ .release (.proc j)
  away : mine = false → m.Away i
  runs : ∀ p, m.cur c = some p → mine = false → (m.pcb p).state = .RUNNING ∧ m.Off p
  thread : m.cur c = some i ∨ (st.Waits → (m.pcb i).state.Waits)
  used : (m.pcb i).state ≠ .USED ∨ ∃ p, m.cur c = some p ∧ m.Reserves p i ∧
    ∀ g ∈ rest, g.reserves ≠ some i
  cpu : match m.cur c with
    | none => rest = [] ∧ d.cpuProc.getD (m.cpuProc c) = f'.running ∨
        rest ≠ [] ∧ d.cpuProc = none
    | some _ => d.cpuProc = none

theorem Calls.fits {mine : Bool} {st : ProcState}
    (calls : Calls m c rest d f' i mine st call) (inv : m.Inv) (top : m.frames c = f :: rest)
    (locked : m.lockAfter c d.op = some owner) : Fits m c d owner := by
  obtain ⟨frames, spawn, enters⟩ := calls.delta
  obtain ⟨waits, hold, fresh⟩ := calls.frame
  have where_ : m.cur c = some i ∨ m.Away i := by
    cases own : mine with
    | true => exact .inl (Frame.hold_mine hold own)
    | false => exact .inr (calls.away own)
  have lock : m.owner (.proc i) = none ∨ m.owner (.proc i) = some c := by
    rcases calls.lock with owned | acquires
    · exact .inr owned
    · rw [acquires] at locked
      exact .inl (lockAfter_acquire locked).1
  have slot : ∀ {j q}, d.pcb = some (j, q) → j = i ∧ q.state = st := by
    intro j q wrote
    rcases calls.writes with ⟨none, _⟩ | ⟨q', found, state⟩
    · rw [none] at wrote
      cases wrote
    · rw [found] at wrote
      cases wrote
      exact ⟨rfl, state⟩
  have state : ((m.apply c d owner).pcb i).state = st := by
    rw [apply_pcb]
    rcases calls.writes with ⟨none, same⟩ | ⟨q, wrote, same⟩
    · rw [none]
      exact same
    · rw [wrote]
      simp only [setAt, update_self]
      exact same
  constructor
  case shape =>
    rw [frames]
    exact inv.shape_replace top calls.sits
  case moves =>
    rw [frames]
    exact calls.moves
  case top =>
    refine ⟨f', rest, frames, ?_, ?_, ?_⟩
    · rw [apply_cur, waits]
      exact inCall_enter enters
    · intro h holds
      rw [apply_cur, hold] at holds
      cases holds
      refine ⟨?_, (by simp), (by simp), (by simp), ?_⟩
      · rintro _ ⟨⟩
        exact state
      · exact fun other _ => away_apply.mpr (calls.away other)
    · intro p here apart
      rw [apply_cur] at here apart
      have other : mine = false := apart _ hold
      rw [off_apply, apply_pcb, setAt_of_ne]
      · exact calls.runs p here other
      · intro q wrote
        obtain ⟨rfl, _⟩ := slot wrote
        exact calls.away other c here
  case calls =>
    intro call' entered
    rw [enters] at entered
    cases entered
    exact ⟨calls.idle, inv.admissible calls.concerns lock calls.idle calls.place⟩
  case writes =>
    intro j q wrote
    obtain ⟨rfl, _⟩ := slot wrote
    exact .inr ⟨calls.lock, where_⟩
  case released => exact fun j released => absurd released (calls.keeps j)
  case wakes =>
    intro j q wrote away threaded
    obtain ⟨rfl, rfl⟩ := slot wrote
    exact .inl ((calls.thread.resolve_left (away c)) threaded)
  case spawns => simp [spawn]
  case used =>
    intro j q wrote used
    obtain ⟨rfl, _⟩ := slot wrote
    obtain ⟨p, here, reserves, dropped⟩ := calls.used.resolve_left (fun other => other used)
    refine .inr ⟨p, here, reserves, fun g member => ?_⟩
    rw [frames] at member
    rcases List.mem_cons.mp member with rfl | member
    · rw [fresh]
      simp
    · exact dropped g member
  case reserves =>
    intro p np here found
    rw [frames] at found
    exact .inl (reserves_replace here top fresh found)
  case cpu =>
    have keeps := calls.cpu
    cases here : m.cur c with
    | some p =>
      rw [here] at keeps
      exact keeps
    | none =>
      rw [here] at keeps
      intro b last
      rw [frames] at last
      rcases keeps with ⟨rfl, now⟩ | ⟨more, none⟩
      · cases last
        exact now
      · rw [List.getLast?_cons_of_ne_nil more] at last
        rw [none, Option.getD_none]
        refine inv.cpu c b ?_
        rw [sched_of_frames here top, List.getLast?_cons_of_ne_nil more]
        exact last

end Machine

end OsbKernel
