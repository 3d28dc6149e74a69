import OsbKernel.Smp.Threads

/-!
# sleep and wakeup

A process that sleeps holds its own lock from before it releases its caller's until the scheduler
has taken over, so a `wakeup` called after that release finds it asleep. What `wakeup` has woken
stays on a runnable list until it is dispatched.

`wakeup` looks at every slot but its caller's once, and moves those asleep on the channel.
-/

namespace OsbKernel

open Function LinkedChain
open scoped List

/-- The call of `wakeup` that a frame belongs to. -/
def Frame.wakeup : Frame → Option (Nat × Chan)
  | .wakeLoop n chan _ => some (n, chan)
  | .wakeRemove n chan _ _ => some (n, chan)
  | .wakeAdd n chan _ _ _ => some (n, chan)
  | .wakeSkip n chan _ _ => some (n, chan)
  | _ => none

/-- The slots that `wakeup` has not come to. -/
def Frame.todo : Frame → List Slot
  | .wakeLoop _ _ todo => todo
  | .wakeRemove _ _ _ todo => todo
  | .wakeAdd _ _ _ _ todo => todo
  | .wakeSkip _ _ _ todo => todo
  | _ => []

/-- The slot that `wakeup` looks at. -/
def Frame.visiting : Frame → Option Slot
  | .wakeRemove _ _ q _ => some q
  | .wakeAdd _ _ q _ _ => some q
  | .wakeSkip _ _ q _ => some q
  | _ => none

/-- The last thing that `p` did was to release the lock of its caller in `sleep`, as
the `k`-th event, and it has not been dispatched since. -/
def SleptAt (p : Slot) (chan : Chan) (k : Nat) (log : List Event) : Prop :=
  ∃ before lk after, log = before ++ .slept p chan lk :: after ∧ before.length = k ∧
    ∀ c, .dispatch c p ∉ after

section Log

variable {p : Slot} {chan : Chan} {k : Nat} {log : List Event} {e : Event}

theorem append_singleton_cases {α : Type} {xs before after : List α} {x y : α}
    (same : xs ++ [y] = before ++ x :: after) :
    (before = xs ∧ x = y ∧ after = []) ∨ ∃ more, after = more ++ [y] ∧ xs = before ++ x :: more := by
  rcases List.eq_nil_or_concat after with rfl | ⟨more, last, rfl⟩
  · obtain ⟨rfl, last⟩ := List.append_inj' same rfl
    cases last
    exact .inl ⟨rfl, rfl, rfl⟩
  · rw [List.concat_eq_append] at same ⊢
    have whole : xs ++ [y] = (before ++ x :: more) ++ [last] := by simpa using same
    obtain ⟨rfl, tail⟩ := List.append_inj' whole rfl
    cases tail
    exact .inr ⟨more, rfl, rfl⟩

theorem SleptAt.cases (slept : SleptAt p chan k (log ++ [e])) :
    (SleptAt p chan k log ∧ ∀ c, e ≠ .dispatch c p) ∨
      (∃ lk, e = .slept p chan lk) ∧ k = log.length := by
  obtain ⟨before, lk, after, same, rfl, quiet⟩ := slept
  rcases append_singleton_cases same with ⟨rfl, rfl, rfl⟩ | ⟨more, rfl, rfl⟩
  · exact .inr ⟨⟨lk, rfl⟩, rfl⟩
  · refine .inl ⟨⟨before, lk, more, rfl, rfl, fun c member => ?_⟩, ?_⟩
    · exact quiet c (List.mem_append_left _ member)
    · rintro c rfl
      exact quiet c (List.mem_append_right _ (List.mem_singleton.mpr rfl))

end Log

namespace Machine

variable {blncflg : Bool} {m m' : Machine} {c c' : Cpu} {f g : Frame} {rest : List Frame} {d : Delta}
  {owner : KLock → Option Cpu} {i p q : Slot} {t : Thread} {chan : Chan} {n k : Nat}

theorem hold_of_held (top : m.frames c = f :: rest) (none : m.held c = []) :
    f.hold (m.cur c) = Option.none := by
  cases holds : f.hold (m.cur c) with
  | none => rfl
  | some h =>
    have member := hold_mem_held top holds
    rw [none] at member
    cases member

theorem Acts.slept (top : m.frames c = f :: rest) (acts : Acts blncflg m c f rest d)
    (slept : SleptAt p chan k (m.log ++ d.events)) :
    (SleptAt p chan k m.log ∧ f ≠ .schedGot p) ∨
      (∃ lk, f = .sleepAdd chan lk ∧ d.frames = .sleepSet chan lk :: rest) ∧ m.cur c = some p ∧
        k = m.log.length := by
  cases acts with
  | sleepAdd here =>
    rcases slept.cases with ⟨before, _⟩ | ⟨⟨lk, same⟩, now⟩
    · exact .inl ⟨before, nofun⟩
    · cases same
      exact .inr ⟨⟨_, rfl, rfl⟩, here, now⟩
  | schedGot here =>
    rcases slept.cases with ⟨before, other⟩ | ⟨⟨lk, same⟩, _⟩
    · refine .inl ⟨before, ?_⟩
      rintro ⟨⟩
      exact other c rfl
    · cases same
  | wakeup | exit | forkNone | forkGot | forkLink | forkAdd | reparent | reparented | waitFailed
  | waitDone | wakeReturn | wakeSleeper | wakeLook =>
    rcases slept.cases with ⟨before, _⟩ | ⟨⟨lk, same⟩, _⟩
    · exact .inl ⟨before, nofun⟩
    · cases same
  | interrupt held | timer here held =>
    refine .inl ⟨by simpa using slept, ?_⟩
    rintro rfl
    cases hold_of_held top held
  | _ => exact .inl ⟨by simpa using slept, nofun⟩

/-- How a frame of `wakeup` comes about, and what is recorded with it. -/
inductive WakeMove (m : Machine) (c : Cpu) (f : Frame) (rest : List Frame) :
    List Event → Frame → Prop where
  | kept {events : List Event} {g : Frame} (member : g ∈ f :: rest) : WakeMove m c f rest events g
  | called {chan : Chan} : WakeMove m c f rest [m.wakeupEvent chan] (m.wakeupFrame chan)
  | self {n : Nat} {chan : Chan} {q : Slot} {todo : List Slot}
      (before : f = .wakeLoop n chan (q :: todo)) (self : m.cpuProc c = some q) :
      WakeMove m c f rest [] (.wakeLoop n chan todo)
  | sleeper {n : Nat} {chan : Chan} {q : Slot} {todo : List Slot}
      (before : f = .wakeLoop n chan (q :: todo)) (other : m.cpuProc c ≠ some q) :
      WakeMove m c f rest [.visits n q] (.wakeRemove n chan q todo)
  | look {n : Nat} {chan : Chan} {q : Slot} {todo : List Slot}
      (before : f = .wakeLoop n chan (q :: todo)) (other : m.cpuProc c ≠ some q)
      (awake : ¬ ((m.pcb q).state = .SLEEPING ∧ (m.pcb q).chan = chan)) :
      WakeMove m c f rest [.visits n q] (.wakeSkip n chan q todo)
  | puts {n : Nat} {chan : Chan} {q : Slot} {t : Cpu} {todo : List Slot}
      (before : f = .wakeRemove n chan q todo) : WakeMove m c f rest [] (.wakeAdd n chan q t todo)
  | woken {n : Nat} {chan : Chan} {q : Slot} {t : Cpu} {todo : List Slot}
      (before : f = .wakeAdd n chan q t todo) : WakeMove m c f rest [] (.wakeLoop n chan todo)
  | skipped {n : Nat} {chan : Chan} {q : Slot} {todo : List Slot}
      (before : f = .wakeSkip n chan q todo) : WakeMove m c f rest [] (.wakeLoop n chan todo)

theorem Acts.wakeMove (acts : Acts blncflg m c f rest d) (member : g ∈ d.frames)
    (wakes : g.wakeup ≠ none) : WakeMove m c f rest d.events g := by
  cases acts with
  | ret | wakeReturn | sleepRelock | yieldResume => exact .kept (List.mem_cons_of_mem _ member)
  | wakeup =>
    rcases List.mem_cons.mp member with rfl | member
    · exact .called
    · exact .kept member
  | reparent here child | reparented here =>
    rcases List.mem_cons.mp member with rfl | member
    · exact .called
    rcases List.mem_cons.mp member with rfl | member
    · exact absurd rfl wakes
    · exact .kept (List.mem_cons_of_mem _ member)
  | interrupt | timer =>
    rcases List.mem_cons.mp member with rfl | member
    · exact absurd rfl wakes
    · exact .kept member
  | sleep | scanSleep =>
    rcases List.mem_cons.mp member with rfl | member
    · exact absurd rfl wakes
    rcases List.mem_cons.mp member with rfl | member
    · exact absurd rfl wakes
    · exact .kept (List.mem_cons_of_mem _ member)
  | wakeSelf self =>
    rcases List.mem_cons.mp member with rfl | member
    · exact .self rfl self
    · exact .kept (List.mem_cons_of_mem _ member)
  | wakeSleeper other =>
    rcases List.mem_cons.mp member with rfl | member
    · exact .sleeper rfl other
    · exact .kept (List.mem_cons_of_mem _ member)
  | wakeLook other awake =>
    rcases List.mem_cons.mp member with rfl | member
    · exact .look rfl other awake
    · exact .kept (List.mem_cons_of_mem _ member)
  | wakeRemove target =>
    rcases List.mem_cons.mp member with rfl | member
    · exact .puts rfl
    · exact .kept (List.mem_cons_of_mem _ member)
  | wakeAdd =>
    rcases List.mem_cons.mp member with rfl | member
    · exact .woken rfl
    · exact .kept (List.mem_cons_of_mem _ member)
  | wakeSkip =>
    rcases List.mem_cons.mp member with rfl | member
    · exact .skipped rfl
    · exact .kept (List.mem_cons_of_mem _ member)
  | fork | exit | wait | kill | setcpu =>
    rcases List.mem_cons.mp member with rfl | member
    · exact absurd rfl wakes
    · cases member
  | _ =>
    rcases List.mem_cons.mp member with rfl | member
    · exact absurd rfl wakes
    · exact .kept (List.mem_cons_of_mem _ member)

def Ready (m : Machine) (p : Slot) : Prop :=
  (m.pcb p).state = .RUNNABLE ∧ ∃ t, p ∈ m.ls.contents (.runnable t)

/-- The process is in `sleep`, or has been woken and not dispatched yet. -/
def Resting (m : Machine) (p : Slot) (chan : Chan) : Prop :=
  (∃ c lk rest, m.cur c = some p ∧ m.frames c = .sleepSet chan lk :: rest) ∨
    ((m.pcb p).state = .SLEEPING ∧ (m.pcb p).chan = chan) ∨ (m.pcb p).state = .RUNNABLE

/-- What holds between sleepers and calls of `wakeup`. -/
structure Wakeful (m : Machine) : Prop where
  rests : ∀ p chan k, SleptAt p chan k m.log → m.Resting p chan
  stamped : ∀ before n chan after, m.log = before ++ .wakes n chan :: after → before.length = n
  called : ∀ t f, f ∈ m.thread t → ∀ n chan, f.wakeup = some (n, chan) → n < m.log.length
  skips : ∀ c n chan q todo rest, m.frames c = .wakeSkip n chan q todo :: rest →
    ¬ ((m.pcb q).state = .SLEEPING ∧ (m.pcb q).chan = chan)
  woke : ∀ t f, f ∈ m.thread t → ∀ n chan, f.wakeup = some (n, chan) → ∀ p k,
    SleptAt p chan k m.log → k < n → p ∉ f.todo → f.visiting ≠ some p → m.Ready p

variable {ls : ListSys Cpu} {events : List Event} {target : Option Slot} {fs : List Frame}

theorem Ready.list {g : ListFrame} (ready : m.Ready p)
    (inv : m.Inv) (calling : m.ls.frame c = some g) (advances : Advances m.ls ls c g) :
    (m.advanced ls events).Ready p := by
  obtain ⟨state, t, listed⟩ := ready
  refine ⟨state, t, ?_⟩
  rw [advanced_ls]
  by_cases concerns : g.call.index = some p
  · rw [advances.contents]
    cases commits : g.commits with
    | false => exact listed
    | true =>
      cases call : g.call with
      | pick l => exact listed
      | add l i => exact mem_put.mpr (.inl listed)
      | remove l i =>
        rw [call] at concerns
        cases concerns
        have pre := (inv.lists.frames c g calling).pre (ListFrame.commits_not_done commits)
        rw [call] at pre
        cases inv.lists.family.disjoint listed pre
        obtain ⟨rfl, here, sched⟩ := inv.remover calling call
        have top : m.frames t = [.schedRemove p] := by
          rw [frames, here]
          exact sched
        have now := ((inv.topOk top).hold ⟨p, false, some .RUNNING, .call⟩ rfl).state _ rfl
        rw [state] at now
        cases now
  · exact (advances.listed concerns _).mpr listed

theorem Ready.apply (ready : m.Ready p) (inv : m.Inv) (top : m.frames c = f :: rest)
    (acts : Acts blncflg m c f rest d) (other : f ≠ .schedGot p) :
    (m.apply c d owner).Ready p := by
  obtain ⟨state, t, listed⟩ := ready
  refine ⟨?_, t, by rw [apply_contents]; exact listed⟩
  rcases acts.pcb_cases owner inv top p with same | change
  · rw [same]
    exact state
  · generalize (m.apply c d owner).pcb p = after at change
    cases change with
    | same same => exact same.1.trans state
    | ready _ after => exact after.1
    | yields | wakes | kills => rfl
    | runs => exact absurd rfl other
    | _ =>
      rename_i before
      rw [state] at before
      cases before

theorem Inv.not_resting (inv : m.Inv) (here : m.cur c = some p) (top : m.frames c = f :: rest)
    (free : f.hold (m.cur c) = none) : ¬ m.Resting p chan := by
  have state := (inv.runs top (by rw [free]; nofun) p here).1
  rintro (⟨c', lk, rest', there, top'⟩ | ⟨asleep, _⟩ | runnable)
  · obtain rfl := inv.alone c c' p here there
    rw [top] at top'
    cases top'
    rw [here] at free
    cases free
  · rw [state] at asleep
    cases asleep
  · rw [state] at runnable
    cases runnable

theorem Resting.apply (resting : m.Resting p chan) (inv : m.Inv) (top : m.frames c = f :: rest)
    (acts : Acts blncflg m c f rest d) (locked : m.lockAfter c d.op = some owner)
    (fits : Fits m c d owner) (other : f ≠ .schedGot p) : (m.apply c d owner).Resting p chan := by
  rcases resting with ⟨c', lk, rest', there, top'⟩ | ⟨asleep, same⟩ | runnable
  · by_cases self : c' = c
    · subst self
      rw [top] at top'
      cases top'
      have holds : Frame.hold (m.cur c') (.sleepSet chan lk) ≠ none := by
        rw [there]
        nofun
      cases acts with
      | interrupt held | timer _ held => exact absurd (hold_of_held top held) holds
      | sleepSet here =>
        rw [there] at here
        cases here
        refine .inr (.inl ?_)
        simp [setAt]
    · left
      refine ⟨c', lk, rest', ?_, ?_⟩
      · rw [apply_cur]
        exact there
      · rw [(fits.quiet inv locked self).frames]
        exact top'
  · rcases acts.pcb_cases owner inv top p with kept | change
    · rw [Resting, kept]
      exact .inr (.inl ⟨asleep, same⟩)
    · rw [Resting]
      generalize (m.apply c d owner).pcb p = after at change ⊢
      cases change with
      | same kept => exact .inr (.inl ⟨kept.1.trans asleep, kept.2.1.trans same⟩)
      | wakes | kills => exact .inr (.inr rfl)
      | ready before =>
        rw [asleep] at before
        cases before
      | _ =>
        rename_i before
        rw [asleep] at before
        cases before
  · rcases acts.pcb_cases owner inv top p with kept | change
    · rw [Resting, kept]
      exact .inr (.inr runnable)
    · rw [Resting]
      generalize (m.apply c d owner).pcb p = after at change ⊢
      cases change with
      | same kept => exact .inr (.inr (kept.1.trans runnable))
      | runs => exact absurd rfl other
      | ready before | wakes before =>
        rw [runnable] at before
        cases before
      | _ =>
        rename_i before
        rw [runnable] at before
        cases before

theorem Wakeful.list {g : ListFrame} (wakeful : m.Wakeful)
    (inv : m.Inv) (calling : m.ls.frame c = some g) (advances : Advances m.ls ls c g)
    (effects : events = [] ∨ ∃ call, events = [.effect call]) : (m.advanced ls events).Wakeful := by
  have slept : ∀ {p chan k}, SleptAt p chan k (m.log ++ events) → SleptAt p chan k m.log := by
    intro p chan k slept
    rcases effects with rfl | ⟨call, rfl⟩
    · simpa using slept
    · rcases slept.cases with ⟨before, _⟩ | ⟨⟨_, same⟩, _⟩
      · exact before
      · cases same
  constructor
  · exact fun p chan k now => wakeful.rests p chan k (slept now)
  · intro before n chan after same
    rcases effects with rfl | ⟨call, rfl⟩
    · exact wakeful.stamped before n chan after (by simpa using same)
    · rcases append_singleton_cases same with ⟨_, other, _⟩ | ⟨more, _, log⟩
      · cases other
      · exact wakeful.stamped before n chan more log
  · intro t f member n chan wakes
    have := wakeful.called t f member n chan wakes
    rw [advanced_log, List.length_append]
    omega
  · exact wakeful.skips
  · intro t f member n chan wakes p k now order todo visiting
    exact (wakeful.woke t f member n chan wakes p k (slept now) order todo visiting).list inv calling
      advances

theorem Inv.cpuProc_eq (inv : m.Inv) (top : m.frames c = f :: rest) (wakes : f.wakeup ≠ none) :
    m.cpuProc c = m.cur c := by
  cases here : m.cur c with
  | some p =>
    have back := inv.back c p here
    exact inv.cpu c (.schedBack p) (by rw [back]; rfl)
  | none =>
    have more : rest ≠ [] := by
      have sits := inv.sits top
      cases f with
      | wakeLoop | wakeRemove | wakeAdd | wakeSkip => exact sits
      | _ => exact absurd rfl wakes
    obtain ⟨b, last⟩ := Option.ne_none_iff_exists'.mp (mt List.getLast?_eq_none_iff.mp more)
    have free := (inv.shape_rest top).1 b (List.mem_of_getLast? last)
    rw [inv.cpu c b (by rw [sched_of_frames here top, List.getLast?_cons_of_ne_nil more, last])]
    cases b with
    | schedRemove p => cases free
    | schedBack p => cases free
    | _ => rfl

/-- When the code has come past a slot, a process that slept there is on a runnable list. -/
theorem Wakeful.passed (wakeful : m.Wakeful) (inv : m.Inv) (top : m.frames c = f :: rest)
    (idle : f.looks = false → m.ls.frame c = none)
    (move : WakeMove m c f rest events g)
    (wakes : g.wakeup = some (n, chan)) (slept : SleptAt p chan k m.log) (order : k < n)
    (todo : p ∉ g.todo) (visiting : g.visiting ≠ some p) : m.Ready p := by
  have inThread : ∀ {g}, g ∈ f :: rest → g ∈ m.thread (m.running c) := by
    intro g member
    rw [← frames_eq, top]
    exact member
  have own := wakeful.woke (m.running c) f (inThread List.mem_cons_self)
  have asleep := wakeful.rests p chan k slept
  cases move with
  | kept member => exact wakeful.woke _ g (inThread member) n chan wakes p k slept order todo visiting
  | called => exact absurd (List.mem_finRange p) todo
  | @self _ _ q todo' before self =>
    subst before
    cases wakes
    by_cases same : p = q
    · subst same
      rw [inv.cpuProc_eq top nofun] at self
      exact absurd asleep (inv.not_resting self top rfl)
    · exact own n chan rfl p k slept order (by simpa [Frame.todo, same] using todo) nofun
  | @sleeper _ _ q todo' before other | @look _ _ q todo' before other awake =>
    subst before
    cases wakes
    have apart : p ≠ q := fun same => visiting (same ▸ rfl)
    exact own n chan rfl p k slept order (by simpa [Frame.todo, apart] using todo) nofun
  | puts before =>
    subst before
    cases wakes
    exact own n chan rfl p k slept order todo visiting
  | @woken _ _ q t todo' before =>
    subst before
    cases wakes
    by_cases same : p = q
    · subst same
      have state := ((inv.topOk top).hold ⟨p, false, some .RUNNABLE, .call⟩ rfl).state _ rfl
      have listed : (ListCall.add (.runnable t) p).Post m.ls.contents :=
        inv.post top (idle rfl) rfl
      exact ⟨state, t, listed⟩
    · exact own n chan rfl p k slept order todo fun now => same (Option.some.inj now).symm
  | @skipped _ _ q todo' before =>
    subst before
    cases wakes
    by_cases same : p = q
    · subst same
      have known := (inv.topOk top).hold ⟨p, false, none, .home⟩ rfl
      have owned : m.owner (.proc p) = some c := inv.owner_of_hold top rfl
      -- The lock shows that `p` is not on its way into `sleep`.
      rcases asleep with ⟨c', lk, rest', there, top'⟩ | asleep | runnable
      · have owned' : m.owner (.proc p) = some c' :=
          inv.owner_of_hold (h := ⟨p, true, some .RUNNING, .sleeping⟩) top' (by rw [there]; rfl)
        rw [owned] at owned'
        cases owned'
        rw [top] at top'
        cases top'
      · exact absurd asleep (wakeful.skips c n chan p todo' rest top)
      · have home := known.home rfl
        unfold Home at home
        rw [runnable] at home
        exact ⟨runnable, home⟩
    · exact own n chan rfl p k slept order todo fun now => same (Option.some.inj now).symm

theorem WakeMove.called_lt (move : WakeMove m c f rest events g)
    (wakeful : m.Wakeful) (top : m.frames c = f :: rest) (wakes : g.wakeup = some (n, chan)) :
    n < (m.log ++ events).length ∧ n ≤ m.log.length := by
  have inThread : ∀ {g}, g ∈ f :: rest → g ∈ m.thread (m.running c) := by
    intro g member
    rw [← frames_eq, top]
    exact member
  have own := wakeful.called (m.running c) f (inThread List.mem_cons_self)
  cases move with
  | kept member =>
    have early := wakeful.called _ g (inThread member) n chan wakes
    rw [List.length_append]
    omega
  | called =>
    cases wakes
    simp
  | self before | sleeper before | look before | puts before | woken before | skipped before =>
    subst before
    cases wakes
    have early := own n chan rfl
    rw [List.length_append]
    omega

theorem Wakeful.apply (wakeful : m.Wakeful) (inv : m.Inv) (top : m.frames c = f :: rest)
    (idle : f.looks = false → m.ls.frame c = none) (acts : Acts blncflg m c f rest d)
    (locked : m.lockAfter c d.op = some owner) (fits : Fits m c d owner) :
    (m.apply c d owner).Wakeful := by
  constructor
  case rests =>
    intro p chan k slept
    rcases acts.slept top slept with ⟨before, other⟩ | ⟨⟨lk, _, frames⟩, here, _⟩
    · exact (wakeful.rests p chan k before).apply inv top acts locked fits other
    · left
      refine ⟨c, lk, rest, ?_, ?_⟩
      · rw [apply_cur]
        exact here
      · rw [fits.frames_self]
        exact frames
  case stamped =>
    intro before n chan after same
    rw [apply_log] at same
    have early : d.events = [] ∨ (∃ e, d.events = [e] ∧ ∀ n chan, e = .wakes n chan →
        n = m.log.length) := by
      cases acts with
      | wakeup | reparent | reparented =>
        refine .inr ⟨_, rfl, ?_⟩
        rintro n chan ⟨⟩
        rfl
      | _ => first | exact .inl rfl | exact .inr ⟨_, rfl, nofun⟩
    rcases early with none | ⟨e, one, stamp⟩
    · rw [none, List.append_nil] at same
      exact wakeful.stamped before n chan after same
    · rw [one] at same
      rcases append_singleton_cases same with ⟨rfl, now, _⟩ | ⟨more, _, log⟩
      · exact (stamp n chan now.symm).symm
      · exact wakeful.stamped before n chan more log
  case called =>
    intro t g member n chan wakes
    rw [apply_log]
    rcases fits.mem_thread member with ⟨_, mine⟩ | ⟨_, kept⟩ | rfl
    · exact ((acts.wakeMove mine (by rw [wakes]; nofun)).called_lt wakeful top wakes).1
    · have := wakeful.called t g kept n chan wakes
      rw [List.length_append]
      omega
    · cases wakes
  case skips =>
    intro c' n chan q todo rest' top'
    by_cases self : c' = c
    · subst self
      rw [fits.frames_self] at top'
      have member : .wakeSkip n chan q todo ∈ d.frames := by
        rw [top']
        exact List.mem_cons_self
      cases acts with
      | wakeLook other awake =>
        cases top'
        exact awake
      | ret | wakeReturn | sleepRelock | yieldResume =>
        have free := (inv.shape_rest top).1 _ member
        cases free
      | _ => cases top'
    · have quiet := fits.quiet inv locked self
      rw [quiet.frames] at top'
      have owned : m.owner (.proc q) = some c' := inv.owner_of_hold top' rfl
      have same := fits.same (i := q) locked (.inl ⟨by rw [owned]; nofun, by
        rw [owned]
        exact fun eq => self (Option.some.inj eq)⟩)
      rw [same.1, same.2.1]
      exact wakeful.skips c' n chan q todo rest' top'
  case woke =>
    intro t g member n chan wakes p k slept order todo visiting
    rcases acts.slept top slept with ⟨before, other⟩ | ⟨_, _, now⟩
    · refine Ready.apply ?_ inv top acts other
      rcases fits.mem_thread member with ⟨_, mine⟩ | ⟨_, kept⟩ | rfl
      · have move := acts.wakeMove mine (by rw [wakes]; nofun)
        exact wakeful.passed inv top idle move wakes before order todo visiting
      · exact wakeful.woke t g kept n chan wakes p k before order todo visiting
      · cases wakes
    · -- The process has just gone to sleep, behind every call of `wakeup`.
      exfalso
      rcases fits.mem_thread member with ⟨_, mine⟩ | ⟨_, kept⟩ | rfl
      · have := ((acts.wakeMove mine (by rw [wakes]; nofun)).called_lt wakeful top wakes).2
        omega
      · have := wakeful.called t g kept n chan wakes
        omega
      · cases wakes

theorem Switches.mem_thread
    (switches : Switches m c rest f target events fs) (top : m.frames c = f :: rest)
    (member : g ∈ (m.swtch c target events fs).thread t) (wakes : g.wakeup ≠ none) :
    g ∈ m.thread t := by
  by_cases self : t = m.running c
  · subst self
    rw [swtch_thread_self] at member
    rw [← frames_eq, top]
    cases switches <;>
    · rcases List.mem_cons.mp member with rfl | member
      · exact absurd rfl wakes
      · exact List.mem_cons_of_mem _ member
  · rwa [swtch_thread_other self] at member

theorem Wakeful.switch (wakeful : m.Wakeful) (inv : m.Inv) (top : m.frames c = f :: rest)
    (switches : Switches m c rest f target events fs) : (m.swtch c target events fs).Wakeful := by
  have silent : events = [] ∨ ∃ p, events = [.switch c p] := by
    cases switches with
    | sched => exact .inr ⟨_, rfl⟩
    | _ => exact .inl rfl
  have slept : ∀ {p chan k}, SleptAt p chan k (m.log ++ events) → SleptAt p chan k m.log := by
    intro p chan k slept
    rcases silent with rfl | ⟨_, rfl⟩
    · simpa using slept
    · rcases slept.cases with ⟨before, _⟩ | ⟨⟨_, same⟩, _⟩
      · exact before
      · cases same
  have notSet : ∀ chan lk, f ≠ .sleepSet chan lk := by
    cases switches <;> nofun
  constructor
  case rests =>
    intro p chan k now
    rcases wakeful.rests p chan k (slept now) with ⟨c', lk, rest', there, top'⟩ | asleep | runnable
    · left
      have other : c' ≠ c := by
        rintro rfl
        rw [top] at top'
        cases top'
        exact notSet chan lk rfl
      refine ⟨c', lk, rest', (update_of_ne other _ _).trans there, ?_⟩
      rw [swtch_frames_other inv other]
      exact top'
    · right
      left
      rw [swtch_pcb]
      exact asleep
    · right
      right
      rw [swtch_pcb]
      exact runnable
  case stamped =>
    intro before n chan after same
    rcases silent with rfl | ⟨_, rfl⟩
    · exact wakeful.stamped before n chan after (by simpa using same)
    · rcases append_singleton_cases same with ⟨_, other, _⟩ | ⟨more, _, log⟩
      · cases other
      · exact wakeful.stamped before n chan more log
  case called =>
    intro t g member n chan wakes
    have := wakeful.called t g (switches.mem_thread top member (by rw [wakes]; nofun)) n chan wakes
    rw [swtch_log, List.length_append]
    omega
  case skips =>
    intro c' n chan q todo rest' top'
    rw [swtch_pcb]
    by_cases self : c' = c
    · subst self
      obtain ⟨f', rest₁, top₁, resumed⟩ := inv.swtch_top top switches
      rw [top'] at top₁
      cases top₁
      rcases resumed with resumable | ⟨_, same⟩
      · cases resumable
      · cases same
    · rw [swtch_frames_other inv self] at top'
      exact wakeful.skips c' n chan q todo rest' top'
  case woke =>
    intro t g member n chan wakes p k now order todo visiting
    have before := switches.mem_thread top member (by rw [wakes]; nofun)
    have ready := wakeful.woke t g before n chan wakes p k (slept now) order todo visiting
    rw [Ready, swtch_pcb, swtch_ls]
    exact ready

theorem first_thread {t : Thread} (member : f ∈ first.thread t) : f = .forkret ∨ f = .schedIdle := by
  cases t with
  | inr c => exact .inr (List.mem_singleton.mp member)
  | inl i =>
    left
    by_cases zero : i = 0
    · subst zero
      exact List.mem_singleton.mp member
    · simp [thread, first, zero] at member

theorem first_wakeful : first.Wakeful := by
  have slept : ∀ {p chan k}, ¬ SleptAt p chan k first.log := by
    rintro p chan k ⟨before, lk, after, same, _⟩
    have member : .slept p chan lk ∈ first.log := by
      rw [same]
      simp
    simp [first] at member
  have noWakeup : ∀ t f, f ∈ first.thread t → f.wakeup = none := by
    intro t f member
    rcases first_thread member with rfl | rfl <;> rfl
  constructor
  · exact fun p chan k now => absurd now slept
  · intro before n chan after same
    have member : .wakes n chan ∈ first.log := by
      rw [same]
      simp
    simp [first] at member
  · intro t f member n chan wakes
    rw [noWakeup t f member] at wakes
    cases wakes
  · intro c n chan q todo rest top
    cases top
  · exact fun t f member n chan wakes p k now => absurd now slept

theorem Reachable.wakeful (reached : Reachable blncflg m) : m.Wakeful := by
  apply reached.induct
  · intro pages code s booted
    rw [start_eq_first booted]
    exact first_wakeful
  · intro m c m' reached inv wakeful takes inv'
    cases takes with
    | list calling advances =>
      refine wakeful.list inv calling advances ?_
      split
      · exact .inr ⟨_, rfl⟩
      · exact .inl rfl
    | act top idle acts locked fits => exact wakeful.apply inv top idle acts locked fits
    | switch top idle switches => exact wakeful.switch inv top switches

end Machine

end OsbKernel
