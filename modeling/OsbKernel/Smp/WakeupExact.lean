import OsbKernel.Smp.Wakeup

/-!
# What a call of wakeup changes

A call of `wakeup` comes to every slot but that of its caller once.  A slot that it
finds asleep on the channel leaves `sleepingList` and joins one runnable list; it
touches no other slot.
-/

namespace OsbKernel

open Function LinkedChain
open scoped List

/-- The slots that the `n`-th call has come to. -/
def visited (n : Nat) (log : List Event) : List Slot :=
  log.filterMap fun
    | .visits n' q => if n' = n then some q else none
    | _ => none

def effectsOn (q : Slot) (log : List Event) : List ListCall :=
  log.filterMap fun
    | .effect call => if call.index = some q then some call else none
    | _ => none

/-- The calls of `wakeup` in a thread. -/
def wakeIds (fs : List Frame) : List Nat := fs.filterMap fun f => f.wakeup.map Prod.fst

/-- The slot that the next step of a call of `wakeup` is about. -/
def Frame.aims (self : Option Slot) : Frame → Option Slot
  | .wakeLoop _ _ (q :: _) => if self = some q then none else some q
  | f => f.visiting

@[simp] theorem visited_append (n : Nat) (log more : List Event) :
    visited n (log ++ more) = visited n log ++ visited n more :=
  List.filterMap_append

@[simp] theorem effectsOn_append (q : Slot) (log more : List Event) :
    effectsOn q (log ++ more) = effectsOn q log ++ effectsOn q more :=
  List.filterMap_append

variable {fs : List Frame} {self target : Option Slot} {events : List Event}

theorem mem_wakeIds {f : Frame} {n : Nat} {chan : Chan} (member : f ∈ fs)
    (wakes : f.wakeup = some (n, chan)) : n ∈ wakeIds fs :=
  List.mem_filterMap.mpr ⟨f, member, by rw [wakes]; rfl⟩

theorem exists_of_mem_wakeIds {n : Nat} (member : n ∈ wakeIds fs) :
    ∃ f ∈ fs, ∃ chan, f.wakeup = some (n, chan) := by
  obtain ⟨f, inside, same⟩ := List.mem_filterMap.mp member
  obtain ⟨⟨n', chan⟩, wakes, rfl⟩ := Option.map_eq_some_iff.mp same
  exact ⟨f, inside, chan, wakes⟩

theorem Frame.visiting_of_hold {f : Frame} {h : Hold} (wakes : f.wakeup ≠ none)
    (holds : f.hold self = some h) : f.visiting = some h.slot := by
  cases f with
  | wakeLoop => cases holds
  | wakeRemove | wakeAdd | wakeSkip =>
    cases holds
    rfl
  | _ => exact absurd rfl wakes

theorem Frame.aims_of_visiting {f : Frame} {i : Slot}
    (visiting : f.visiting = some i) :
    f.aims self = some i := by
  cases f with
  | wakeLoop => cases visiting
  | _ => exact visiting

namespace Machine

variable {blncflg : Bool} {m m' m₀ : Machine} {c c' : Cpu} {f g : Frame} {rest : List Frame}
  {d : Delta} {owner : KLock → Option Cpu} {i p q : Slot} {t : Thread} {chan : Chan} {n k : Nat}
  {todo : List Slot} {act : Act}

/-- Calls of `wakeup` are told apart, and each has come to the slots that it has left behind. -/
structure Covers (m : Machine) : Prop where
  nodup : ∀ t, (wakeIds (m.thread t)).Nodup
  apart : ∀ t t' n, n ∈ wakeIds (m.thread t) → n ∈ wakeIds (m.thread t') → t = t'
  fresh : ∀ n, m.log.length ≤ n → visited n m.log = []
  covers : ∀ t f, f ∈ m.thread t → ∀ n chan, f.wakeup = some (n, chan) →
    visited n m.log ++ f.todo.filter (some · ≠ t.self) = allSlots.filter (some · ≠ t.self)

theorem Acts.wakeIds_sublist (acts : Acts blncflg m c f rest d) :
    wakeIds d.frames <+ m.log.length :: wakeIds (f :: rest) := by
  cases acts with
  | wakeup | reparent | reparented => exact .refl _
  | wakeReturn => exact .cons _ (.cons _ (.refl _))
  | _ => exact .cons _ (.refl _)

theorem Acts.visited (acts : Acts blncflg m c f rest d) (n : Nat) :
    OsbKernel.visited n d.events = [] ∨ ∃ q g chan todo, OsbKernel.visited n d.events = [q] ∧
      f = .wakeLoop n chan (q :: todo) ∧ m.cpuProc c ≠ some q ∧ d.frames = g :: rest ∧
      g.wakeup = some (n, chan) ∧ g.todo = todo := by
  cases acts with
  | @wakeSleeper n' chan q todo rest other | @wakeLook n' chan q todo rest other =>
    by_cases same : n' = n
    · subst same
      exact .inr ⟨q, _, chan, todo, by simp [OsbKernel.visited], rfl, other, rfl, rfl, rfl⟩
    · exact .inl (by simp [OsbKernel.visited, same])
  | _ => exact .inl rfl

theorem Fits.wakeIds_thread (fits : Fits m c d owner) (top : m.frames c = f :: rest)
    (acts : Acts blncflg m c f rest d) (t : Thread) :
    (t = m.running c ∧ wakeIds ((m.apply c d owner).thread t) <+
        m.log.length :: wakeIds (m.thread t)) ∨
      (t ≠ m.running c ∧ wakeIds ((m.apply c d owner).thread t) <+ wakeIds (m.thread t)) := by
  by_cases self : t = m.running c
  · subst self
    left
    rw [fits.thread_self, ← frames_eq, top]
    exact ⟨rfl, acts.wakeIds_sublist⟩
  · right
    refine ⟨self, ?_⟩
    rcases apply_thread_other d owner self with same | ⟨started, _⟩
    · rw [same]
    · rw [started]
      exact List.nil_sublist _

theorem Wakeful.id_lt (wakeful : m.Wakeful) (member : n ∈ wakeIds (m.thread t)) :
    n < m.log.length := by
  obtain ⟨f, member, chan, wakes⟩ := exists_of_mem_wakeIds member
  exact wakeful.called t f member n chan wakes

theorem Covers.apply (covers : m.Covers) (wakeful : m.Wakeful) (inv : m.Inv)
    (top : m.frames c = f :: rest) (acts : Acts blncflg m c f rest d) (fits : Fits m c d owner) :
    (m.apply c d owner).Covers := by
  have thread : m.thread (m.running c) = f :: rest := (frames_eq m c).symm.trans top
  have idOf : ∀ {t n}, n ∈ wakeIds ((m.apply c d owner).thread t) →
      n ∈ wakeIds (m.thread t) ∨ (n = m.log.length ∧ t = m.running c) := by
    intro t n member
    rcases fits.wakeIds_thread top acts t with ⟨self, sub⟩ | ⟨_, sub⟩
    · rcases List.mem_cons.mp (sub.subset member) with now | before
      · exact .inr ⟨now, self⟩
      · exact .inl before
    · exact .inl (sub.subset member)
  constructor
  case nodup =>
    intro t
    rcases fits.wakeIds_thread top acts t with ⟨_, sub⟩ | ⟨_, sub⟩
    · refine sub.nodup (List.nodup_cons.mpr ⟨fun member => ?_, covers.nodup t⟩)
      exact absurd (wakeful.id_lt member) (Nat.lt_irrefl _)
    · exact sub.nodup (covers.nodup t)
  case apart =>
    intro t t' n member member'
    rcases idOf member with before | ⟨rfl, self⟩
    · rcases idOf member' with before' | ⟨rfl, _⟩
      · exact covers.apart t t' n before before'
      · exact absurd (wakeful.id_lt before) (Nat.lt_irrefl _)
    · rcases idOf member' with before' | ⟨_, self'⟩
      · exact absurd (wakeful.id_lt before') (Nat.lt_irrefl _)
      · exact self.trans self'.symm
  case fresh =>
    intro n long
    rw [apply_log, List.length_append] at long
    rw [apply_log, visited_append, covers.fresh n (by omega)]
    rcases acts.visited n with none | ⟨q, g, chan, todo, _, rfl, _⟩
    · rw [none]
      rfl
    · have := wakeful.called (m.running c) _ (by rw [thread]; exact List.mem_cons_self) n chan rfl
      omega
  case covers =>
    intro t g member n chan wakes
    rw [apply_log, visited_append]
    rcases fits.mem_thread member with ⟨rfl, mine⟩ | ⟨other, kept⟩ | rfl
    · rw [running_self]
      have covered : ∀ g', g' ∈ f :: rest → g'.wakeup = some (n, chan) →
          OsbKernel.visited n m.log ++ g'.todo.filter (some · ≠ m.cur c) =
            allSlots.filter (some · ≠ m.cur c) := by
        intro g' member' wakes'
        rw [← running_self]
        exact covers.covers _ g' (by rw [thread]; exact member') n chan wakes'
      rcases acts.visited n with none | ⟨q, g', chan', todo, one, rfl, other, frames, wakes', rest'⟩
      · rw [none, List.append_nil]
        have move := acts.wakeMove mine (by rw [wakes]; simp)
        generalize moved : d.events = events at move
        cases move with
        | kept member => exact covered g member wakes
        | called =>
          cases wakes
          rw [covers.fresh _ (Nat.le_refl _)]
          rfl
        | self before self =>
          subst before
          cases wakes
          rw [inv.cpuProc_eq top (by simp [Frame.wakeup])] at self
          have whole := covered _ List.mem_cons_self rfl
          rw [Frame.todo, List.filter_cons_of_neg (by simp [self])] at whole
          exact whole
        | sleeper before | look before =>
          cases wakes
          rw [moved] at none
          simp [OsbKernel.visited] at none
        | puts before | woken before | skipped before =>
          subst before
          cases wakes
          have whole := covered _ List.mem_cons_self rfl
          exact whole
      · rw [frames] at mine
        rw [inv.cpuProc_eq top (by simp [Frame.wakeup])] at other
        rcases List.mem_cons.mp mine with rfl | below
        · rw [wakes'] at wakes
          cases wakes
          have whole := covered _ List.mem_cons_self rfl
          rw [Frame.todo, List.filter_cons_of_pos (by simpa using Ne.symm other)] at whole
          rw [one, rest', List.append_assoc]
          exact whole
        · -- Two frames of one thread would belong to one call.
          have nodup := covers.nodup (m.running c)
          rw [thread] at nodup
          exact absurd (mem_wakeIds below wakes) (List.nodup_cons.mp nodup).1
    · have mine := mem_wakeIds kept wakes
      rcases acts.visited n with none | ⟨q, g', chan', todo, _, rfl, _⟩
      · rw [none, List.append_nil]
        exact covers.covers t g kept n chan wakes
      · refine absurd (covers.apart _ _ n mine ?_) other
        rw [thread]
        exact List.mem_cons_self
    · cases wakes

theorem Switches.wakeIds_thread
    (switches : Switches m c rest f target events fs) (top : m.frames c = f :: rest) (t : Thread) :
    wakeIds ((m.swtch c target events fs).thread t) = wakeIds (m.thread t) := by
  by_cases self : t = m.running c
  · subst self
    rw [swtch_thread_self, ← frames_eq, top]
    cases switches <;> rfl
  · rw [swtch_thread_other self]

theorem Covers.switch (covers : m.Covers) (top : m.frames c = f :: rest)
    (switches : Switches m c rest f target events fs) : (m.swtch c target events fs).Covers := by
  have silent : ∀ n, visited n events = [] := by
    intro n
    cases switches <;> rfl
  constructor
  · intro t
    rw [switches.wakeIds_thread top]
    exact covers.nodup t
  · intro t t' n
    rw [switches.wakeIds_thread top, switches.wakeIds_thread top]
    exact covers.apart t t' n
  · intro n long
    rw [swtch_log, List.length_append] at long
    rw [swtch_log, visited_append, silent, List.append_nil]
    exact covers.fresh n (by omega)
  · intro t g member n chan wakes
    rw [swtch_log, visited_append, silent, List.append_nil]
    exact covers.covers t g (switches.mem_thread top member (by rw [wakes]; nofun)) n chan wakes

theorem first_covers : first.Covers := by
  have noWakeup : ∀ t, wakeIds (first.thread t) = [] := by
    intro t
    rw [wakeIds, List.filterMap_eq_nil_iff]
    intro f member
    rcases first_thread member with rfl | rfl <;> rfl
  constructor
  · intro t
    rw [noWakeup t]
    exact List.nodup_nil
  · intro t t' n member
    rw [noWakeup t] at member
    cases member
  · intro n _
    rfl
  · intro t f member n chan wakes
    have := mem_wakeIds member wakes
    rw [noWakeup t] at this
    cases this

theorem Reachable.covers (reached : Reachable blncflg m) : m.Covers := by
  apply reached.induct
  · intro pages code s booted
    rw [start_eq_first booted]
    exact first_covers
  · intro m c m' reached inv covers takes inv'
    cases takes with
    | @list g ls calling advances =>
      have silent : ∀ n, visited n (if g.commits then [.effect g.call] else []) = [] := by
        intro n
        split <;> rfl
      refine ⟨covers.nodup, covers.apart, ?_, ?_⟩
      · intro n long
        rw [advanced_log, List.length_append] at long
        rw [advanced_log, visited_append, silent, List.append_nil]
        exact covers.fresh n (by omega)
      · intro t f member n chan wakes
        rw [advanced_log, visited_append, silent, List.append_nil]
        exact covers.covers t f member n chan wakes
    | act top idle acts locked fits => exact covers.apply reached.wakeful inv top acts fits
    | switch top idle switches => exact covers.switch top switches

def Untouched (m m' : Machine) (i : Slot) : Prop :=
  (m'.pcb i).state = (m.pcb i).state ∧ (m'.pcb i).chan = (m.pcb i).chan ∧
    ∀ l, i ∈ m'.ls.contents l ↔ i ∈ m.ls.contents l

theorem Takes.untouched (takes : Takes blncflg m c m') (inv : m.Inv)
    (top : m.frames c = f :: rest) (wakes : f.wakeup ≠ none)
    (other : f.aims (m.cpuProc c) ≠ some i) : Untouched m m' i := by
  cases takes with
  | @list g ls calling advances =>
    refine ⟨rfl, rfl, advances.listed fun concerns => other ?_⟩
    obtain ⟨h, holds, rfl, _⟩ := Frame.hold_of_call (inv.calling top calling) concerns
    exact Frame.aims_of_visiting (Frame.visiting_of_hold wakes holds)
  | act top' idle acts locked fits =>
    rw [top] at top'
    cases top'
    suffices fields : ((m.apply c _ _).pcb i).state = (m.pcb i).state ∧
        ((m.apply c _ _).pcb i).chan = (m.pcb i).chan by
      exact ⟨fields.1, fields.2, fun l => by rw [apply_contents]⟩
    cases acts with
    | interrupt | timer | wakeReturn | wakeSelf | wakeLook | wakeAdd | wakeSkip => exact ⟨rfl, rfl⟩
    | @wakeSleeper n chan q todo rest apart =>
      have away : i ≠ q := by
        rintro rfl
        rw [Frame.aims, if_neg apart] at other
        exact other rfl
      simp [setAt, update_of_ne away]
    | @wakeRemove n chan q todo rest t target =>
      have away : i ≠ q := by
        rintro rfl
        exact other rfl
      simp [setAt, update_of_ne away]
    | _ => exact absurd rfl wakes
  | switch top' idle switches =>
    rw [top] at top'
    cases top'
    cases switches <;> exact absurd rfl wakes

/-- CPU `c` has come to slot `q` in its call of `wakeup`, in the state `m₀`, and is still there
or has just left it. -/
inductive Visit (blncflg : Bool) (c : Cpu) (n : Nat) (chan : Chan) (q : Slot) (todo : List Slot)
    (rest : List Frame) (m₀ : Machine) : Machine → Prop where
  | comes {m : Machine} {act : Act} (top : m₀.frames c = .wakeLoop n chan (q :: todo) :: rest)
      (stepped : m₀.step blncflg c act = some m) (recorded : m.log = m₀.log ++ [.visits n q]) :
      Visit blncflg c n chan q todo rest m₀ m
  | goes {m m' : Machine} {f : Frame} (visit : Visit blncflg c n chan q todo rest m₀ m)
      (top : m.frames c = f :: rest) (stays : f.visiting = some q) (stepped : m.Step blncflg m') :
      Visit blncflg c n chan q todo rest m₀ m'

def SleepsOn (m : Machine) (q : Slot) (chan : Chan) : Prop :=
  (m.pcb q).state = .SLEEPING ∧ (m.pcb q).chan = chan

/-- The slot sleeps on the channel and is on `sleepingList`. -/
def FoundAsleep (m : Machine) (q : Slot) (chan : Chan) : Prop :=
  m.SleepsOn q chan ∧ q ∈ m.ls.contents .sleepingList

inductive VisitState (c : Cpu) (n : Nat) (chan : Chan) (q : Slot) (todo : List Slot)
    (rest : List Frame) (m₀ m : Machine) : Prop where
  | removes (top : m.frames c = .wakeRemove n chan q todo :: rest) (asleep : m₀.FoundAsleep q chan)
      (same : (m.pcb q).chan = chan)
      (effects : effectsOn q m.log = effectsOn q m₀.log ++
        if doneOf (m.ls.frame c) then [.remove .sleepingList q] else [])
  | adds {t : Cpu} (top : m.frames c = .wakeAdd n chan q t todo :: rest)
      (asleep : m₀.FoundAsleep q chan) (same : (m.pcb q).chan = chan)
      (effects : effectsOn q m.log = effectsOn q m₀.log ++ .remove .sleepingList q ::
        if doneOf (m.ls.frame c) then [.add (.runnable t) q] else [])
  | skips (top : m.frames c = .wakeSkip n chan q todo :: rest) (awake : ¬ m₀.SleepsOn q chan)
      (untouched : Untouched m₀ m q) (effects : effectsOn q m.log = effectsOn q m₀.log)
  | woke {t : Cpu} (top : m.frames c = .wakeLoop n chan todo :: rest)
      (asleep : m₀.FoundAsleep q chan) (state : (m.pcb q).state = .RUNNABLE)
      (same : (m.pcb q).chan = chan) (listed : q ∈ m.ls.contents (.runnable t))
      (effects : effectsOn q m.log = effectsOn q m₀.log ++
        [.remove .sleepingList q, .add (.runnable t) q])
  | skipped (top : m.frames c = .wakeLoop n chan todo :: rest) (awake : ¬ m₀.SleepsOn q chan)
      (untouched : Untouched m₀ m q) (effects : effectsOn q m.log = effectsOn q m₀.log)

structure Unaffected (m m' : Machine) (c : Cpu) (q : Slot) : Prop where
  frames : m'.frames c = m.frames c
  call : m'.ls.frame c = m.ls.frame c
  untouched : Untouched m m' q
  effects : effectsOn q m'.log = effectsOn q m.log

theorem Acts.effectsOn (acts : Acts blncflg m c f rest d) (q : Slot) :
    OsbKernel.effectsOn q d.events = [] := by
  cases acts <;> rfl

theorem Switches.effectsOn (switches : Switches m c rest f target events fs) (q : Slot) :
    OsbKernel.effectsOn q events = [] := by
  cases switches <;> rfl

theorem Takes.unaffected (takes : Takes blncflg m c' m') (inv : m.Inv) (other : c ≠ c')
    (owned : m.owner (.proc q) = some c) : Unaffected m m' c q := by
  cases takes with
  | @list g ls calling advances =>
    have apart : g.call.index ≠ some q := by
      intro concerns
      have mine := (inv.calling_slot calling concerns).1
      rw [owned] at mine
      exact other (Option.some.inj mine)
    refine ⟨rfl, advances.others c other, ⟨rfl, rfl, advances.listed apart⟩, ?_⟩
    split <;> simp [OsbKernel.effectsOn, apart]
  | act top idle acts locked fits =>
    have quiet := fits.quiet inv locked other
    have same := fits.same (i := q) locked (.inl ⟨by rw [owned]; nofun, by
      rw [owned]
      exact fun eq => other (Option.some.inj eq)⟩)
    refine ⟨quiet.frames, quiet.call, ⟨same.1, same.2.1, quiet.listed q (.inl owned)⟩, ?_⟩
    rw [apply_log, effectsOn_append, acts.effectsOn, List.append_nil]
  | switch top idle switches =>
    refine ⟨swtch_frames_other inv other, by rw [swtch_ls], ⟨by rw [swtch_pcb],
      by rw [swtch_pcb], fun l => by rw [swtch_ls]⟩, ?_⟩
    rw [swtch_log, effectsOn_append, switches.effectsOn, List.append_nil]

theorem Advances.effectsOn {ls ls' : ListSys Cpu} {g : ListFrame} (advances : Advances ls ls' c g)
    (calling : ls.frame c = some g) (concerns : g.call.index = some q) :
    (if doneOf (ls.frame c) then [g.call] else []) ++
        OsbKernel.effectsOn q (if g.commits then [.effect g.call] else []) =
      if doneOf (ls'.frame c) then [g.call] else [] := by
  rw [advances.done (by rw [concerns]; nofun), calling]
  cases commits : g.commits with
  | false =>
    rw [Bool.or_false]
    exact List.append_nil _
  | true => simp [doneOf, ListFrame.commits_not_done commits, OsbKernel.effectsOn, concerns]

theorem Untouched.trans {m₁ m₂ m₃ : Machine} (first : Untouched m₁ m₂ q)
    (second : Untouched m₂ m₃ q) : Untouched m₁ m₃ q :=
  ⟨second.1.trans first.1, second.2.1.trans first.2.1,
    fun l => (second.2.2 l).trans (first.2.2 l)⟩

theorem Takes.of_visiting (takes : Takes blncflg m c m') (top : m.frames c = f :: rest)
    (wakes : f.wakeup ≠ none) {h : Hold} (holds : f.hold (m.cur c) = some h) :
    (∃ g ls, m.ls.frame c = some g ∧ Advances m.ls ls c g ∧
        m' = m.advanced ls (if g.commits then [.effect g.call] else [])) ∨
      ∃ d owner, m.ls.frame c = none ∧ Acts blncflg m c f rest d ∧ Fits m c d owner ∧
        m.held c ≠ [] ∧ m' = m.apply c d owner := by
  cases takes with
  | @list g ls calling advances => exact .inl ⟨g, ls, calling, advances, rfl⟩
  | @act f' rest' d owner top' idle acts locked fits =>
    rw [top] at top'
    cases top'
    refine .inr ⟨d, owner, idle ?_, acts, fits, ?_, rfl⟩
    · cases f with
      | wakeLoop | wakeRemove | wakeAdd | wakeSkip => rfl
      | _ => exact absurd rfl wakes
    · intro free
      rw [hold_of_held top free] at holds
      cases holds
  | switch top' idle switches =>
    rw [top] at top'
    cases top'
    cases switches <;> exact absurd rfl wakes

theorem VisitState.step (visit : VisitState c n chan q todo rest m₀ m) (inv : m.Inv)
    (takes : Takes blncflg m c' m') (top : m.frames c = f :: rest) (stays : f.visiting = some q) :
    VisitState c n chan q todo rest m₀ m' := by
  cases visit with
  | removes top' asleep same effects =>
    by_cases other : c = c'
    · subst other
      rcases takes.of_visiting top' (by simp [Frame.wakeup]) rfl with
        ⟨g, ls, calling, advances, rfl⟩ | ⟨d, owner, idle, acts, fits, locked, rfl⟩
      · have call : .remove .sleepingList q = g.call := Option.some.inj (inv.calling top' calling)
        refine .removes top' asleep same ?_
        rw [advanced_log, effectsOn_append, effects, call, List.append_assoc,
          Advances.effectsOn advances calling (by rw [← call]; rfl)]
        rfl
      · cases acts with
        | interrupt held | timer _ held => exact absurd held locked
        | @wakeRemove _ _ _ _ _ t target =>
          refine .adds fits.frames_self asleep ?_ ?_
          · rw [apply_pcb]
            simp only [setAt, update_self]
            exact placed_same.2.1.trans same
          · rw [apply_log, effectsOn_append, effects, apply_call_self, idle]
            simp [doneOf, ListFrame.start_done, OsbKernel.effectsOn]
    · have still := takes.unaffected inv other (inv.owner_of_hold top' rfl)
      refine .removes (still.frames.trans top') asleep (still.untouched.2.1.trans same) ?_
      rw [still.effects, still.call]
      exact effects
  | @adds t top' asleep same effects =>
    by_cases other : c = c'
    · subst other
      rcases takes.of_visiting top' (by simp [Frame.wakeup]) rfl with
        ⟨g, ls, calling, advances, rfl⟩ | ⟨d, owner, idle, acts, fits, locked, rfl⟩
      · have call : .add (.runnable t) q = g.call := Option.some.inj (inv.calling top' calling)
        refine .adds top' asleep same ?_
        rw [advanced_log, effectsOn_append, effects, call, List.append_assoc, List.cons_append,
          Advances.effectsOn advances calling (by rw [← call]; rfl)]
        rfl
      · have known := inv.topOk top'
        have state : (m.pcb q).state = .RUNNABLE := (known.hold _ rfl).state _ rfl
        have listed : q ∈ m.ls.contents (.runnable t) := by
          rcases known.call with ⟨g, calling, _⟩ | ⟨_, post⟩
          · rw [idle] at calling
            cases calling
          · exact post
        cases acts with
        | interrupt held | timer _ held => exact absurd held locked
        | wakeAdd =>
          refine .woke (t := t) fits.frames_self asleep state same ?_ ?_
          · exact listed
          · rw [apply_log, effectsOn_append, effects, idle]
            simp [doneOf, OsbKernel.effectsOn]
    · have still := takes.unaffected inv other (inv.owner_of_hold top' rfl)
      refine .adds (still.frames.trans top') asleep (still.untouched.2.1.trans same) ?_
      rw [still.effects, still.call]
      exact effects
  | skips top' awake untouched effects =>
    by_cases other : c = c'
    · subst other
      rcases takes.of_visiting top' (by simp [Frame.wakeup]) rfl with
        ⟨g, ls, calling, advances, rfl⟩ | ⟨d, owner, idle, acts, fits, locked, rfl⟩
      · cases inv.calling top' calling
      · cases acts with
        | interrupt held | timer _ held => exact absurd held locked
        | wakeSkip =>
          refine .skipped fits.frames_self awake (untouched.trans ?_) ?_
          · exact ⟨rfl, rfl, fun l => by rw [apply_contents]⟩
          · rw [apply_log, effectsOn_append, effects]
            exact List.append_nil _
    · have still := takes.unaffected inv other (inv.owner_of_hold top' rfl)
      exact .skips (still.frames.trans top') awake (untouched.trans still.untouched)
        (still.effects.trans effects)
  | woke top' | skipped top' =>
    rw [top] at top'
    cases top'
    cases stays

theorem VisitState.comes (inv : m.Inv) (takes : Takes blncflg m c m')
    (top : m.frames c = .wakeLoop n chan (q :: todo) :: rest)
    (recorded : m'.log = m.log ++ [.visits n q]) : VisitState c n chan q todo rest m m' := by
  cases takes with
  | list calling advances => cases inv.calling top calling
  | switch top' idle switches =>
    rw [top] at top'
    cases top'
    cases switches
  | act top' idle acts locked fits =>
    rw [top] at top'
    cases top'
    have events := List.append_cancel_left recorded
    cases acts with
    | interrupt | timer | wakeSelf => cases events
    | wakeSleeper other asleep same =>
      have home := inv.rest q (lockAfter_acquire locked).1
      rw [Home, asleep] at home
      refine .removes fits.frames_self ⟨⟨asleep, same⟩, home⟩ ?_ ?_
      · simpa [setAt] using same
      · rw [apply_log, effectsOn_append, apply_call_self]
        simp [doneOf, ListFrame.start_done, OsbKernel.effectsOn]
    | wakeLook other awake =>
      refine .skips fits.frames_self awake ⟨rfl, rfl, fun l => by rw [apply_contents]⟩ ?_
      rw [apply_log, effectsOn_append]
      exact List.append_nil _

theorem Visit.state (visit : Visit blncflg c n chan q todo rest m₀ m)
    (reached : Reachable blncflg m₀) :
    Reachable blncflg m ∧ VisitState c n chan q todo rest m₀ m := by
  induction visit with
  | comes top stepped recorded =>
    refine ⟨.step reached ⟨c, _, stepped⟩, ?_⟩
    exact .comes reached.inv (reached.inv.takes_of_step stepped) top recorded
  | goes visit top stays stepped ih =>
    obtain ⟨before, state⟩ := ih
    refine ⟨.step before stepped, ?_⟩
    obtain ⟨c', act, stepped⟩ := stepped
    exact state.step before.inv (before.inv.takes_of_step stepped) top stays

/-- When a call of `wakeup` is about to return, a process that released the lock of its caller
in `sleep` before the call has been dispatched since, or is on a runnable list. -/
def NotLost (m : Machine) : Prop :=
  ∀ c n chan rest p lk before between after,
    m.frames c = .wakeLoop n chan [] :: rest →
    m.log = before ++ .slept p chan lk :: between ++ .wakes n chan :: after →
    (∃ c', .dispatch c' p ∈ between ++ after) ∨ m.Ready p

/-- A call of `wakeup` that is about to return has come to every slot but that of its caller
once, and its caller is not asleep. -/
def Complete (m : Machine) : Prop :=
  ∀ c n chan todo rest, m.frames c = .wakeLoop n chan todo :: rest →
    (∀ p, m.cpuProc c = some p → ¬ m.SleepsOn p chan) ∧
      (todo = [] → visited n m.log = allSlots.filter (some · ≠ m.cpuProc c))

/-- A step of a call of `wakeup` touches no slot but the one that it is about. -/
def Confined (blncflg : Bool) (m : Machine) : Prop :=
  ∀ c act m' f rest i, m.step blncflg c act = some m' → m.frames c = f :: rest →
    f.wakeup ≠ none → f.aims (m.cpuProc c) ≠ some i → Untouched m m' i

/-- A visit that begins here moves a slot that sleeps on the channel from `sleepingList` to one
runnable list once, and does nothing to any other slot. -/
def MovesSleepers (blncflg : Bool) (m : Machine) : Prop :=
  ∀ c n chan q todo rest m', Visit blncflg c n chan q todo rest m m' →
    m'.frames c = .wakeLoop n chan todo :: rest →
    (m.SleepsOn q chan → q ∈ m.ls.contents .sleepingList ∧ (m'.pcb q).state = .RUNNABLE ∧
      (m'.pcb q).chan = chan ∧ ∃ t, q ∈ m'.ls.contents (.runnable t) ∧
        effectsOn q m'.log = effectsOn q m.log ++
          [.remove .sleepingList q, .add (.runnable t) q]) ∧
    (¬ m.SleepsOn q chan → Untouched m m' q ∧ effectsOn q m'.log = effectsOn q m.log)

theorem Reachable.notLost (reached : Reachable blncflg m) : m.NotLost := by
  intro c n chan rest p lk before between after top log
  by_cases ran : ∃ c', .dispatch c' p ∈ between ++ after
  · exact .inl ran
  · right
    have wakeful := reached.wakeful
    have inside : Frame.wakeLoop n chan [] ∈ m.thread (m.running c) := by
      rw [← frames_eq, top]
      exact List.mem_cons_self
    have slept : SleptAt p chan before.length m.log := by
      refine ⟨before, lk, between ++ .wakes n chan :: after, by rw [log]; simp, rfl, ?_⟩
      intro c' member
      rcases List.mem_append.mp member with early | late
      · exact ran ⟨c', List.mem_append_left _ early⟩
      · rcases List.mem_cons.mp late with same | late
        · cases same
        · exact ran ⟨c', List.mem_append_right _ late⟩
    have stamp := wakeful.stamped _ n chan after log
    have order : before.length < n := by
      rw [← stamp, List.length_append, List.length_cons]
      omega
    exact wakeful.woke _ _ inside n chan rfl p _ slept order List.not_mem_nil nofun

theorem Reachable.complete (reached : Reachable blncflg m) : m.Complete := by
  intro c n chan todo rest top
  have inv := reached.inv
  have caller := inv.cpuProc_eq top nofun
  constructor
  · rintro p here ⟨asleep, _⟩
    rw [caller] at here
    rw [(inv.runs top nofun p here).1] at asleep
    cases asleep
  · rintro rfl
    have covered := reached.covers.covers (m.running c) (.wakeLoop n chan [])
      (by rw [← frames_eq, top]; exact List.mem_cons_self) n chan rfl
    rw [running_self, ← caller, Frame.todo, List.filter_nil, List.append_nil] at covered
    exact covered

theorem Reachable.movesSleepers (reached : Reachable blncflg m) : m.MovesSleepers blncflg := by
  intro c n chan q todo rest m' visit finished
  cases (visit.state reached).2 with
  | removes top | adds top | skips top =>
    rw [finished] at top
    cases top
  | @woke t top asleep state same listed effects =>
    exact ⟨fun _ => ⟨asleep.2, state, same, t, listed, effects⟩,
      fun awake => absurd asleep.1 awake⟩
  | skipped top awake untouched effects =>
    exact ⟨fun asleep => absurd asleep awake, fun _ => ⟨untouched, effects⟩⟩

/-- In every state of every run no wakeup is lost, and a call of `wakeup` moves the slots that it
finds asleep on its channel and nothing else. -/
theorem wakeup_exact (reached : Reachable blncflg m) :
    m.NotLost ∧ m.Complete ∧ m.Confined blncflg ∧ m.MovesSleepers blncflg := by
  refine ⟨reached.notLost, reached.complete, ?_, reached.movesSleepers⟩
  intro c act m' f rest i stepped top wakes other
  exact (reached.inv.takes_of_step stepped).untouched reached.inv top wakes other

/-- Init sleeps on CPU 0.  CPU 1 takes the lock that it has given up and calls `wakeup` before
init has set its state. -/
def sleepAndWakeup : List (Cpu × Act) :=
  List.replicate 11 (0, .run) ++ [(0, .acquire 5), (0, .sleep (.object 7) 5)] ++
    List.replicate 6 (0, .run) ++ [(1, .call), (1, .acquire 5), (1, .wakeup (.object 7))] ++
    List.replicate 3 (0, .run) ++ List.replicate 137 (1, .run)

/-- When that call of `wakeup` is about to return, it has come to all slots, and init is on a
runnable list. -/
theorem wakeup_exact_init : ∃ m, Reachable false m ∧
    (∃ rest, m.frames 1 = .wakeLoop 6 (.object 7) [] :: rest) ∧ m.Ready 0 ∧
    visited 6 m.log = allSlots := by
  have ran : (first.run false sleepAndWakeup).map (fun m =>
      (m.frames 1, m.cpuProc 1, m.log.take 7, m.log.drop 7 |>.filter fun
        | .dispatch _ _ => true
        | _ => false)) =
      some ([.wakeLoop 6 (.object 7) [], .code [5], .schedIdle], none,
        [.effect (.add (.runnable 0) 0), .dispatch 0 0, .effect (.remove (.runnable 0) 0),
          .switch 0 0, .effect (.add .sleepingList 0), .slept 0 (.object 7) (.other 5),
          .wakes 6 (.object 7)], []) := by
    decide +kernel
  obtain ⟨m, found, now⟩ := Option.map_eq_some_iff.mp ran
  simp only [Prod.mk.injEq] at now
  obtain ⟨top, caller, early, none⟩ := now
  have reached := (first_reachable false).run found
  obtain ⟨notLost, complete, _, _⟩ := wakeup_exact reached
  refine ⟨m, reached, ⟨_, top⟩, ?_, ?_⟩
  · have log := (List.take_append_drop 7 m.log).symm
    rw [early] at log
    rcases notLost 1 6 (.object 7) _ 0 (.other 5) [.effect (.add (.runnable 0) 0), .dispatch 0 0,
        .effect (.remove (.runnable 0) 0), .switch 0 0, .effect (.add .sleepingList 0)] []
        (m.log.drop 7) top log with
      ⟨c', ran⟩ | ready
    · exact absurd rfl (List.filter_eq_nil_iff.mp none _ ran)
    · exact ready
  · rw [(complete 1 6 (.object 7) [] _ top).2 rfl, caller]
    simp

end Machine

end OsbKernel
