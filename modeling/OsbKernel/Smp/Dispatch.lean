import OsbKernel.Smp.Threads

/-!
# Dispatching in order of arrival

A scheduler reads the head of its list, gives the list lock back, and removes the head with a
second call, while other CPUs append. Only a CPU's own scheduler removes from its list, so what it
has read stays the head. The slots appended are therefore those switched to, at most one about to
be, and those on the list, in this order.
-/

namespace OsbKernel

open Function
open LinkedChain
open scoped List

/-- The slots that the scheduler of CPU `c` has switched to. -/
def switched (c : Cpu) (log : List Event) : List Slot :=
  log.filterMap fun
    | .switch c' p => if c' = c then some p else none
    | _ => none

/-- The slots appended to `cpus[c].runnable`, in the order in which the calls took effect. -/
def appended (c : Cpu) (log : List Event) : List Slot :=
  log.filterMap fun
    | .effect (.add (.runnable c') i) => if c' = c then some i else none
    | _ => none

/-- The slots taken off `cpus[c].runnable`. -/
def removed (c : Cpu) (log : List Event) : List Slot :=
  log.filterMap fun
    | .effect (.remove (.runnable c') i) => if c' = c then some i else none
    | _ => none

def Event.dispatches : Event → Bool
  | .effect _ => true
  | .switch _ _ => true
  | _ => false

section Log

variable {c c' : Cpu} {log events : List Event} {i : Slot}

theorem switched_append : switched c (log ++ events) = switched c log ++ switched c events :=
  List.filterMap_append

theorem appended_append : appended c (log ++ events) = appended c log ++ appended c events :=
  List.filterMap_append

theorem removed_append : removed c (log ++ events) = removed c log ++ removed c events :=
  List.filterMap_append

theorem silent_of_not_dispatches (other : ∀ e ∈ events, e.dispatches = false) :
    switched c events = [] ∧ appended c events = [] ∧ removed c events = [] := by
  refine ⟨?_, ?_, ?_⟩ <;>
  · apply List.filterMap_eq_nil_iff.mpr
    intro e member
    have quiet := other e member
    cases e with
    | effect call | switch c' p => cases quiet
    | _ => rfl

end Log

namespace Machine

variable {blncflg : Bool} {m m' : Machine} {c c' : Cpu} {f : Frame} {rest : List Frame}
  {d : Delta} {p i : Slot}

theorem Acts.not_dispatches (acts : Acts blncflg m c f rest d) :
    ∀ e ∈ d.events, e.dispatches = false := by
  cases acts <;> simp [Event.dispatches, wakeupEvent]

/-- The slot that the scheduler has taken off its list and not switched to yet. -/
def inHand (m : Machine) (c : Cpu) : List Slot :=
  match m.sched c with
  | [.schedRemove p] => if doneOf (m.ls.frame c) then [p] else []
  | _ => []

/-- The slot that the scheduler has chosen and not taken off its list yet. -/
def chosen (m : Machine) (c : Cpu) : Option Slot :=
  match m.sched c with
  | [.schedGot p] => some p
  | [.schedRemove p] => if doneOf (m.ls.frame c) then none else some p
  | _ => none

structure Queue (m : Machine) : Prop where
  listed : ∀ c, appended c m.log = removed c m.log ++ m.ls.contents (.runnable c)
  taken : ∀ c, removed c m.log = switched c m.log ++ m.inHand c
  front : ∀ c p, m.chosen c = some p → (m.ls.contents (.runnable c)).head? = some p

theorem inHand_congr (sched : m'.sched c = m.sched c)
    (done : ∀ p, m.sched c = [.schedRemove p] → doneOf (m'.ls.frame c) = doneOf (m.ls.frame c)) :
    m'.inHand c = m.inHand c ∧ m'.chosen c = m.chosen c := by
  unfold inHand chosen
  rw [sched]
  by_cases removes : ∃ p, m.sched c = [.schedRemove p]
  · obtain ⟨p, found⟩ := removes
    rw [found, done p found]
    exact ⟨rfl, rfl⟩
  · constructor
    · split
      · rename_i p found
        exact absurd ⟨p, found⟩ removes
      · rfl
    · split
      · rfl
      · rename_i p found
        exact absurd ⟨p, found⟩ removes
      · rfl

theorem inHand_of_free (free : ∀ g, m.sched c = [g] → g.hold none = none) :
    m.inHand c = [] ∧ m.chosen c = none := by
  unfold inHand chosen
  constructor
  · split
    · rename_i p found
      cases free _ found
    · rfl
  · split
    · rename_i p found
      cases free _ found
    · rename_i p found
      cases free _ found
    · rfl

theorem Inv.inHand_of_running (inv : m.Inv) (here : m.cur c = some p) :
    m.inHand c = [] ∧ m.chosen c = none := by
  unfold inHand chosen
  rw [inv.back c p here]
  exact ⟨rfl, rfl⟩

variable {g : ListFrame} {l : ListId} {ls : ListSys Cpu}

theorem Inv.calling_sched (inv : m.Inv) (sched : m.sched c = [.schedRemove p])
    (calling : m.ls.frame c = some g) : g.call = .remove (.runnable c) p := by
  have here : m.cur c = none := by
    cases here : m.cur c with
    | none => rfl
    | some q =>
      rw [inv.back c q here] at sched
      cases sched
  have top : m.frames c = [.schedRemove p] := by
    rw [frames, here]
    exact sched
  have calls := inv.calling top calling
  exact (Option.some.inj calls).symm

theorem logged_add : switched c [.effect (.add l i)] = [] ∧
    appended c [.effect (.add l i)] = (if l = .runnable c then [i] else []) ∧
    removed c [.effect (.add l i)] = [] := by
  refine ⟨rfl, ?_, rfl⟩
  cases l with
  | runnable c' =>
    by_cases same : c' = c
    · simp [appended, same]
    · simp [appended, same]
  | _ => simp [appended]

theorem logged_remove : switched c [.effect (.remove l i)] = [] ∧
    appended c [.effect (.remove l i)] = [] ∧
    removed c [.effect (.remove l i)] = (if l = .runnable c then [i] else []) := by
  refine ⟨rfl, rfl, ?_⟩
  cases l with
  | runnable c' =>
    by_cases same : c' = c
    · simp [removed, same]
    · simp [removed, same]
  | _ => simp [removed]

theorem Queue.silent (queue : m.Queue) (inv : m.Inv)
    (calling : m.ls.frame c = some g) (advances : Advances m.ls ls c g)
    (silent : g.commits = false) : (m.advanced ls []).Queue := by
  have same : ∀ c', (m.advanced ls []).inHand c' = m.inHand c' ∧
      (m.advanced ls []).chosen c' = m.chosen c' := by
    intro c'
    refine inHand_congr rfl fun p found => ?_
    by_cases self : c' = c
    · subst self
      have call := inv.calling_sched found calling
      rw [advanced_ls, advances.done (by rw [call]; nofun), silent, Bool.or_false, calling]
      rfl
    · exact congrArg doneOf (advances.others c' self)
  have contents := advances.contents
  rw [silent] at contents
  constructor
  · intro c'
    rw [advanced_log, advanced_ls, List.append_nil, contents]
    exact queue.listed c'
  · intro c'
    rw [(same c').1, advanced_log, List.append_nil]
    exact queue.taken c'
  · intro c' p found
    rw [(same c').2] at found
    rw [advanced_ls, contents]
    exact queue.front c' p found

theorem Queue.added (queue : m.Queue) (inv : m.Inv)
    (calling : m.ls.frame c = some g) (advances : Advances m.ls ls c g) (commits : g.commits = true)
    (call : g.call = .add l i) :
    (m.advanced ls [.effect (.add l i)]).Queue := by
  have same : ∀ c',
      (m.advanced ls [.effect (.add l i)]).inHand c' = m.inHand c' ∧
      (m.advanced ls [.effect (.add l i)]).chosen c' =
        m.chosen c' := by
    intro c'
    refine inHand_congr rfl fun p found => ?_
    by_cases self : c' = c
    · subst self
      have other := inv.calling_sched found calling
      rw [call] at other
      cases other
    · exact congrArg doneOf (advances.others c' self)
  have contents : ls.contents = put m.ls.contents l i := by
    rw [advances.contents, commits, call]
    rfl
  constructor
  · intro c'
    rw [advanced_log, advanced_ls, appended_append, removed_append, logged_add.2.1,
      logged_add.2.2, queue.listed, contents]
    by_cases here : l = .runnable c'
    · subst here
      simp [put]
    · simp [put, here, update_of_ne (Ne.symm here)]
  · intro c'
    rw [(same c').1, advanced_log, removed_append, switched_append, logged_add.1, logged_add.2.2,
      List.append_nil, List.append_nil]
    exact queue.taken c'
  · intro c' p found
    rw [(same c').2] at found
    have front := queue.front c' p found
    rw [advanced_ls, contents]
    by_cases here : l = .runnable c'
    · subst here
      simp [put, List.head?_append, front]
    · rw [put, update_of_ne (Ne.symm here)]
      exact front

theorem Queue.removed_other (queue : m.Queue)
    (inv : m.Inv) (calling : m.ls.frame c = some g) (advances : Advances m.ls ls c g)
    (commits : g.commits = true) (call : g.call = .remove l i) (other : ∀ c', l ≠ .runnable c') :
    (m.advanced ls [.effect (.remove l i)]).Queue := by
  have same : ∀ c', (m.advanced ls [.effect (.remove l i)]).inHand c' = m.inHand c' ∧
      (m.advanced ls [.effect (.remove l i)]).chosen c' = m.chosen c' := by
    intro c'
    refine inHand_congr rfl fun p found => ?_
    by_cases self : c' = c
    · subst self
      have called := inv.calling_sched found calling
      rw [call] at called
      cases called
      exact absurd rfl (other c')
    · exact congrArg doneOf (advances.others c' self)
  have contents : ∀ c', ls.contents (.runnable c') = m.ls.contents (.runnable c') := by
    intro c'
    rw [advances.contents, commits, call]
    exact update_of_ne (Ne.symm (other c')) _ _
  constructor
  · intro c'
    rw [advanced_log, advanced_ls, appended_append, removed_append, logged_remove.2.1,
      logged_remove.2.2, if_neg (other c'), List.append_nil, List.append_nil, contents]
    exact queue.listed c'
  · intro c'
    rw [(same c').1, advanced_log, removed_append, switched_append, logged_remove.1,
      logged_remove.2.2, if_neg (other c'), List.append_nil, List.append_nil]
    exact queue.taken c'
  · intro c' p found
    rw [(same c').2] at found
    rw [advanced_ls, contents]
    exact queue.front c' p found

theorem Queue.removed_head (queue : m.Queue) (inv : m.Inv)
    (calling : m.ls.frame c = some g) (advances : Advances m.ls ls c g) (commits : g.commits = true)
    (call : g.call = .remove (.runnable c) i) :
    (m.advanced ls [.effect (.remove (.runnable c) i)]).Queue := by
  obtain ⟨_, _, sched⟩ := inv.remover calling call
  have before : m.inHand c = [] ∧ m.chosen c = some i := by
    unfold inHand chosen
    rw [sched, calling, doneOf, ListFrame.commits_not_done commits]
    exact ⟨rfl, rfl⟩
  have now : doneOf (ls.frame c) = true := by
    rw [advances.done (by rw [call]; simp [ListCall.index]), commits, Bool.or_true]
  have after : (m.advanced ls [.effect (.remove (.runnable c) i)]).inHand c = [i] ∧
      (m.advanced ls [.effect (.remove (.runnable c) i)]).chosen c = none := by
    unfold inHand chosen
    rw [advanced_sched, advanced_ls, sched, now]
    exact ⟨rfl, rfl⟩
  obtain ⟨tail, shape⟩ := List.head?_eq_some_iff.mp (queue.front c i before.2)
  have contents : ls.contents = drop m.ls.contents (.runnable c) i := by
    rw [advances.contents, commits, call]
    rfl
  have left : ls.contents (.runnable c) = tail := by
    rw [contents, drop, update_self, shape, List.erase_cons_head]
  have others : ∀ {c'}, c' ≠ c → ListId.runnable c' ≠ .runnable c := by
    rintro c' apart ⟨⟩
    exact apart rfl
  have same : ∀ c', c' ≠ c →
      (m.advanced ls [.effect (.remove (.runnable c) i)]).inHand c' = m.inHand c' ∧
      (m.advanced ls [.effect (.remove (.runnable c) i)]).chosen c' = m.chosen c' :=
    fun c' apart => inHand_congr rfl fun p _ => congrArg doneOf (advances.others c' apart)
  have kept : ∀ c', c' ≠ c → ls.contents (.runnable c') = m.ls.contents (.runnable c') := by
    intro c' apart
    rw [contents]
    exact update_of_ne (others apart) _ _
  constructor
  · intro c'
    rw [advanced_log, advanced_ls, appended_append, removed_append, logged_remove.2.1,
      logged_remove.2.2, List.append_nil, queue.listed]
    by_cases self : c' = c
    · subst self
      rw [left, shape, if_pos rfl, List.append_assoc, List.singleton_append]
    · rw [kept c' self, if_neg (Ne.symm (others self)), List.append_nil]
  · intro c'
    rw [advanced_log, removed_append, switched_append, logged_remove.1, logged_remove.2.2,
      List.append_nil, queue.taken]
    by_cases self : c' = c
    · subst self
      rw [after.1, before.1, if_pos rfl, List.append_nil]
    · rw [(same c' self).1, if_neg (Ne.symm (others self)), List.append_nil]
  · intro c' p found
    by_cases self : c' = c
    · subst self
      rw [after.2] at found
      cases found
    · rw [(same c' self).2] at found
      rw [advanced_ls, kept c' self]
      exact queue.front c' p found

/-- What the scheduler has in hand after a step of its own: nothing, the head of the
list that it has locked, or the slot that it had already chosen. -/
theorem Acts.sched_cases (inv : m.Inv) (here : m.cur c = none) (top : m.frames c = f :: rest)
    (acts : Acts blncflg m c f rest d) :
    (∀ g, d.frames = [g] → g.hold none = none) ∨
    (∃ p, d.frames = [.schedGot p] ∧ (m.ls.contents (.runnable c)).head? = some p) ∨
    (∃ p, f :: rest = [.schedGot p] ∧ d.frames = [.schedRemove p] ∧
      d.call = some (.remove (.runnable c) p)) := by
  have sits := inv.sits top
  have under := (inv.shape_rest top).1
  rw [here] at under
  cases acts with
  | ret | wakeReturn =>
    left
    rintro g ⟨⟩
    exact under g List.mem_cons_self
  | schedLook _ picks head =>
    obtain ⟨_, rfl⟩ := sits
    exact .inr (.inl ⟨_, rfl, inv.listed_of_head picks head⟩)
  | schedGot =>
    obtain ⟨_, rfl⟩ := sits
    exact .inr (.inr ⟨_, rfl, rfl, rfl⟩)
  | wakeSelf | wakeSleeper | wakeLook | wakeRemove | wakeAdd | wakeSkip =>
    left
    rintro g ⟨⟩
    exact absurd rfl sits
  | interrupt | acquire | release | wakeup | schedIdle | schedEmpty | schedNone | schedBack =>
    left
    rintro g ⟨⟩
    try rfl
  | _ => exact absurd (here.symm.trans ‹m.cur c = some _›) nofun

theorem Acts.inHand_nil (here : m.cur c = none) (top : m.frames c = f :: rest)
    (acts : Acts blncflg m c f rest d) : m.inHand c = [] := by
  unfold inHand
  split
  · rename_i p sched
    rw [sched_of_frames here top] at sched
    cases sched
    cases acts with
    | interrupt held idle =>
      have member : .proc p ∈ m.held c := hold_mem_held top rfl
      rw [held] at member
      cases member
    | timer running => exact absurd (here.symm.trans running) nofun
  · rfl

theorem Queue.apply {owner : KLock → Option Cpu} (queue : m.Queue) (inv : m.Inv)
    (top : m.frames c = f :: rest) (acts : Acts blncflg m c f rest d)
    (inv' : (m.apply c d owner).Inv) : (m.apply c d owner).Queue := by
  have quiet : ∀ c', switched c' d.events = [] ∧ appended c' d.events = [] ∧
      removed c' d.events = [] := fun _ => silent_of_not_dispatches acts.not_dispatches
  have others : ∀ c', c' ≠ c → (m.apply c d owner).inHand c' = m.inHand c' ∧
      (m.apply c d owner).chosen c' = m.chosen c' := by
    intro c' other
    refine inHand_congr ?_ fun _ _ => congrArg doneOf (apply_call_other other)
    rw [apply_sched]
    cases m.cur c with
    | some p => rfl
    | none => exact update_of_ne other _ _
  -- In its own scheduler, a step can only choose the head of the list.
  have self : (m.apply c d owner).inHand c = m.inHand c ∧ ∀ p,
      (m.apply c d owner).chosen c = some p → (m.ls.contents (.runnable c)).head? = some p := by
    cases here : m.cur c with
    | some q =>
      obtain ⟨empty, none⟩ := inv'.inHand_of_running (c := c) (p := q) (by rw [apply_cur, here])
      refine ⟨by rw [empty, (inv.inHand_of_running here).1], fun p found => ?_⟩
      rw [none] at found
      cases found
    | none =>
      have before := acts.inHand_nil here top
      have sched : (m.apply c d owner).sched c = d.frames := by
        rw [apply_sched, here]
        exact update_self _ _ _
      obtain free | ⟨p, frames, head⟩ | ⟨p, got, frames, call⟩ := acts.sched_cases inv here top
      · obtain ⟨empty, none⟩ := inHand_of_free (m := m.apply c d owner) (c := c)
          (by rw [sched]; exact free)
        refine ⟨by rw [empty, before], fun p found => ?_⟩
        rw [none] at found
        cases found
      · rw [before]
        unfold inHand chosen
        rw [sched, frames]
        exact ⟨rfl, fun p' found => found ▸ head⟩
      · have head := queue.front c p (by unfold chosen; rw [sched_of_frames here top, got])
        rw [before]
        unfold inHand chosen
        rw [sched, frames, apply_call_self, call]
        exact ⟨rfl, fun p' found => found ▸ head⟩
  constructor
  · intro c'
    rw [apply_log, apply_contents, appended_append, removed_append, (quiet c').2.1, (quiet c').2.2,
      List.append_nil, List.append_nil]
    exact queue.listed c'
  · intro c'
    rw [apply_log, removed_append, switched_append, (quiet c').1, (quiet c').2.2, List.append_nil,
      List.append_nil, queue.taken]
    by_cases same : c' = c
    · subst same
      rw [self.1]
    · rw [(others c' same).1]
  · intro c' p found
    rw [apply_contents]
    by_cases same : c' = c
    · subst same
      exact self.2 p found
    · rw [(others c' same).2] at found
      exact queue.front c' p found

theorem logged_switch : switched c' [.switch c p] = (if c = c' then [p] else []) ∧
    appended c' [.switch c p] = [] ∧ removed c' [.switch c p] = [] := by
  refine ⟨?_, rfl, rfl⟩
  by_cases same : c = c'
  · simp [switched, same]
  · simp [switched, same]

theorem Queue.switch {target : Option Slot} {events : List Event} {fs : List Frame}
    (queue : m.Queue) (inv : m.Inv) (top : m.frames c = f :: rest)
    (idle : f.looks = false → m.ls.frame c = none)
    (switches : Switches m c rest f target events fs) : (m.swtch c target events fs).Queue := by
  have leaves : ∀ {q fs'}, m.cur c = some q → (m.swtch c none [] fs').Queue := by
    intro q fs' here
    rw [swtch_leave here]
    have same : ∀ c', (m.leave c q [] fs').inHand c' = m.inHand c' ∧
        (m.leave c q [] fs').chosen c' = m.chosen c' := fun c' => inHand_congr rfl fun _ _ => rfl
    have log : (m.leave c q [] fs').log = m.log := List.append_nil _
    constructor
    · rw [log]
      exact queue.listed
    · intro c'
      rw [log, (same c').1]
      exact queue.taken c'
    · intro c' p found
      exact queue.front c' p found
  cases switches with
  | exit here | sleep here | yield here => exact leaves here
  | @sched p here =>
    obtain ⟨_, rfl⟩ : m.cur c = none ∧ rest = [] := inv.sits top
    have before : m.inHand c = [p] := by
      unfold inHand
      rw [sched_of_frames here top, idle rfl]
      rfl
    rw [swtch_resume here]
    have log : (m.resume c p [.switch c p] [.schedBack p]).log = m.log ++ [.switch c p] := rfl
    have contents : (m.resume c p [.switch c p] [.schedBack p]).ls = m.ls := rfl
    have after : (m.resume c p [.switch c p] [.schedBack p]).sched c = [.schedBack p] :=
      update_self _ _ _
    have others : ∀ c', c' ≠ c →
        (m.resume c p [.switch c p] [.schedBack p]).inHand c' = m.inHand c' ∧
        (m.resume c p [.switch c p] [.schedBack p]).chosen c' = m.chosen c' :=
      fun c' other => inHand_congr (update_of_ne other _ _) fun _ _ => rfl
    constructor
    · intro c'
      rw [log, contents, appended_append, removed_append, logged_switch.2.1, logged_switch.2.2,
        List.append_nil, List.append_nil]
      exact queue.listed c'
    · intro c'
      rw [log, removed_append, switched_append, logged_switch.1, logged_switch.2.2,
        List.append_nil, queue.taken]
      by_cases same : c' = c
      · subst same
        rw [before, if_pos rfl]
        unfold inHand
        rw [after, List.append_nil]
      · rw [(others c' same).1, if_neg (Ne.symm same), List.append_nil]
    · intro c' q found
      by_cases same : c' = c
      · subst same
        unfold chosen at found
        rw [after] at found
        cases found
      · rw [(others c' same).2] at found
        exact queue.front c' q found

theorem Queue.list (queue : m.Queue) (inv : m.Inv)
    (calling : m.ls.frame c = some g) (advances : Advances m.ls ls c g) :
    (m.advanced ls (if g.commits then [.effect g.call] else [])).Queue := by
  cases commits : g.commits with
  | false => exact queue.silent inv calling advances commits
  | true =>
    cases call : g.call with
    | add l i => exact queue.added inv calling advances commits call
    | remove l i =>
      cases l with
      | runnable c' =>
        obtain ⟨rfl, _⟩ := inv.remover calling call
        exact queue.removed_head inv calling advances commits call
      | _ => exact queue.removed_other inv calling advances commits call nofun
    | pick l =>
      cases g with
      | add l i pc => cases call
      | remove l i pc => cases call
      | pickAcquire l | pickRelease l => cases commits

theorem start_queue {s : Kernel} : (start s).Queue := by
  constructor
  · intro c
    by_cases first : c = 0
    · subst first
      rfl
    · simp [start, appended, removed, bootLists, Ne.symm first, put, drop, update_of_ne, first,
        procinitLists]
  · exact fun c => rfl
  · rintro c p ⟨⟩

theorem Reachable.queue (reached : Reachable blncflg m) : m.Queue := by
  apply reached.induct
  · exact fun _ => start_queue
  · intro m c m' reached inv queue takes inv'
    cases takes with
    | list calling advances => exact queue.list inv calling advances
    | act top idle acts locked fits => exact queue.apply inv top acts inv'
    | switch top idle switches => exact queue.switch inv top idle switches

/-- In every run the slots that the scheduler of a CPU has switched to are the first
ones that were appended to its list, in the same order.  The others are still on
the list, except at most one that the scheduler is about to switch to. -/
theorem dispatch_in_order (reached : Reachable blncflg m) (c : Cpu) :
    switched c m.log <+: appended c m.log ∧
      appended c m.log = switched c m.log ++ m.inHand c ++ m.ls.contents (.runnable c) := by
  have queue := reached.queue
  have whole : appended c m.log =
      switched c m.log ++ m.inHand c ++ m.ls.contents (.runnable c) := by
    rw [queue.listed, queue.taken]
  refine ⟨?_, whole⟩
  rw [whole, List.append_assoc]
  exact List.prefix_append _ _

/-- Init forks twice and a timer interrupt makes it yield: CPU 0 goes on with its first child,
and the second one and init wait on the list. -/
theorem dispatch_in_order_timer : ∃ m, Reachable false m ∧ switched 0 m.log = [0, 1] ∧
    m.ls.contents (.runnable 0) = [2, 0] ∧ switched 0 m.log <+: appended 0 m.log ∧
      appended 0 m.log = [0, 1] ++ m.inHand 0 ++ [2, 0] := by
  have ran : (first.run false
      (List.replicate 11 (0, .run) ++ [(0, .fork)] ++ List.replicate 18 (0, .run) ++ [(0, .fork)] ++
        List.replicate 20 (0, .run) ++ [(0, .timer)] ++ List.replicate 21 (0, .run))).map (fun m =>
      (switched 0 m.log, m.ls.contents (.runnable 0))) = some ([0, 1], [2, 0]) := by
    decide +kernel
  obtain ⟨m, found, now⟩ := Option.map_eq_some_iff.mp ran
  obtain ⟨before, waiting⟩ := Prod.mk.inj now
  have reached := (first_reachable false).run found
  obtain ⟨inOrder, whole⟩ := dispatch_in_order reached 0
  exact ⟨m, reached, before, waiting, inOrder, by rw [whole, before, waiting]⟩

end Machine

end OsbKernel
