import OsbKernel.Sync.AddSteps
import OsbKernel.Sync.RemoveSteps
import OsbKernel.Sync.ListWaits
import OsbKernel.Lib.ExceptBind

/-!
# Runs of concurrent list calls

Any number of CPUs call the list functions, one call at a time each, interleaved in every way. A
history records the calls in the order in which they were made and in which they took effect. The
second is the sequential order that the lists show; since a call takes effect between its start
and its return, it agrees with the order in real time.
-/

namespace OsbKernel

open Function LinkedChain Relation ExceptBind
open scoped List

variable {κ : Type} [DecidableEq κ] {s s' : ListSys κ} {c : κ} {f : ListFrame} {k : ListLock}
  {ls ls' : Lists} {f' : Option ListFrame} {call : ListCall}

theorem ListInv.fine (inv : ListInv s) (here : s.frame c = some f) : s.Fine c f := by
  cases f with
  | add l i pc => exact inv.add_fine here
  | remove l i pc => exact inv.remove_fine here
  | pickAcquire l =>
    apply inv.acquires here rfl (by simp [ListFrame.holds]) rfl
    · exact List.Perm.refl _
    · rfl
    · rfl
    · simp [ListFrame.Pends]
    · simp [ListFrame.Pends]
    · exact fun _ => trivial
  | pickRelease l =>
    apply inv.releases here rfl rfl
    · exact List.Perm.refl _
    · simp
    · rfl
    · simp [ListFrame.Pends]
    · simp
    · simp

theorem ListInv.advance_cases (inv : ListInv s) (stepped : s.advance c = some s') :
    ∃ f k, s.frame c = some f ∧ ListInv s' ∧
      ((f.op s.lists = .ok (.acquire k) ∧ s.owner k = none ∧ s' = s.proceed c f k (some c)) ∨
        (f.op s.lists = .ok (.release k) ∧ s' = s.proceed c f k none)) := by
  cases here : s.frame c with
  | none => simp [ListSys.advance, here] at stepped
  | some f =>
    rcases inv.fine here with ⟨k, op, unheld, fine⟩ | ⟨k, op, held, fine⟩
    · cases owned : s.owner k with
      | none =>
        simp only [ListSys.advance, inv.running c, here, op, owned, Option.some.injEq] at stepped
        subst stepped
        exact ⟨f, k, rfl, fine owned, .inl ⟨op, owned, rfl⟩⟩
      | some c' =>
        have apart : c' ≠ c := by
          rintro rfl
          obtain ⟨g, same, held⟩ := (inv.owners c' k).mp owned
          rw [here] at same
          cases same
          exact unheld held
        simp [ListSys.advance, inv.running c, here, op, owned, apart] at stepped
    · have owned := (inv.owners c k).mpr ⟨f, here, held⟩
      simp only [ListSys.advance, inv.running c, here, op, owned, if_true,
        Option.some.injEq] at stepped
      subst stepped
      exact ⟨f, k, rfl, fine, .inr ⟨op, rfl⟩⟩

theorem ListInv.advance (inv : ListInv s) (stepped : s.advance c = some s') : ListInv s' := by
  obtain ⟨_, _, _, kept, _⟩ := inv.advance_cases stepped
  exact kept

theorem ListInv.advance_eq (inv : ListInv s) (stepped : s.advance c = some s') :
    ∃ f k holder ls f', s.frame c = some f ∧ f.resume s.lists = .ok (ls, f') ∧
      ((f.op s.lists = .ok (.acquire k) ∧ s.owner k = none ∧ holder = some c) ∨
        (f.op s.lists = .ok (.release k) ∧ holder = none)) ∧
      s' = { lists := ls
             owner := update s.owner k holder
             frame := update s.frame c f'
             stopped := s.stopped
             contents := if f.commits then f.call.apply s.contents else s.contents } := by
  obtain ⟨f, k, here, kept, cases⟩ := inv.advance_cases stepped
  have resumes : ∀ holder, s' = s.proceed c f k holder →
      ∃ ls f', f.resume s.lists = .ok (ls, f') := by
    rintro holder rfl
    cases resumed : f.resume s.lists with
    | ok result => exact ⟨result.1, result.2, rfl⟩
    | error fault =>
      have running := kept.running c
      simp [ListSys.proceed, resumed, ListSys.stop] at running
  rcases cases with ⟨op, free, rfl⟩ | ⟨op, rfl⟩
  · obtain ⟨ls, f', resumed⟩ := resumes _ rfl
    exact ⟨f, k, some c, ls, f', here, resumed, .inl ⟨op, free, rfl⟩, ListSys.proceed_eq resumed⟩
  · obtain ⟨ls, f', resumed⟩ := resumes _ rfl
    exact ⟨f, k, none, ls, f', here, resumed, .inr ⟨op, rfl⟩, ListSys.proceed_eq resumed⟩

/-- A call may be made: the slot to add is on no list, the slot to remove is on its
list, and no call in progress concerns the same slot. -/
def ListSys.Admissible (s : ListSys κ) : ListCall → Prop
  | .add _ i => (∀ l', i ∉ s.contents l') ∧ ∀ c f, s.frame c = some f → f.call.index ≠ some i
  | .remove l i => i ∈ s.contents l ∧ ∀ c f, s.frame c = some f → f.call.index ≠ some i
  | .pick _ => True

variable {i curr : Slot} {l : ListId} {canRelease : Bool} {pc : RemovePc}

omit [DecidableEq κ] in
theorem ListSys.Admissible.apart {g : ListFrame} (admissible : s.Admissible call)
    (concerns : call.index = some i) (there : s.frame c = some g) : g.call.index ≠ some i := by
  cases call with
  | add l j | remove l j =>
    cases concerns
    exact admissible.2 c g there
  | pick l => cases concerns

omit [DecidableEq κ] in
theorem ListSys.Admissible.ok (admissible : s.Admissible call) :
    (ListFrame.start call).Ok s.lists s.contents := by
  cases call with
  | add l j => exact admissible.1
  | remove l j => exact List.singleton_sublist.mpr admissible.1
  | pick l => trivial

@[simp] theorem ListFrame.start_holds : (ListFrame.start call).holds = [] := by
  cases call <;> rfl

@[simp] theorem ListFrame.start_call : (ListFrame.start call).call = call := by
  cases call <;> rfl

theorem ListFrame.start_not_pends (l : ListId) : ¬ (ListFrame.start call).Pends l := by
  rintro ⟨i, same⟩
  cases call <;> cases same

theorem ListInv.enter (inv : ListInv s) (idle : s.frame c = none)
    (admissible : s.Admissible call) : ListInv (s.enter c call) := by
  have frameAt : ∀ {c' g}, (s.enter c call).frame c' = some g →
      (c' = c ∧ g = .start call) ∨ (c' ≠ c ∧ s.frame c' = some g) := by
    intro c' g there
    by_cases self : c' = c
    · subst self
      simp only [ListSys.enter, update_self, Option.some.injEq] at there
      exact .inl ⟨rfl, there.symm⟩
    · simp only [ListSys.enter, update_of_ne self] at there
      exact .inr ⟨self, there⟩
  have heads : (s.enter c call).head = s.head := by
    funext l
    have pending : (s.enter c call).Pending l ↔ s.Pending l := by
      constructor
      · rintro ⟨c', i, there⟩
        rcases frameAt there with ⟨_, same⟩ | ⟨_, before⟩
        · exact absurd ⟨i, same.symm⟩ (ListFrame.start_not_pends l)
        · exact ⟨c', i, before⟩
      · rintro ⟨c', i, there⟩
        have self : c' ≠ c := by
          rintro rfl
          rw [idle] at there
          cases there
        exact ⟨c', i, by simp only [ListSys.enter, update_of_ne self, there]⟩
    by_cases waits : s.Pending l
    · rw [ListSys.head_of_pending waits, ListSys.head_of_pending (pending.mpr waits)]
    · rw [ListSys.head_of_not_pending waits,
        ListSys.head_of_not_pending (fun h => waits (pending.mp h))]
      rfl
  constructor
  · exact inv.running
  · intro c' k
    change s.owner k = some c' ↔ _
    rw [inv.owners]
    by_cases self : c' = c
    · subst self
      simp [ListSys.enter, idle]
    · simp [ListSys.enter, update_of_ne self]
  · intro c' g there
    rcases frameAt there with ⟨_, rfl⟩ | ⟨_, before⟩
    · simp
    · exact inv.nodup c' g before
  · rw [heads]
    exact inv.family
  · intro c' g there
    rcases frameAt there with ⟨_, rfl⟩ | ⟨_, before⟩
    · exact admissible.ok
    · exact inv.frames c' g before
  · intro c₁ c₂ g₁ g₂ i there₁ there₂ index₁ index₂
    rcases frameAt there₁ with ⟨rfl, rfl⟩ | ⟨_, before₁⟩
    · rcases frameAt there₂ with ⟨rfl, _⟩ | ⟨_, before₂⟩
      · rfl
      · exact absurd index₂ (admissible.apart (by simpa using index₁) before₂)
    · rcases frameAt there₂ with ⟨rfl, rfl⟩ | ⟨_, before₂⟩
      · exact absurd index₁ (admissible.apart (by simpa using index₂) before₁)
      · exact inv.apart c₁ c₂ g₁ g₂ i before₁ before₂ index₁ index₂

def ListFrame.done : ListFrame → Bool
  | .add _ _ .releaseOnly => true
  | .add _ _ (.releaseNew _ _) => true
  | .add _ _ (.releaseLast _ _) => true
  | .add _ _ .releaseList => true
  | .remove _ _ .releaseHead => true
  | .remove _ _ (.releaseNode _ _ _) => true
  | .remove _ _ (.releaseCurr _ _ _) => true
  | .remove _ _ (.releaseLast _ _) => true
  | .remove _ _ .releaseList => true
  | .pickRelease _ => true
  | _ => false

theorem ListFrame.start_done : (ListFrame.start call).done = false := by
  cases call <;> rfl

def doneOf : Option ListFrame → Bool
  | some f => f.done
  | none => true

theorem ListFrame.commits_not_done (commits : f.commits = true) : f.done = false := by
  cases f with
  | add l i pc | remove l i pc => cases pc <;> first | rfl | cases commits
  | pickAcquire l | pickRelease l => cases commits

theorem AddPc.loop_done {next : Option Slot} :
    (ListFrame.add l i (AddPc.loop curr next canRelease)).done = false := by
  cases next <;> rfl

theorem RemovePc.loop_done {prev next : Option Slot}
    (looped : RemovePc.loop i prev curr next canRelease = .ok pc) :
    (ListFrame.remove l i pc).done = false := by
  cases next with
  | none => cases looped
  | some n =>
    simp only [RemovePc.loop, Except.ok.injEq] at looped
    subst looped
    split <;> rfl

theorem RemovePc.advance_done {next : Slot}
    (advanced : RemovePc.advance ls i curr next canRelease = .ok pc) :
    (ListFrame.remove l i pc).done = false := by
  cases canRelease with
  | true =>
    cases advanced
    rfl
  | false => exact RemovePc.loop_done advanced

theorem AddPc.resume_done {pc : AddPc} {next : Option AddPc}
    (resumed : pc.resume ls l i = .ok (ls', next)) :
    doneOf (next.map (.add l i)) =
      ((ListFrame.add l i pc).done || (ListFrame.add l i pc).commits) := by
  cases pc with
  | acquireList =>
    cases head : ls.first l <;> (simp only [resume, head] at resumed; cases resumed; rfl)
  | acquireOnly =>
    cases head : ls.first l <;> (simp only [resume, head] at resumed; cases resumed)
    rfl
  | acquireFirst =>
    cases head : ls.first l <;> (simp only [resume, head] at resumed; cases resumed)
    exact AddPc.loop_done
  | releaseCurr curr n canRelease =>
    cases canRelease <;> cases resumed
    · exact AddPc.loop_done
    · rfl
  | releaseEarly curr n =>
    cases resumed
    exact AddPc.loop_done
  | releaseLast curr canRelease => cases canRelease <;> (cases resumed; rfl)
  | _ =>
    cases resumed
    rfl

theorem RemovePc.resume_done {next : Option RemovePc}
    (resumed : pc.resume ls l i = .ok (ls', next)) :
    doneOf (next.map (.remove l i)) =
      ((ListFrame.remove l i pc).done || (ListFrame.remove l i pc).commits) := by
  cases pc with
  | acquireList =>
    cases head : ls.first l <;> (simp only [resume, head] at resumed; cases resumed)
    split <;> rfl
  | acquireHead =>
    cases head : ls.first l <;> (simp only [resume, head] at resumed; cases resumed)
    rfl
  | acquireFirst =>
    cases head : ls.first l with
    | none =>
      simp only [resume, head] at resumed
      cases resumed
    | some f =>
      simp only [resume, head] at resumed
      obtain ⟨pc', looped, rest⟩ := bind_ok resumed
      cases rest
      exact RemovePc.loop_done looped
  | acquireNext prev curr n canRelease =>
    cases prev with
    | some x =>
      cases resumed
      rfl
    | none =>
      obtain ⟨pc', advanced, rest⟩ := bind_ok resumed
      cases rest
      exact RemovePc.advance_done advanced
  | releasePrev prev curr n canRelease =>
    obtain ⟨pc', advanced, rest⟩ := bind_ok resumed
    cases rest
    exact RemovePc.advance_done advanced
  | releaseEarly prev curr n =>
    obtain ⟨pc', looped, rest⟩ := bind_ok resumed
    cases rest
    exact RemovePc.loop_done looped
  | releaseCurr prev curr canRelease => cases prev <;> cases canRelease <;> (cases resumed; rfl)
  | releaseLast prev canRelease => cases canRelease <;> (cases resumed; rfl)
  | _ =>
    cases resumed
    rfl

/-- A step goes on with the same call, which has taken effect if it had before or
does so with this step. -/
theorem ListFrame.resume_call (resumed : f.resume ls = .ok (ls', f')) :
    (∀ g, f' = some g → g.call = f.call) ∧
      (f.call.index ≠ none → doneOf f' = (f.done || f.commits)) := by
  cases f with
  | add l i pc =>
    obtain ⟨⟨ls₁, next⟩, inner, rest⟩ := bind_ok resumed
    cases rest
    refine ⟨fun g now => ?_, fun _ => AddPc.resume_done inner⟩
    obtain ⟨pc', _, rfl⟩ := Option.map_eq_some_iff.mp now
    rfl
  | remove l i pc =>
    obtain ⟨⟨ls₁, next⟩, inner, rest⟩ := bind_ok resumed
    cases rest
    refine ⟨fun g now => ?_, fun _ => RemovePc.resume_done inner⟩
    obtain ⟨pc', _, rfl⟩ := Option.map_eq_some_iff.mp now
    rfl
  | pickAcquire l =>
    cases resumed
    refine ⟨?_, fun concerns => absurd rfl concerns⟩
    rintro _ ⟨⟩
    rfl
  | pickRelease l =>
    cases resumed
    exact ⟨nofun, fun concerns => absurd rfl concerns⟩

def ListCall.Post (C : ListId → List Slot) : ListCall → Prop
  | .add l i => i ∈ C l
  | .remove _ i => ∀ l, i ∉ C l
  | .pick _ => True

omit [DecidableEq κ] in
theorem ListFrame.Ok.post {C : ListId → List Slot} (ok : f.Ok ls C) (done : f.done = true) :
    f.call.Post C := by
  cases f with
  | add l i pc => cases pc <;> first | exact List.singleton_sublist.mp ok | cases done
  | remove l i pc => cases pc <;> first | exact ok | cases done
  | pickAcquire l => trivial
  | pickRelease l => trivial

theorem ListFrame.resume_commits (commits : f.commits = true)
    (resumed : f.resume ls = .ok (ls', f')) : f' ≠ none := by
  rintro rfl
  cases f with
  | add l i pc =>
    obtain ⟨⟨ls₁, next⟩, inner, rest⟩ := bind_ok resumed
    cases next with
    | some pc' => cases rest
    | none =>
      cases pc with
      | acquireOnly =>
        cases head : ls.first l <;> (simp only [AddPc.resume, head] at inner; cases inner)
      | acquireNew curr canRelease => cases inner
      | _ => cases commits
  | remove l i pc =>
    obtain ⟨⟨ls₁, next⟩, inner, rest⟩ := bind_ok resumed
    cases next with
    | some pc' => cases rest
    | none =>
      cases pc with
      | acquireHead =>
        cases head : ls.first l <;> (simp only [RemovePc.resume, head] at inner; cases inner)
      | acquireNode prev curr canRelease => cases inner
      | _ => cases commits
  | pickAcquire l | pickRelease l => cases commits

/-- What a step of a call changes: its own place, and the contents only for the slot
that it concerns; when it returns, it has achieved what it is to achieve. -/
structure Advances (s s' : ListSys κ) (c : κ) (f : ListFrame) : Prop where
  inv : ListInv s'
  others : ∀ c', c' ≠ c → s'.frame c' = s.frame c'
  contents : s'.contents = if f.commits then f.call.apply s.contents else s.contents
  call : ∀ g, s'.frame c = some g → g.call = f.call
  post : s'.frame c = none → f.call.Post s'.contents
  done : f.call.index ≠ none → doneOf (s'.frame c) = (f.done || f.commits)

theorem ListInv.advances (inv : ListInv s) (here : s.frame c = some f)
    (stepped : s.advance c = some s') : Advances s s' c f := by
  obtain ⟨f₁, k, holder, ls, f', there, resumed, _, rfl⟩ := inv.advance_eq stepped
  rw [here] at there
  cases there
  obtain ⟨same, finished⟩ := ListFrame.resume_call resumed
  constructor
  · exact inv.advance stepped
  · exact fun c' other => update_of_ne other _ _
  · rfl
  · intro g now
    simp only [update_self] at now
    exact same g now
  · intro returned
    simp only [update_self] at returned
    subst returned
    have silent : f.commits = false := by
      cases commits : f.commits with
      | false => rfl
      | true => exact absurd rfl (ListFrame.resume_commits commits resumed)
    simp only [silent, Bool.false_eq_true, if_false]
    by_cases concerns : f.call.index = none
    · cases call : f.call with
      | pick l => trivial
      | add l i | remove l i => simp [call, ListCall.index] at concerns
    · have done := finished concerns
      rw [silent, Bool.or_false] at done
      exact (inv.frames c f here).post done.symm
  · intro concerns
    simp only [update_self]
    exact finished concerns

omit [DecidableEq κ] in
theorem Advances.listed (advances : Advances s s' c f) {x : Slot} (apart : f.call.index ≠ some x)
    (l : ListId) : x ∈ s'.contents l ↔ x ∈ s.contents l := by
  rw [advances.contents]
  cases commits : f.commits with
  | false => rfl
  | true =>
    cases concerns : f.call.index with
    | none =>
      cases call : f.call with
      | pick l' => rfl
      | add l' i | remove l' i => simp [call, ListCall.index] at concerns
    | some i =>
      refine ListCall.mem_apply_of_ne concerns ?_
      rintro rfl
      exact apart concerns

/-- The lists with the calls made so far, in the order in which they were made and
in the order in which they took effect. -/
structure ListHistory (κ : Type) where
  sys : ListSys κ
  made : List (κ × ListCall)
  order : List (κ × ListCall)

/-- One step: a CPU without a call makes one, or a CPU runs its call on to the next
lock operation. -/
inductive ListStep : ListHistory κ → ListHistory κ → Prop where
  | call {h : ListHistory κ} (c : κ) (call : ListCall) (idle : h.sys.frame c = none)
      (concerns : call.index ≠ none) (admissible : h.sys.Admissible call) :
      ListStep h { h with sys := h.sys.enter c call, made := h.made ++ [(c, call)] }
  | advance {h : ListHistory κ} {c : κ} {f : ListFrame} {s' : ListSys κ}
      (here : h.sys.frame c = some f) (stepped : h.sys.advance c = some s') :
      ListStep h { h with
        sys := s', order := if f.commits then h.order ++ [(c, f.call)] else h.order }

structure ListHistory.Initial (h : ListHistory κ) : Prop where
  reads : h.sys.lists.Reads h.sys.contents
  unlocked : ∀ k, h.sys.owner k = none
  idle : ∀ c, h.sys.frame c = none
  running : ∀ c, h.sys.stopped c = none
  made : h.made = []
  order : h.order = []

def applyCalls (C : ListId → List Slot) (calls : List (κ × ListCall)) : ListId → List Slot :=
  calls.foldl (fun C entry => entry.2.apply C) C

def callsOf (c : κ) (calls : List (κ × ListCall)) : List (κ × ListCall) :=
  calls.filter fun entry => entry.1 = c

def ListSys.unfinished (s : ListSys κ) (c : κ) : List (κ × ListCall) :=
  match s.frame c with
  | some f => if f.done then [] else [(c, f.call)]
  | none => []

structure ListHistory.Inv (C : ListId → List Slot) (h : ListHistory κ) : Prop where
  sys : ListInv h.sys
  contents : h.sys.contents = applyCalls C h.order
  calls : ∀ c, callsOf c h.made = callsOf c h.order ++ h.sys.unfinished c
  concern : ∀ c f, h.sys.frame c = some f → f.call.index ≠ none

variable {h h' : ListHistory κ} {C : ListId → List Slot}

theorem callsOf_append (c : κ) (calls more : List (κ × ListCall)) :
    callsOf c (calls ++ more) = callsOf c calls ++ callsOf c more :=
  List.filter_append ..

theorem callsOf_self (c : κ) (call : ListCall) : callsOf c [(c, call)] = [(c, call)] := by
  simp [callsOf]

theorem callsOf_of_ne {c c' : κ} (apart : c' ≠ c) (call : ListCall) :
    callsOf c' [(c, call)] = [] := by
  simp [callsOf, Ne.symm apart]

omit [DecidableEq κ] in
theorem ListInv.initial (reads : s.lists.Reads s.contents) (unlocked : ∀ k, s.owner k = none)
    (idle : ∀ c, s.frame c = none) (running : ∀ c, s.stopped c = none) : ListInv s := by
  constructor
  · exact running
  · simp [unlocked, idle]
  · intro c f here
    rw [idle] at here
    cases here
  · have heads : s.head = s.lists.first := by
      funext l
      apply ListSys.head_of_not_pending
      rintro ⟨c, i, here⟩
      rw [idle] at here
      cases here
    rw [heads]
    exact reads
  · intro c f here
    rw [idle] at here
    cases here
  · intro c c' f f' i here
    rw [idle] at here
    cases here

theorem ListHistory.Initial.inv (init : h.Initial) : h.Inv h.sys.contents := by
  constructor
  · exact ListInv.initial init.reads init.unlocked init.idle init.running
  · simp [applyCalls, init.order]
  · simp [init.made, init.order, callsOf, ListSys.unfinished, init.idle]
  · intro c f here
    rw [init.idle] at here
    cases here

theorem ListHistory.Inv.enter (inv : h.Inv C) (idle : h.sys.frame c = none)
    (concerns : call.index ≠ none) (admissible : h.sys.Admissible call) :
    ({ h with sys := h.sys.enter c call, made := h.made ++ [(c, call)] } : ListHistory κ).Inv C := by
  constructor
  · exact inv.sys.enter idle admissible
  · exact inv.contents
  · intro c'
    have before := inv.calls c'
    by_cases self : c' = c
    · subst self
      simp only [ListSys.unfinished, idle, List.append_nil] at before
      simp [callsOf_append, callsOf_self, before, ListSys.unfinished, ListSys.enter,
        ListFrame.start_done]
    · simpa [callsOf_append, callsOf_of_ne self, ListSys.unfinished, ListSys.enter,
        update_of_ne self] using before
  · intro c' f there
    by_cases self : c' = c
    · subst self
      simp only [ListSys.enter, update_self, Option.some.injEq] at there
      subst there
      simpa using concerns
    · simp only [ListSys.enter, update_of_ne self] at there
      exact inv.concern c' f there

theorem ListHistory.Inv.advance (inv : h.Inv C) (here : h.sys.frame c = some f)
    (stepped : h.sys.advance c = some s') :
    ({ h with sys := s', order := if f.commits then h.order ++ [(c, f.call)] else h.order } :
      ListHistory κ).Inv C := by
  obtain ⟨f₁, k, holder, ls, f', there, resumed, _, shape⟩ := inv.sys.advance_eq stepped
  rw [here] at there
  cases there
  have kept := inv.sys.advance stepped
  obtain ⟨same, finished⟩ := ListFrame.resume_call resumed
  have done := finished (inv.concern c f here)
  subst shape
  constructor
  · exact kept
  · cases commits : f.commits with
    | false => simpa [commits] using inv.contents
    | true => simp [applyCalls, inv.contents]
  · intro c'
    have before := inv.calls c'
    by_cases self : c' = c
    · subst self
      simp only [ListSys.unfinished, here] at before
      simp only [ListSys.unfinished, update_self]
      cases commits : f.commits with
      | true =>
        rw [commits, Bool.or_true] at done
        rw [ListFrame.commits_not_done commits] at before
        rw [if_pos rfl, callsOf_append, callsOf_self, before]
        cases f' with
        | none => simp
        | some g => simp [show g.done = true from done]
      | false =>
        rw [commits, Bool.or_false] at done
        rw [if_neg Bool.false_ne_true, before]
        cases f' with
        | none => simp [← done, doneOf]
        | some g => simp [← done, doneOf, same g rfl]
    · have order : callsOf c' (if f.commits then h.order ++ [(c, f.call)] else h.order) =
          callsOf c' h.order := by
        split
        · rw [callsOf_append, callsOf_of_ne self, List.append_nil]
        · rfl
      simpa [order, ListSys.unfinished, update_of_ne self] using before
  · intro c' g there
    by_cases self : c' = c
    · subst self
      simp only [update_self] at there
      rw [same g there]
      exact inv.concern c' f here
    · simp only [update_of_ne self] at there
      exact inv.concern c' g there

theorem ListHistory.Inv.step (inv : h.Inv C) (step : ListStep h h') : h'.Inv C := by
  cases step with
  | call c call idle concerns admissible => exact inv.enter idle concerns admissible
  | advance here stepped => exact inv.advance here stepped

theorem ListHistory.Inv.run (inv : h.Inv C) (run : ReflTransGen ListStep h h') : h'.Inv C := by
  induction run with
  | refl => exact inv
  | tail _ step ih => exact ih.step step

theorem ListStep.order_grows (run : ReflTransGen ListStep h h') : h.order <+: h'.order := by
  induction run with
  | refl => exact List.prefix_rfl
  | tail _ step ih =>
    apply ih.trans
    cases step with
    | call => exact List.prefix_rfl
    | advance here stepped =>
      split
      · exact List.prefix_append _ _
      · exact List.prefix_rfl

theorem perm_of_callsOf {calls more : List (κ × ListCall)}
    (same : ∀ c, callsOf c calls = callsOf c more) : calls.Perm more := by
  rw [List.perm_iff_count]
  rintro ⟨c, call⟩
  have count : ∀ entries : List (κ × ListCall),
      (callsOf c entries).count (c, call) = entries.count (c, call) :=
    fun entries => List.count_filter (by simp)
  rw [← count calls, ← count more, same c]

theorem ListHistory.Inv.reads (inv : h.Inv C) (idle : ∀ c, h.sys.frame c = none) :
    h.sys.lists.Reads (applyCalls C h.order) := by
  have heads : h.sys.head = h.sys.lists.first := by
    funext l
    apply ListSys.head_of_not_pending
    rintro ⟨c, i, here⟩
    rw [idle] at here
    cases here
  have family := inv.sys.family
  rwa [heads, inv.contents] at family

/-- Hand-over-hand list calls are linearizable.  In every run no CPU stops, that is,
panics, reads `proc[-1]`, takes a lock it holds or gives back one it does not hold;
no CPUs spin in a cycle; a CPU holds the same locks after a call as before it; and
once all calls have returned, the lists are those that the calls give one after the
other in the order in which they took effect, where every call that had returned by
some time comes before every call made later. -/
theorem list_calls_linearizable {h₀ h₁ h₂ : ListHistory κ} (init : h₀.Initial)
    (early : ReflTransGen ListStep h₀ h₁) (late : ReflTransGen ListStep h₁ h₂) :
    (∀ c, h₂.sys.stopped c = none) ∧
    (∀ c, ¬ TransGen (WaitGraph.Waits h₂.sys.Blocked) c c) ∧
    (∀ c, h₁.sys.frame c = none → h₂.sys.frame c = none →
      ∀ k, h₂.sys.owner k = some c ↔ h₁.sys.owner k = some c) ∧
    (h₁.order <+: h₂.order ∧ ∀ c, callsOf c h₁.order <+: callsOf c h₁.made ∧
      (h₁.sys.frame c = none → callsOf c h₁.order = callsOf c h₁.made)) ∧
    ((∀ c, h₂.sys.frame c = none) →
      h₂.order.Perm h₂.made ∧ h₂.sys.lists.Reads (applyCalls h₀.sys.contents h₂.order)) := by
  have inv₁ := init.inv.run early
  have inv₂ := inv₁.run late
  have finished : ∀ {h : ListHistory κ}, h.Inv h₀.sys.contents → ∀ c, h.sys.frame c = none →
      callsOf c h.order = callsOf c h.made := by
    intro h inv c idle
    simp [inv.calls c, ListSys.unfinished, idle]
  refine ⟨inv₂.sys.running, inv₂.sys.no_cycle, ?_, ⟨ListStep.order_grows late, fun c => ?_⟩, ?_⟩
  · intro c idle₁ idle₂ k
    simp [inv₁.sys.owners, inv₂.sys.owners, idle₁, idle₂]
  · exact ⟨⟨_, (inv₁.calls c).symm⟩, finished inv₁ c⟩
  · intro idle
    exact ⟨perm_of_callsOf fun c => finished inv₂ c (idle c), inv₂.reads idle⟩

def ListHistory.advanced (h : ListHistory κ) (c : κ) : ListHistory κ :=
  match h.sys.frame c, h.sys.advance c with
  | some f, some s' =>
    { h with sys := s', order := if f.commits then h.order ++ [(c, f.call)] else h.order }
  | _, _ => h

def ListHistory.schedule (h : ListHistory κ) (cs : List κ) : ListHistory κ :=
  cs.foldl ListHistory.advanced h

theorem ListHistory.schedule_run (h : ListHistory κ) (cs : List κ) :
    ReflTransGen ListStep h (h.schedule cs) := by
  induction cs generalizing h with
  | nil => exact .refl
  | cons c rest ih =>
    refine ReflTransGen.trans ?_ (ih (h.advanced c))
    unfold ListHistory.advanced
    split
    · rename_i f s' here stepped
      exact .single (.advance here stepped)
    · exact .refl

def emptyLists : ListHistory (Fin 2) where
  sys :=
    { lists := ⟨fun _ => none, fun _ => none⟩
      owner := fun _ => none
      frame := fun _ => none
      stopped := fun _ => none
      contents := fun _ => [] }
  made := []
  order := []

/-- Both CPUs have called `add_proc_to_list(&unusedList, ..)`. -/
def twoAdds : ListHistory (Fin 2) :=
  { emptyLists with
    sys := (emptyLists.sys.enter 0 (.add .unusedList 5)).enter 1 (.add .unusedList 9)
    made := [(0, .add .unusedList 5), (1, .add .unusedList 9)] }

theorem twoAdds_run : ReflTransGen ListStep emptyLists twoAdds := by
  have first : ListStep emptyLists { emptyLists with
      sys := emptyLists.sys.enter 0 (.add .unusedList 5), made := [(0, .add .unusedList 5)] } :=
    .call 0 (.add .unusedList 5) rfl (by decide) ⟨fun _ => List.not_mem_nil, nofun⟩
  refine (ReflTransGen.single first).tail (.call 1 (.add .unusedList 9) rfl (by decide) ?_)
  refine ⟨fun _ => List.not_mem_nil, fun c f here => ?_⟩
  by_cases self : c = 0
  · subst self
    cases here
    decide
  · simp [ListSys.enter, emptyLists, update_of_ne self] at here

theorem list_calls_linearizable_twoAdds :
    (twoAdds.schedule [0, 1, 0, 0, 1, 0, 1, 1, 1, 1, 1, 1]).order =
      [(0, .add .unusedList 5), (1, .add .unusedList 9)] ∧
    (twoAdds.schedule [0, 1, 0, 0, 1, 0, 1, 1, 1, 1, 1, 1]).sys.lists.Reads
      (applyCalls (fun _ => []) [(0, .add .unusedList 5), (1, .add .unusedList 9)]) := by
  have init : emptyLists.Initial := by
    refine ⟨⟨fun l => rfl, ?_⟩, fun _ => rfl, fun _ => rfl, fun _ => rfl, rfl, rfl⟩
    intro l l' x listed
    cases listed
  have order : (twoAdds.schedule [0, 1, 0, 0, 1, 0, 1, 1, 1, 1, 1, 1]).order =
      [(0, .add .unusedList 5), (1, .add .unusedList 9)] := by decide
  obtain ⟨_, _, _, _, finished⟩ := list_calls_linearizable init twoAdds_run
    (twoAdds.schedule_run [0, 1, 0, 0, 1, 0, 1, 1, 1, 1, 1, 1])
  obtain ⟨_, reads⟩ := finished (by decide)
  exact ⟨order, reads⟩

end OsbKernel
