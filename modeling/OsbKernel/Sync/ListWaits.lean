import OsbKernel.Sync.ListInvariant
import OsbKernel.Lib.WaitGraph

/-!
# Which list locks a call waits for while it holds others

A call that spins for a lock holds only locks before it: the list lock comes before every
`stateLock`, and the `stateLock` of a slot before those behind it on the list. The one exception
is the `stateLock` of a slot on no list, and no call that spins holds that.
-/

namespace OsbKernel

open Function LinkedChain
open scoped List

inductive ListLock.Before (C : ListId → List Slot) : ListLock → ListLock → Prop where
  | list (l : ListId) (i : Slot) : Before C (.list l) (.state i)
  | state {l : ListId} {i j : Slot} (order : [i, j] <+ C l) : Before C (.state i) (.state j)

variable {C : ListId → List Slot} {ls : Lists} {heads : ListId → Option Slot}

variable {k : ListLock}

theorem ListLock.Before.irrefl (family : Family heads ls.next C) :
    ¬ Before C k k := by
  intro before
  cases before with
  | state order => exact List.nodup_iff_sublist.mp (family.nodup _) _ order

theorem ListLock.Before.trans {k₁ k₂ k₃ : ListLock} (family : Family heads ls.next C)
    (left : Before C k₁ k₂) (right : Before C k₂ k₃) : Before C k₁ k₃ := by
  cases left with
  | list l i =>
    cases right with
    | state order => exact .list _ _
  | @state l i j order =>
    cases right with
    | @state l' _ j' order' =>
      have same : l = l' :=
        family.disjoint (x := j) (order.subset (by simp)) (order'.subset (by simp))
      subst same
      exact .state (Chain.order_trans (family.nodup l) order order')

/-- Before it takes effect, a call in its loop holds `stateLock`s of slots on its list. -/
theorem ListFrame.Ok.listed {g : ListFrame} {x : Slot} (ok : g.Ok ls C)
    (op : g.op ls = .ok (.acquire k)) (held : .state x ∈ g.holds) : ∃ l, x ∈ C l := by
  cases g with
  | pickAcquire l => cases held
  | pickRelease l => cases op
  | add l i pc =>
    cases pc with
    | acquireNext curr n canRelease | acquireNew curr canRelease =>
      obtain ⟨_, listed, _⟩ := ok
      refine ⟨l, List.singleton_sublist.mp ?_⟩
      cases canRelease <;>
        simp_all [ListFrame.holds, AddPc.holds, lockIf]
    | acquireList => cases held
    | acquireOnly | acquireFirst => simp [ListFrame.holds, AddPc.holds] at held
    | _ => cases op
  | remove l i pc =>
    have inLoop : ∀ {prev curr canRelease}, [curr, i] <+ C l → Behind ls C l prev curr →
        .state x ∈ .state curr :: (lockPrev prev ++ lockIf canRelease l) → ∃ l, x ∈ C l := by
      intro prev curr canRelease order known member
      refine ⟨l, ?_⟩
      rcases List.mem_cons.mp member with same | rest
      · cases same
        exact order.subset (by simp)
      · cases prev with
        | none => cases canRelease <;> simp [lockPrev, lockIf] at rest
        | some y =>
          have here : x = y := by cases canRelease <;> simpa [lockPrev, lockIf] using rest
          subst here
          exact List.singleton_sublist.mp (known x rfl).1
    cases pc with
    | acquireNext prev curr n canRelease => exact inLoop ok.1 ok.2.2.2 held
    | acquireNode prev curr canRelease => exact inLoop ok.1 ok.2.2 held
    | acquireList => cases held
    | acquireHead | acquireFirst => simp [ListFrame.holds, RemovePc.holds] at held
    | _ => cases op

theorem RemovePc.before_of_loop {l : ListId} {prev : Option Slot} {curr y : Slot}
    {canRelease : Bool} (family : Family heads ls.next C)
    (known : Behind ls C l prev curr) (order : [curr, y] <+ C l)
    (held : k ∈ .state curr :: (lockPrev prev ++ lockIf canRelease l)) :
    ListLock.Before C k (.state y) := by
  rcases List.mem_cons.mp held with rfl | rest
  · exact .state order
  rcases List.mem_append.mp rest with behind | early
  · cases prev with
    | none => cases behind
    | some x =>
      cases List.mem_singleton.mp behind
      obtain ⟨listed, link⟩ := known x rfl
      have front := (family.chain l).sublist_next (List.singleton_sublist.mp listed) link
      exact .state (Chain.order_trans (family.nodup l) front order)
  · cases canRelease with
    | false => cases early
    | true =>
      cases List.mem_singleton.mp early
      exact .list _ _

/-- A call that wants a lock holds only locks before it, unless it wants the
`stateLock` of its own slot, which is on no list. -/
theorem ListFrame.Ok.before {g : ListFrame} {k' : ListLock} (ok : g.Ok ls C)
    (family : Family heads ls.next C) (op : g.op ls = .ok (.acquire k')) (held : k ∈ g.holds) :
    ListLock.Before C k k' ∨ ∃ i, k' = .state i ∧ ∀ l, i ∉ C l := by
  cases g with
  | pickAcquire l => cases held
  | pickRelease l => cases op
  | add l i pc =>
    cases pc with
    | acquireList => cases held
    | acquireOnly =>
      cases op
      cases List.mem_singleton.mp held
      exact .inl (.list _ _)
    | acquireFirst =>
      cases List.mem_singleton.mp held
      cases head : ls.first l with
      | none => simp [ListFrame.op, AddPc.op, head] at op
      | some f =>
        simp only [ListFrame.op, AddPc.op, head] at op
        cases op
        exact .inl (.list _ _)
    | acquireNext curr n canRelease =>
      cases op
      obtain ⟨_, listed, link⟩ := ok
      have order := (family.chain l).sublist_next (List.singleton_sublist.mp listed) link
      have none : Behind ls C l none curr := nofun
      exact .inl (RemovePc.before_of_loop family none order held)
    | acquireNew curr canRelease =>
      cases op
      exact .inr ⟨i, rfl, ok.1⟩
    | _ => cases op
  | remove l i pc =>
    cases pc with
    | acquireList => cases held
    | acquireHead =>
      cases op
      cases List.mem_singleton.mp held
      exact .inl (.list _ _)
    | acquireFirst =>
      cases List.mem_singleton.mp held
      cases head : ls.first l with
      | none => simp [ListFrame.op, RemovePc.op, head] at op
      | some f =>
        simp only [ListFrame.op, RemovePc.op, head] at op
        cases op
        exact .inl (.list _ _)
    | acquireNext prev curr n canRelease =>
      cases op
      obtain ⟨order, link, _, known⟩ := ok
      have further := (family.chain l).sublist_next (order.subset (by simp)) link
      exact .inl (RemovePc.before_of_loop family known further held)
    | acquireNode prev curr canRelease =>
      cases op
      obtain ⟨order, _, known⟩ := ok
      exact .inl (RemovePc.before_of_loop family known order held)
    | _ => cases op

variable {κ : Type} {s : ListSys κ}

def ListSys.Blocked (s : ListSys κ) (c : κ) (k : ListLock) (c' : κ) : Prop :=
  ∃ f, s.frame c = some f ∧ f.op s.lists = .ok (.acquire k) ∧ s.owner k = some c'

theorem ListInv.blocked_before {a b d : κ} {k' : ListLock} (inv : ListInv s)
    (left : s.Blocked a k b) (right : s.Blocked b k' d)
    (onward : WaitGraph.IsBlocked s.Blocked d) : ListLock.Before s.contents k k' := by
  obtain ⟨_, _, _, owned⟩ := left
  obtain ⟨g, there, wants, owned'⟩ := right
  obtain ⟨g', same, held⟩ := (inv.owners b k).mp owned
  rw [there] at same
  cases same
  rcases (inv.frames b g there).before inv.family wants held with before | ⟨i, rfl, off⟩
  · exact before
  · -- The slot is on no list, so a call that spins does not hold its lock.
    obtain ⟨_, _, f, waits, op, _⟩ := onward
    obtain ⟨f', same, held'⟩ := (inv.owners d _).mp owned'
    rw [waits] at same
    cases same
    obtain ⟨l, listed⟩ := (inv.frames d f waits).listed op held'
    exact absurd listed (off l)

theorem ListInv.no_cycle (inv : ListInv s) (c : κ) :
    ¬ Relation.TransGen (WaitGraph.Waits s.Blocked) c c :=
  WaitGraph.no_cycle (fun _ => ListLock.Before.irrefl inv.family)
    (fun _ _ _ => ListLock.Before.trans inv.family)
    (fun _ _ _ _ _ => inv.blocked_before)

end OsbKernel
