import OsbKernel.Sync.ListInvariant

/-!
# Steps of a list call that only move locks

A step that writes neither a link nor a head keeps the invariant when the call that continues
knows what its place in the code says. The heads of the lists are followed through every kind of
step.
-/

namespace OsbKernel

open Function LinkedChain
open scoped List

variable {κ : Type} {s : ListSys κ} {c : κ} {f : ListFrame} {k : ListLock}
  {holder : Option κ} {f' : Option ListFrame} {ls : Lists} {l : ListId} {i : Slot}

/-- The frame is an `add` that has set the head and not yet the link. -/
def ListFrame.Pends (l : ListId) (f : ListFrame) : Prop := ∃ i, f = .add l i .acquireOnly

theorem ListFrame.Pends.holds {f : ListFrame} (pends : f.Pends l) : .list l ∈ f.holds := by
  obtain ⟨i, rfl⟩ := pends
  simp [ListFrame.holds, AddPc.holds]

theorem ListInv.not_pending_of_free (inv : ListInv s) (free : s.owner (.list l) = none) :
    ¬ s.Pending l := by
  rintro ⟨c, i, there⟩
  rw [(inv.owners c _).mpr ⟨_, there, ListFrame.Pends.holds ⟨i, rfl⟩⟩] at free
  cases free

theorem ListInv.not_pending_of_held (inv : ListInv s) (here : s.frame c = some f)
    (held : .list l ∈ f.holds) (idle : ¬ f.Pends l) : ¬ s.Pending l := by
  rintro ⟨c', i, there⟩
  have owned := (inv.owners c' _).mpr ⟨_, there, ListFrame.Pends.holds ⟨i, rfl⟩⟩
  rw [(inv.owners c _).mpr ⟨f, here, held⟩] at owned
  cases owned
  rw [here] at there
  exact idle ⟨i, Option.some.inj there⟩

theorem ListSys.head_of_not_pending (quiet : ¬ s.Pending l) : s.head l = s.lists.first l :=
  if_neg quiet

theorem ListSys.head_of_pending (pending : s.Pending l) : s.head l = none := if_pos pending

theorem ListInv.first_of_mem (inv : ListInv s) (quiet : ¬ s.Pending l) (listed : i ∈ s.contents l) :
    ∃ f, s.lists.first l = some f ∧ f ∈ s.contents l ∧ (f ≠ i → [f, i] <+ s.contents l) := by
  have front := inv.family.first_eq l
  rw [ListSys.head_of_not_pending quiet] at front
  cases shape : s.contents l with
  | nil =>
    rw [shape] at listed
    cases listed
  | cons f rest =>
    rw [shape] at front listed
    refine ⟨f, front, List.mem_cons_self, fun apart => ?_⟩
    have later : i ∈ rest := (List.mem_cons.mp listed).resolve_left (Ne.symm apart)
    exact (List.singleton_sublist.mpr later).cons_cons f

variable [DecidableEq κ]

theorem ListSys.pending_proceed (resumed : f.resume s.lists = .ok (ls, f')) :
    (s.proceed c f k holder).Pending l ↔ (∃ g, f' = some g ∧ g.Pends l) ∨
      ∃ c', c' ≠ c ∧ ∃ i, s.frame c' = some (.add l i .acquireOnly) := by
  rw [ListSys.proceed_eq resumed]
  constructor
  · rintro ⟨c', i, there⟩
    by_cases self : c' = c
    · subst self
      exact .inl ⟨_, by simpa using there, i, rfl⟩
    · exact .inr ⟨c', self, i, by simpa [update_of_ne self] using there⟩
  · rintro (⟨g, now, i, rfl⟩ | ⟨c', self, i, there⟩)
    · exact ⟨c, i, by simpa using now⟩
    · exact ⟨c', i, by simpa [update_of_ne self] using there⟩

theorem ListSys.pending_iff (here : s.frame c = some f) :
    s.Pending l ↔ f.Pends l ∨ ∃ c', c' ≠ c ∧ ∃ i, s.frame c' = some (.add l i .acquireOnly) := by
  constructor
  · rintro ⟨c', i, there⟩
    by_cases self : c' = c
    · subst self
      rw [here] at there
      exact .inl ⟨i, Option.some.inj there⟩
    · exact .inr ⟨c', self, i, there⟩
  · rintro (⟨i, rfl⟩ | ⟨c', _, i, there⟩)
    · exact ⟨c, i, here⟩
    · exact ⟨c', i, there⟩

theorem ListSys.head_quiet (here : s.frame c = some f)
    (resumed : f.resume s.lists = .ok (ls, f')) (before : ¬ f.Pends l)
    (after : ∀ g, f' = some g → ¬ g.Pends l) (first : ls.first l = s.lists.first l) :
    (s.proceed c f k holder).head l = s.head l := by
  have pending : (s.proceed c f k holder).Pending l ↔ s.Pending l := by
    rw [pending_proceed resumed, pending_iff here]
    have none : ¬ ∃ g, f' = some g ∧ g.Pends l := fun ⟨g, now, pends⟩ => after g now pends
    simp [none, before]
  have lists : (s.proceed c f k holder).lists = ls := by
    rw [ListSys.proceed_eq resumed]
  by_cases quiet : s.Pending l
  · rw [head_of_pending quiet, head_of_pending (pending.mpr quiet)]
  · rw [head_of_not_pending quiet, head_of_not_pending (fun h => quiet (pending.mp h)), lists,
      first]

theorem ListInv.head_held (inv : ListInv s) (here : s.frame c = some f)
    (resumed : f.resume s.lists = .ok (ls, f')) (held : .list l ∈ f.holds)
    (after : ∀ g, f' = some g → ¬ g.Pends l) :
    (s.proceed c f k holder).head l = ls.first l := by
  have quiet : ¬ (s.proceed c f k holder).Pending l := by
    rw [ListSys.pending_proceed resumed]
    rintro (⟨g, now, pends⟩ | ⟨c', apart, i, there⟩)
    · exact after g now pends
    · have owned := (inv.owners c' _).mpr ⟨_, there, ListFrame.Pends.holds ⟨i, rfl⟩⟩
      rw [(inv.owners c _).mpr ⟨f, here, held⟩] at owned
      exact apart (Option.some.inj owned).symm
  rw [ListSys.head_of_not_pending quiet, ListSys.proceed_eq resumed]

/-- The next step of a call is neither a panic nor a bad access, and keeps the invariant. -/
def ListSys.Fine (s : ListSys κ) (c : κ) (f : ListFrame) : Prop :=
  (∃ k, f.op s.lists = .ok (.acquire k) ∧ k ∉ f.holds ∧
    (s.owner k = none → ListInv (s.proceed c f k (some c)))) ∨
  (∃ k, f.op s.lists = .ok (.release k) ∧ k ∈ f.holds ∧ ListInv (s.proceed c f k none))

theorem ListInv.quiet (inv : ListInv s) (here : s.frame c = some f)
    (resumed : f.resume s.lists = .ok (s.lists, f'))
    (locks : (holder = some c ∧ s.owner k = none ∧ (holdsOf f').Perm (k :: f.holds)) ∨
      (holder = none ∧ f.holds.Perm (k :: holdsOf f')))
    (same : ∀ g, f' = some g → g.call = f.call) (silent : f.commits = false)
    (before : ∀ l, ¬ f.Pends l) (after : ∀ g, f' = some g → ∀ l, ¬ g.Pends l)
    (ok : ∀ g, f' = some g → g.Ok s.lists s.contents) : ListInv (s.proceed c f k holder) := by
  apply inv.proceed here resumed
  · constructor
    · exact locks
    · exact same
    · exact fun x changed => absurd rfl changed
    · exact fun l changed => absurd rfl changed
    · intro commits
      rw [silent] at commits
      cases commits
  · rw [silent]
    have heads : (s.proceed c f k holder).head = s.head :=
      funext fun l =>
        ListSys.head_quiet here resumed (before l) (fun g now => after g now l) rfl
    rw [heads]
    exact inv.family
  · rw [silent]
    exact ok

theorem ListInv.acquires {g : ListFrame} (inv : ListInv s) (here : s.frame c = some f)
    (op : f.op s.lists = .ok (.acquire k)) (unheld : k ∉ f.holds)
    (resumed : f.resume s.lists = .ok (s.lists, some g)) (locks : g.holds.Perm (k :: f.holds))
    (same : g.call = f.call) (silent : f.commits = false) (before : ∀ l, ¬ f.Pends l)
    (after : ∀ l, ¬ g.Pends l) (ok : s.owner k = none → g.Ok s.lists s.contents) : s.Fine c f := by
  refine .inl ⟨k, op, unheld, fun free => ?_⟩
  apply inv.quiet here resumed (.inl ⟨rfl, free, locks⟩)
  · rintro _ ⟨⟩
    exact same
  · exact silent
  · exact before
  · rintro _ ⟨⟩
    exact after
  · rintro _ ⟨⟩
    exact ok free

theorem ListInv.releases (inv : ListInv s) (here : s.frame c = some f)
    (op : f.op s.lists = .ok (.release k)) (resumed : f.resume s.lists = .ok (s.lists, f'))
    (locks : f.holds.Perm (k :: holdsOf f')) (same : ∀ g, f' = some g → g.call = f.call)
    (silent : f.commits = false) (before : ∀ l, ¬ f.Pends l)
    (after : ∀ g, f' = some g → ∀ l, ¬ g.Pends l)
    (ok : ∀ g, f' = some g → g.Ok s.lists s.contents) : s.Fine c f :=
  .inr ⟨k, op, locks.mem_iff.mpr List.mem_cons_self,
    inv.quiet here resumed (.inr ⟨rfl, locks⟩) same silent before after ok⟩

end OsbKernel
