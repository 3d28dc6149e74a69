import OsbKernel.Sync.ListSteps

/-!
# The steps of add_proc_to_list

Three of them write: the head of an empty list is set as soon as the list lock is held, the link
of its only slot under the `stateLock`, and a slot is linked behind a non-empty list with the last
slot locked.
-/

namespace OsbKernel

open Function LinkedChain
open scoped List

variable {κ : Type} [DecidableEq κ] {s : ListSys κ} {c : κ} {k : ListLock} {ls : Lists} {l : ListId} {i : Slot}

variable {curr : Slot} {canRelease : Bool} {next : Option Slot}

theorem AddPc.loop_ok {C : ListId → List Slot}
    (free : ∀ l', i ∉ C l') (listed : [curr] <+ C l) :
    (AddPc.loop curr (ls.next curr) canRelease).Ok ls C l i := by
  cases link : ls.next curr with
  | none | some n => exact ⟨free, listed, link⟩

theorem AddPc.loop_holds :
    (AddPc.loop curr next canRelease).holds l i = .state curr :: lockIf canRelease l := by
  cases next with
  | none => rfl
  | some n => rfl

theorem AddPc.loop_not_pends
    (l' : ListId) : ¬ (ListFrame.add l i (AddPc.loop curr next canRelease)).Pends l' := by
  rintro ⟨j, same⟩
  cases next with
  | none => cases same
  | some n => cases same

theorem ListInv.add_acquireList (inv : ListInv s) (here : s.frame c = some (.add l i .acquireList)) :
    s.Fine c (.add l i .acquireList) := by
  have free : ∀ l', i ∉ s.contents l' := inv.frames c _ here
  cases head : s.lists.first l with
  | some f =>
    have resumed : (ListFrame.add l i .acquireList).resume s.lists =
        .ok (s.lists, some (.add l i .acquireFirst)) := by
      simp [ListFrame.resume, AddPc.resume, head]
    apply inv.acquires here rfl (by simp [ListFrame.holds, AddPc.holds]) resumed
    · exact List.Perm.refl _
    · rfl
    · rfl
    · simp [ListFrame.Pends]
    · simp [ListFrame.Pends]
    · exact fun _ => ⟨free, by simp [head]⟩
  | none =>
    -- The head is set at once, but the link of the slot only under its lock.
    have resumed : (ListFrame.add l i .acquireList).resume s.lists =
        .ok ({ s.lists with first := update s.lists.first l (some i) },
          some (.add l i .acquireOnly)) := by
      simp [ListFrame.resume, AddPc.resume, head]
    refine .inl ⟨.list l, rfl, by simp [ListFrame.holds, AddPc.holds], fun unowned => ?_⟩
    have quiet := inv.not_pending_of_free unowned
    have empty : s.contents l = [] := by
      rw [← inv.family.first_eq_none_iff, ListSys.head_of_not_pending quiet, head]
    apply inv.proceed here resumed
    · constructor
      · exact .inl ⟨rfl, unowned, List.Perm.refl _⟩
      · rintro _ ⟨⟩
        rfl
      · exact fun x changed => absurd rfl changed
      · intro l' changed
        by_cases same : l' = l
        · subst same
          simp [holdsOf, ListFrame.holds, AddPc.holds]
        · exact absurd (update_of_ne same _ _) changed
      · exact fun commits => by cases commits
    · have heads : (s.proceed c (.add l i .acquireList) (.list l) (some c)).head = s.head := by
        funext l'
        by_cases same : l' = l
        · subst same
          rw [ListSys.head_of_not_pending quiet, head]
          refine ListSys.head_of_pending ⟨c, i, ?_⟩
          rw [ListSys.proceed_eq resumed]
          exact update_self _ _ _
        · apply ListSys.head_quiet here resumed
          · simp [ListFrame.Pends]
          · rintro _ ⟨⟩ ⟨j, equal⟩
            cases equal
            exact same rfl
          · exact update_of_ne same _ _
      rw [heads]
      exact inv.family
    · rintro _ ⟨⟩
      exact ⟨free, empty, update_self _ _ _⟩

theorem ListInv.add_acquireOnly (inv : ListInv s) (here : s.frame c = some (.add l i .acquireOnly)) :
    s.Fine c (.add l i .acquireOnly) := by
  obtain ⟨free, empty, head⟩ := inv.frames c _ here
  have resumed : (ListFrame.add l i .acquireOnly).resume s.lists =
      .ok ({ s.lists with next := update s.lists.next i none }, some (.add l i .releaseOnly)) := by
    simp [ListFrame.resume, AddPc.resume, head]
  refine .inl ⟨.state i, rfl, by simp [ListFrame.holds, AddPc.holds], fun unowned => ?_⟩
  have holds : .list l ∈ (ListFrame.add l i .acquireOnly).holds := by
    simp [ListFrame.holds, AddPc.holds]
  have commits : (ListFrame.add l i .acquireOnly).commits = true := rfl
  apply inv.proceed here resumed
  · constructor
    · exact .inl ⟨rfl, unowned, List.Perm.refl _⟩
    · rintro _ ⟨⟩
      rfl
    · intro x changed
      by_cases same : x = i
      · subst same
        simp [holdsOf, ListFrame.holds, AddPc.holds]
      · exact absurd (update_of_ne same _ _) changed
    · exact fun l' changed => absurd rfl changed
    · exact fun _ => ⟨i, rfl, by simp [holdsOf, ListFrame.holds, AddPc.holds], .inr holds⟩
  · have heads : (s.proceed c (.add l i .acquireOnly) (.state i) (some c)).head =
        update s.head l (some i) := by
      funext l'
      by_cases same : l' = l
      · subst same
        rw [update_self, inv.head_held here resumed holds, head]
        rintro _ ⟨⟩ ⟨j, equal⟩
        cases equal
      · rw [update_of_ne same]
        apply ListSys.head_quiet here resumed
        · rintro ⟨j, equal⟩
          cases equal
          exact same rfl
        · rintro _ ⟨⟩ ⟨j, equal⟩
          cases equal
        · rfl
    have effect : (ListFrame.add l i .acquireOnly).call.apply s.contents =
        update s.contents l [i] := by
      simp [ListFrame.call, ListCall.apply, put, empty]
    rw [heads, if_pos commits, effect]
    exact inv.family.appendEmpty empty free
  · rintro _ ⟨⟩
    exact List.singleton_sublist.mpr (mem_put_self l i)

theorem ListInv.add_acquireFirst (inv : ListInv s)
    (here : s.frame c = some (.add l i .acquireFirst)) : s.Fine c (.add l i .acquireFirst) := by
  obtain ⟨free, nonempty⟩ := inv.frames c _ here
  obtain ⟨f, head⟩ := Option.ne_none_iff_exists'.mp nonempty
  have quiet : ¬ s.Pending l := by
    apply inv.not_pending_of_held here
    · simp [ListFrame.holds, AddPc.holds]
    · simp [ListFrame.Pends]
  have listed : f ∈ s.contents l :=
    inv.family.mem_of_first (by rw [ListSys.head_of_not_pending quiet, head])
  have op : (ListFrame.add l i .acquireFirst).op s.lists = .ok (.acquire (.state f)) := by
    simp [ListFrame.op, AddPc.op, head]
  have resumed : (ListFrame.add l i .acquireFirst).resume s.lists =
      .ok (s.lists, some (.add l i (AddPc.loop f (s.lists.next f) true))) := by
    simp [ListFrame.resume, AddPc.resume, head]
  apply inv.acquires here op (by simp [ListFrame.holds, AddPc.holds]) resumed
  · rw [ListFrame.holds, AddPc.loop_holds]
    exact List.Perm.refl _
  · rfl
  · rfl
  · simp [ListFrame.Pends]
  · exact AddPc.loop_not_pends
  · exact fun _ => AddPc.loop_ok free (List.singleton_sublist.mpr listed)

theorem ListInv.add_acquireNext {next : Slot} (inv : ListInv s)
    (here : s.frame c = some (.add l i (.acquireNext curr next canRelease))) :
    s.Fine c (.add l i (.acquireNext curr next canRelease)) := by
  obtain ⟨free, listed, link⟩ := inv.frames c _ here
  have apart : next ≠ curr := by
    rintro rfl
    have twice := (inv.family.chain l).sublist_next (List.singleton_sublist.mp listed) link
    exact List.nodup_iff_sublist.mp (inv.family.nodup l) _ twice
  apply inv.acquires here rfl _ rfl
  · exact List.Perm.swap _ _ _
  · rfl
  · rfl
  · simp [ListFrame.Pends]
  · simp [ListFrame.Pends]
  · exact fun _ => ⟨free, listed, link⟩
  · cases canRelease with
    | false | true => simp [ListFrame.holds, AddPc.holds, lockIf, apart]

theorem ListInv.add_releaseCurr {next : Slot} (inv : ListInv s)
    (here : s.frame c = some (.add l i (.releaseCurr curr next canRelease))) :
    s.Fine c (.add l i (.releaseCurr curr next canRelease)) := by
  obtain ⟨free, listed, link⟩ := inv.frames c _ here
  have behind : [next] <+ s.contents l := by
    have order := (inv.family.chain l).sublist_next (List.singleton_sublist.mp listed) link
    exact List.singleton_sublist.mpr (order.subset (by simp))
  cases canRelease with
  | true =>
    apply inv.releases here rfl rfl
    · exact List.Perm.refl _
    · rintro _ ⟨⟩
      rfl
    · rfl
    · simp [ListFrame.Pends]
    · rintro _ ⟨⟩
      simp [ListFrame.Pends]
    · rintro _ ⟨⟩
      exact ⟨free, behind, rfl⟩
  | false =>
    apply inv.releases here rfl rfl
    · rw [Option.map_some, holdsOf, ListFrame.holds, ListFrame.holds, AddPc.loop_holds]
      exact List.Perm.refl _
    · rintro _ ⟨⟩
      rfl
    · rfl
    · simp [ListFrame.Pends]
    · rintro _ ⟨⟩
      exact AddPc.loop_not_pends
    · rintro _ ⟨⟩
      exact AddPc.loop_ok free behind

theorem ListInv.add_releaseEarly (inv : ListInv s)
    (here : s.frame c = some (.add l i (.releaseEarly curr next))) :
    s.Fine c (.add l i (.releaseEarly curr next)) := by
  obtain ⟨free, listed, link⟩ := inv.frames c _ here
  subst link
  apply inv.releases here rfl rfl
  · rw [Option.map_some, holdsOf, ListFrame.holds, ListFrame.holds, AddPc.loop_holds]
    exact List.Perm.swap _ _ _
  · rintro _ ⟨⟩
    rfl
  · rfl
  · simp [ListFrame.Pends]
  · rintro _ ⟨⟩
    exact AddPc.loop_not_pends
  · rintro _ ⟨⟩
    exact AddPc.loop_ok free listed

theorem ListInv.add_acquireNew (inv : ListInv s)
    (here : s.frame c = some (.add l i (.acquireNew curr canRelease))) :
    s.Fine c (.add l i (.acquireNew curr canRelease)) := by
  obtain ⟨free, listed, ends⟩ := inv.frames c _ here
  have member := List.singleton_sublist.mp listed
  have apart : i ≠ curr := by
    rintro rfl
    exact free l member
  have commits : (ListFrame.add l i (.acquireNew curr canRelease)).commits = true := rfl
  refine .inl ⟨.state i, rfl, ?_, fun unowned => ?_⟩
  · cases canRelease with
    | false | true => simp [ListFrame.holds, AddPc.holds, lockIf, apart]
  apply inv.proceed here rfl
  · constructor
    · exact .inl ⟨rfl, unowned, List.Perm.refl _⟩
    · rintro _ ⟨⟩
      rfl
    · intro x changed
      by_cases new : x = i
      · subst new
        simp [holdsOf, ListFrame.holds, AddPc.holds]
      by_cases last : x = curr
      · subst last
        simp [holdsOf, ListFrame.holds, AddPc.holds]
      · exact absurd ((update_of_ne new _ _).trans (update_of_ne last _ _)) changed
    · exact fun l' changed => absurd rfl changed
    · intro _
      refine ⟨i, rfl, by simp [holdsOf, ListFrame.holds, AddPc.holds], .inl ?_⟩
      exact List.ne_nil_of_mem member
  · have heads : (s.proceed c (.add l i (.acquireNew curr canRelease)) (.state i) (some c)).head =
        s.head := by
      funext l'
      apply ListSys.head_quiet here rfl
      · simp [ListFrame.Pends]
      · rintro _ ⟨⟩
        simp [ListFrame.Pends]
      · rfl
    obtain ⟨before, shape⟩ := (inv.family.chain l).split_last member ends
    rw [heads, if_pos commits]
    exact inv.family.append shape free
  · rintro _ ⟨⟩
    exact List.singleton_sublist.mpr (mem_put_self l i)

theorem ListInv.add_returns {pc : AddPc} {k : ListLock} {next : Option AddPc} (inv : ListInv s)
    (here : s.frame c = some (.add l i pc)) (op : pc.op s.lists l i = .ok (.release k))
    (resumed : pc.resume s.lists l i = .ok (s.lists, next))
    (locks : (pc.holds l i).Perm (k :: holdsOf (next.map (.add l i))))
    (silent : (ListFrame.add l i pc).commits = false) (before : pc ≠ .acquireOnly)
    (after : next ≠ some .acquireOnly)
    (ok : ∀ pc', next = some pc' → pc'.Ok s.lists s.contents l i) : s.Fine c (.add l i pc) := by
  have moves : (ListFrame.add l i pc).resume s.lists = .ok (s.lists, next.map (.add l i)) := by
    simp [ListFrame.resume, resumed]
  apply inv.releases here op moves
  · exact locks
  · intro g now
    obtain ⟨pc', _, rfl⟩ := Option.map_eq_some_iff.mp now
    rfl
  · exact silent
  · rintro l' ⟨j, equal⟩
    cases equal
    exact before rfl
  · rintro g now l' ⟨j, rfl⟩
    obtain ⟨pc', found, equal⟩ := Option.map_eq_some_iff.mp now
    cases equal
    exact after found
  · intro g now
    obtain ⟨pc', found, rfl⟩ := Option.map_eq_some_iff.mp now
    exact ok pc' found

theorem ListInv.add_fine {pc : AddPc} (inv : ListInv s) (here : s.frame c = some (.add l i pc)) :
    s.Fine c (.add l i pc) := by
  have ok := inv.frames c _ here
  cases pc with
  | acquireList => exact inv.add_acquireList here
  | acquireOnly => exact inv.add_acquireOnly here
  | acquireFirst => exact inv.add_acquireFirst here
  | acquireNext curr next canRelease => exact inv.add_acquireNext here
  | releaseCurr curr next canRelease => exact inv.add_releaseCurr here
  | releaseEarly curr next => exact inv.add_releaseEarly here
  | acquireNew curr canRelease => exact inv.add_acquireNew here
  | releaseOnly | releaseNew curr canRelease =>
    apply inv.add_returns here rfl rfl (List.Perm.refl _) rfl nofun nofun
    rintro _ ⟨⟩
    exact ok
  | releaseLast curr canRelease =>
    cases canRelease with
    | true =>
      apply inv.add_returns here rfl rfl (List.Perm.refl _) rfl nofun nofun
      rintro _ ⟨⟩
      exact ok
    | false => exact inv.add_returns here rfl rfl (List.Perm.refl _) rfl nofun nofun nofun
  | releaseList => exact inv.add_returns here rfl rfl (List.Perm.refl _) rfl nofun nofun nofun

end OsbKernel
