import OsbKernel.Sync.ListSteps

/-!
# The steps of remove_proc_from_list

The loop keeps the slot to remove in front of it: the slot it stands on comes
before that one, and the slot behind it is locked too.  The unlinking step has
both the slot and the one before it locked.
-/

namespace OsbKernel

open Function LinkedChain
open scoped List

variable {κ : Type} {s : ListSys κ} {c : κ} {k : ListLock} {ls : Lists} {l : ListId} {i : Slot}

variable {prev start : Option Slot} {curr : Slot} {pc : RemovePc} {C : ListId → List Slot}

theorem ListInv.behind_apart {x y : Slot} (inv : ListInv s)
    (known : Behind s.lists s.contents l prev curr) (same : prev = some x)
    (order : [curr, y] <+ s.contents l) : y ≠ x := by
  rintro rfl
  obtain ⟨listed, link⟩ := known _ same
  have front := (inv.family.chain l).sublist_next (List.singleton_sublist.mp listed) link
  exact Chain.order_asymm (inv.family.nodup l) front order

theorem ListInv.unheld_behind (canRelease : Bool) {y : Slot}
    (inv : ListInv s) (known : Behind s.lists s.contents l prev curr)
    (order : [curr, y] <+ s.contents l) :
    .state y ∉ .state curr :: (lockPrev prev ++ lockIf canRelease l) := by
  have apart : y ≠ curr := by
    rintro rfl
    exact List.nodup_iff_sublist.mp (inv.family.nodup l) _ order
  cases prev with
  | none => cases canRelease <;> simp [lockPrev, lockIf, apart]
  | some x =>
    have further := inv.behind_apart known rfl order
    cases canRelease <;> simp [lockPrev, lockIf, apart, further]

variable [DecidableEq κ]

theorem ListFrame.remove_not_pends (l' : ListId) :
    ¬ (ListFrame.remove l i pc).Pends l' := by
  simp [ListFrame.Pends]

theorem RemovePc.loop_ok (canRelease : Bool)
    (chain : Chain ls.next start (C l))
    (order : [curr, i] <+ C l) (known : Behind ls C l prev curr) :
    ∃ pc, RemovePc.loop i prev curr (ls.next curr) canRelease = .ok pc ∧ pc.Ok ls C l i ∧
      pc.holds l i = .state curr :: (lockPrev prev ++ lockIf canRelease l) := by
  obtain ⟨n, link, place⟩ := chain.next_before order
  rw [link]
  by_cases found : n = i
  · subst found
    exact ⟨_, rfl, by rw [if_pos rfl]; exact ⟨order, link, known⟩, by rw [if_pos rfl]; rfl⟩
  · refine ⟨_, rfl, ?_, by rw [if_neg found]; rfl⟩
    rw [if_neg found]
    exact ⟨order, link, found, known⟩

theorem RemovePc.advance_ok (canRelease : Bool) {next : Slot}
    (chain : Chain ls.next start (C l)) (order : [curr, i] <+ C l)
    (link : ls.next curr = some next) (apart : next ≠ i) :
    ∃ pc, RemovePc.advance ls i curr next canRelease = .ok pc ∧ pc.Ok ls C l i ∧
      pc.holds l i = .state next :: .state curr :: lockIf canRelease l := by
  obtain ⟨n, same, place⟩ := chain.next_before order
  rw [link] at same
  cases same
  have order' : [next, i] <+ C l := place.resolve_left apart
  have known : Behind ls C l (some curr) next := by
    rintro x ⟨⟩
    exact ⟨List.singleton_sublist.mpr (order.subset (by simp)), link⟩
  cases canRelease with
  | true => exact ⟨_, rfl, ⟨order', rfl, known⟩, rfl⟩
  | false => exact RemovePc.loop_ok false chain order' known

theorem ListInv.remove_acquires {pc' : RemovePc} (inv : ListInv s)
    (here : s.frame c = some (.remove l i pc)) (op : pc.op s.lists l i = .ok (.acquire k))
    (unheld : k ∉ pc.holds l i) (resumed : pc.resume s.lists l i = .ok (s.lists, some pc'))
    (locks : (pc'.holds l i).Perm (k :: pc.holds l i))
    (silent : (ListFrame.remove l i pc).commits = false)
    (ok : s.owner k = none → pc'.Ok s.lists s.contents l i) : s.Fine c (.remove l i pc) := by
  have moves : (ListFrame.remove l i pc).resume s.lists =
      .ok (s.lists, some (.remove l i pc')) := by
    simp [ListFrame.resume, resumed]
  apply inv.acquires here op unheld moves locks
  · rfl
  · exact silent
  · exact ListFrame.remove_not_pends
  · exact ListFrame.remove_not_pends
  · exact ok

theorem ListInv.remove_releases {next : Option RemovePc} (inv : ListInv s)
    (here : s.frame c = some (.remove l i pc)) (op : pc.op s.lists l i = .ok (.release k))
    (resumed : pc.resume s.lists l i = .ok (s.lists, next))
    (locks : (pc.holds l i).Perm (k :: holdsOf (next.map (.remove l i))))
    (silent : (ListFrame.remove l i pc).commits = false)
    (ok : ∀ pc', next = some pc' → pc'.Ok s.lists s.contents l i) : s.Fine c (.remove l i pc) := by
  have moves : (ListFrame.remove l i pc).resume s.lists =
      .ok (s.lists, next.map (.remove l i)) := by
    simp [ListFrame.resume, resumed]
  apply inv.releases here op moves locks
  · intro g now
    obtain ⟨pc', _, rfl⟩ := Option.map_eq_some_iff.mp now
    rfl
  · exact silent
  · exact ListFrame.remove_not_pends
  · intro g now
    obtain ⟨pc', _, rfl⟩ := Option.map_eq_some_iff.mp now
    exact ListFrame.remove_not_pends
  · intro g now
    obtain ⟨pc', found, rfl⟩ := Option.map_eq_some_iff.mp now
    exact ok pc' found

theorem ListInv.remove_acquireList (inv : ListInv s)
    (here : s.frame c = some (.remove l i .acquireList)) :
    s.Fine c (.remove l i .acquireList) := by
  have listed : [i] <+ s.contents l := inv.frames c _ here
  cases owned : s.owner (.list l) with
  | some c' => exact .inl ⟨.list l, rfl, by simp [ListFrame.holds, RemovePc.holds], by simp [owned]⟩
  | none =>
    obtain ⟨f, head, _, _⟩ := inv.first_of_mem (inv.not_pending_of_free owned)
      (List.singleton_sublist.mp listed)
    have resumed : RemovePc.acquireList.resume s.lists l i =
        .ok (s.lists, some (if f = i then .acquireHead else .acquireFirst)) := by
      simp [RemovePc.resume, head]
    apply inv.remove_acquires here rfl (by simp [RemovePc.holds]) resumed
    · split <;> exact List.Perm.refl _
    · rfl
    · intro _
      by_cases same : f = i
      · subst same
        rw [if_pos rfl]
        exact ⟨listed, head⟩
      · rw [if_neg same]
        exact ⟨listed, f, head, same⟩

theorem ListInv.remove_acquireHead (inv : ListInv s)
    (here : s.frame c = some (.remove l i .acquireHead)) :
    s.Fine c (.remove l i .acquireHead) := by
  obtain ⟨listed, head⟩ := inv.frames c _ here
  have holds : .list l ∈ (ListFrame.remove l i .acquireHead).holds := by
    simp [ListFrame.holds, RemovePc.holds]
  have quiet := inv.not_pending_of_held here holds (ListFrame.remove_not_pends l)
  obtain ⟨rest, shape⟩ : ∃ rest, s.contents l = i :: rest := by
    have front := inv.family.first_eq l
    rw [ListSys.head_of_not_pending quiet, head] at front
    exact List.head?_eq_some_iff.mp front.symm
  have commits : (ListFrame.remove l i .acquireHead).commits = true := rfl
  have resumed : (ListFrame.remove l i .acquireHead).resume s.lists =
      .ok ({ first := update s.lists.first l (s.lists.next i)
             next := update s.lists.next i none }, some (.remove l i .releaseHead)) := by
    simp [ListFrame.resume, RemovePc.resume, head]
  refine .inl ⟨.state i, rfl, by simp [ListFrame.holds, RemovePc.holds], fun unowned => ?_⟩
  apply inv.proceed here resumed
  · constructor
    · exact .inl ⟨rfl, unowned, List.Perm.refl _⟩
    · rintro _ ⟨⟩
      rfl
    · intro x changed
      by_cases same : x = i
      · subst same
        simp [holdsOf, ListFrame.holds, RemovePc.holds]
      · exact absurd (update_of_ne same _ _) changed
    · intro l' changed
      by_cases same : l' = l
      · subst same
        simp [holdsOf, ListFrame.holds, RemovePc.holds]
      · exact absurd (update_of_ne same _ _) changed
    · exact fun _ => ⟨i, rfl, by simp [holdsOf, ListFrame.holds, RemovePc.holds], .inr holds⟩
  · have heads : (s.proceed c (.remove l i .acquireHead) (.state i) (some c)).head =
        update s.head l (s.lists.next i) := by
      funext l'
      by_cases same : l' = l
      · subst same
        rw [inv.head_held here resumed holds]
        · simp only [update_self]
        · rintro _ ⟨⟩
          exact ListFrame.remove_not_pends l'
      · rw [update_of_ne same]
        apply ListSys.head_quiet here resumed (ListFrame.remove_not_pends l')
        · rintro _ ⟨⟩
          exact ListFrame.remove_not_pends l'
        · exact update_of_ne same _ _
    have effect : (ListFrame.remove l i .acquireHead).call.apply s.contents =
        update s.contents l rest := by
      simp [ListFrame.call, ListCall.apply, drop, shape]
    rw [heads, if_pos commits, effect]
    exact inv.family.unlinkFirst shape
  · rintro _ ⟨⟩
    exact inv.family.notMem_drop (List.singleton_sublist.mp listed)

theorem ListInv.remove_acquireFirst (inv : ListInv s)
    (here : s.frame c = some (.remove l i .acquireFirst)) :
    s.Fine c (.remove l i .acquireFirst) := by
  obtain ⟨listed, f, head, apart⟩ := inv.frames c _ here
  have quiet : ¬ s.Pending l := inv.not_pending_of_held here
    (by simp [ListFrame.holds, RemovePc.holds]) (ListFrame.remove_not_pends l)
  obtain ⟨f', head', _, order⟩ := inv.first_of_mem quiet (List.singleton_sublist.mp listed)
  rw [head] at head'
  cases head'
  have known : Behind s.lists s.contents l none f := by
    rintro _ ⟨⟩
  obtain ⟨pc, looped, ok, holds⟩ :=
    RemovePc.loop_ok true (inv.family.chain l) (order apart) known
  have op : RemovePc.acquireFirst.op s.lists l i = .ok (.acquire (.state f)) := by
    simp [RemovePc.op, head]
  have resumed : RemovePc.acquireFirst.resume s.lists l i = .ok (s.lists, some pc) := by
    simp [RemovePc.resume, head, looped]
  apply inv.remove_acquires here op (by simp [RemovePc.holds]) resumed
  · rw [holds]
    exact List.Perm.refl _
  · rfl
  · exact fun _ => ok

theorem ListInv.remove_acquireNext {next : Slot} {canRelease : Bool}
    (inv : ListInv s) (here : s.frame c = some (.remove l i (.acquireNext prev curr next canRelease))) :
    s.Fine c (.remove l i (.acquireNext prev curr next canRelease)) := by
  obtain ⟨order, link, apart, known⟩ := inv.frames c _ here
  have chain := inv.family.chain l
  have further : [curr, next] <+ s.contents l := chain.sublist_next (order.subset (by simp)) link
  have unheld := inv.unheld_behind canRelease known further
  cases prev with
  | some x =>
    apply inv.remove_acquires here rfl unheld rfl
    · exact List.Perm.swap _ _ _
    · rfl
    · exact fun _ => ⟨order, link, apart⟩
  | none =>
    obtain ⟨pc, advanced, ok, holds⟩ := RemovePc.advance_ok canRelease chain order link apart
    have resumed : (RemovePc.acquireNext none curr next canRelease).resume s.lists l i =
        .ok (s.lists, some pc) := by
      simp [RemovePc.resume, advanced]
    apply inv.remove_acquires here rfl unheld resumed
    · rw [holds]
      exact List.Perm.refl _
    · rfl
    · exact fun _ => ok

theorem ListInv.remove_acquireNode {canRelease : Bool}
    (inv : ListInv s) (here : s.frame c = some (.remove l i (.acquireNode prev curr canRelease))) :
    s.Fine c (.remove l i (.acquireNode prev curr canRelease)) := by
  obtain ⟨order, link, known⟩ := inv.frames c _ here
  have front : curr ∈ s.contents l := order.subset (by simp)
  have listed : i ∈ s.contents l := order.subset (by simp)
  have commits : (ListFrame.remove l i (.acquireNode prev curr canRelease)).commits = true := rfl
  refine .inl ⟨.state i, rfl, inv.unheld_behind canRelease known order, fun unowned => ?_⟩
  apply inv.proceed here rfl
  · constructor
    · exact .inl ⟨rfl, unowned, List.Perm.refl _⟩
    · rintro _ ⟨⟩
      rfl
    · intro x changed
      by_cases node : x = i
      · subst node
        simp [holdsOf, ListFrame.holds, RemovePc.holds]
      by_cases before : x = curr
      · subst before
        simp [holdsOf, ListFrame.holds, RemovePc.holds]
      · exact absurd ((update_of_ne node _ _).trans (update_of_ne before _ _)) changed
    · exact fun l' changed => absurd rfl changed
    · intro _
      refine ⟨i, rfl, by simp [holdsOf, ListFrame.holds, RemovePc.holds], .inl ?_⟩
      exact List.ne_nil_of_mem listed
  · have heads : (s.proceed c (.remove l i (.acquireNode prev curr canRelease)) (.state i)
        (some c)).head = s.head := by
      funext l'
      apply ListSys.head_quiet here rfl (ListFrame.remove_not_pends l')
      · rintro _ ⟨⟩
        exact ListFrame.remove_not_pends l'
      · rfl
    obtain ⟨before, after, shape⟩ := (inv.family.chain l).split_next front link
    have distinct := inv.family.nodup l
    rw [shape] at distinct
    have effect : (ListFrame.remove l i (.acquireNode prev curr canRelease)).call.apply
        s.contents = update s.contents l (before ++ curr :: after) := by
      simp only [ListFrame.call, ListCall.apply, drop, shape, erase_middle distinct]
    rw [heads, if_pos commits, effect]
    exact inv.family.unlink shape
  · rintro _ ⟨⟩
    exact inv.family.notMem_drop listed

theorem ListInv.remove_fine (inv : ListInv s)
    (here : s.frame c = some (.remove l i pc)) : s.Fine c (.remove l i pc) := by
  have ok := inv.frames c _ here
  have chain := inv.family.chain l
  cases pc with
  | acquireList => exact inv.remove_acquireList here
  | acquireHead => exact inv.remove_acquireHead here
  | acquireFirst => exact inv.remove_acquireFirst here
  | acquireNext prev curr next canRelease => exact inv.remove_acquireNext here
  | acquireNode prev curr canRelease => exact inv.remove_acquireNode here
  | releasePrev prev curr next canRelease =>
    obtain ⟨order, link, apart⟩ := ok
    obtain ⟨pc, advanced, ok, holds⟩ := RemovePc.advance_ok canRelease chain order link apart
    have resumed : (RemovePc.releasePrev prev curr next canRelease).resume s.lists l i =
        .ok (s.lists, some pc) := by
      simp [RemovePc.resume, advanced]
    apply inv.remove_releases here rfl resumed
    · rw [Option.map_some, holdsOf, ListFrame.holds, holds]
      exact ((List.Perm.swap _ _ _).trans ((List.Perm.swap _ _ _).cons _)).trans
        (List.Perm.swap _ _ _)
    · rfl
    · rintro _ ⟨⟩
      exact ok
  | releaseEarly prev curr next =>
    obtain ⟨order, rfl, known⟩ := ok
    obtain ⟨pc, looped, ok, holds⟩ := RemovePc.loop_ok false chain order known
    have resumed : (RemovePc.releaseEarly prev curr (s.lists.next curr)).resume s.lists l i =
        .ok (s.lists, some pc) := by
      simp [RemovePc.resume, looped]
    apply inv.remove_releases here rfl resumed
    · rw [Option.map_some, holdsOf, ListFrame.holds, holds]
      cases prev with
      | none => exact List.Perm.swap _ _ _
      | some x => exact ((List.Perm.swap _ _ _).cons _).trans (List.Perm.swap _ _ _)
    · rfl
    · rintro _ ⟨⟩
      exact ok
  | releaseHead | releaseNode prev curr canRelease =>
    apply inv.remove_releases here rfl rfl (List.Perm.refl _) rfl
    rintro _ ⟨⟩
    exact ok
  | releaseCurr prev curr canRelease =>
    cases prev with
    | some x =>
      apply inv.remove_releases here rfl rfl (List.Perm.refl _) rfl
      rintro _ ⟨⟩
      exact ok
    | none =>
      cases canRelease with
      | false => exact inv.remove_releases here rfl rfl (List.Perm.refl _) rfl (by simp)
      | true =>
        apply inv.remove_releases here rfl rfl (List.Perm.refl _) rfl
        rintro _ ⟨⟩
        exact ok
  | releaseLast prev canRelease =>
    cases canRelease with
    | false => exact inv.remove_releases here rfl rfl (List.Perm.refl _) rfl (by simp)
    | true =>
      apply inv.remove_releases here rfl rfl (List.Perm.refl _) rfl
      rintro _ ⟨⟩
      exact ok
  | releaseList => exact inv.remove_releases here rfl rfl (List.Perm.refl _) rfl (by simp)

end OsbKernel
