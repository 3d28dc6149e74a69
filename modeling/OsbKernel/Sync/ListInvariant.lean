import OsbKernel.Sync.ListCalls

/-!
# The invariant of the concurrent list calls

A lock is held by exactly the call whose program counter says so. The links spell the contents of
the lists, except while an `add` has set the head of an empty list and not yet the link of its
slot. What a call knows in between is about slots whose `stateLock` it holds, about its own slot,
and about the head if it holds the list lock; no step of another CPU touches those.
-/

namespace OsbKernel

open Function LinkedChain
open scoped List

def lockIf (canRelease : Bool) (l : ListId) : List ListLock :=
  if canRelease then [.list l] else []

/-- The `stateLock` of `prev`, if there is one. -/
def lockPrev : Option Slot → List ListLock
  | some prev => [.state prev]
  | none => []

def AddPc.holds (l : ListId) (i : Slot) : AddPc → List ListLock
  | acquireList => []
  | acquireOnly => [.list l]
  | releaseOnly => [.state i, .list l]
  | acquireFirst => [.list l]
  | acquireNext curr _ canRelease => .state curr :: lockIf canRelease l
  | releaseCurr curr next canRelease => .state curr :: .state next :: lockIf canRelease l
  | releaseEarly curr _ => [.state curr, .list l]
  | acquireNew curr canRelease => .state curr :: lockIf canRelease l
  | releaseNew curr canRelease => .state i :: .state curr :: lockIf canRelease l
  | releaseLast curr canRelease => .state curr :: lockIf canRelease l
  | releaseList => [.list l]

def RemovePc.holds (l : ListId) (i : Slot) : RemovePc → List ListLock
  | acquireList => []
  | acquireHead => [.list l]
  | releaseHead => [.state i, .list l]
  | acquireFirst => [.list l]
  | acquireNext prev curr _ canRelease => .state curr :: (lockPrev prev ++ lockIf canRelease l)
  | releasePrev prev curr next canRelease =>
    .state curr :: .state next :: .state prev :: lockIf canRelease l
  | releaseEarly prev curr _ => .state curr :: (lockPrev prev ++ [.list l])
  | acquireNode prev curr canRelease => .state curr :: (lockPrev prev ++ lockIf canRelease l)
  | releaseNode prev curr canRelease =>
    .state i :: .state curr :: (lockPrev prev ++ lockIf canRelease l)
  | releaseCurr prev curr canRelease => .state curr :: (lockPrev prev ++ lockIf canRelease l)
  | releaseLast prev canRelease => .state prev :: lockIf canRelease l
  | releaseList => [.list l]

def ListFrame.holds : ListFrame → List ListLock
  | .add l i pc => pc.holds l i
  | .remove l i pc => pc.holds l i
  | .pickAcquire _ => []
  | .pickRelease l => [.list l]

def ListCall.index : ListCall → Option Slot
  | .add _ i => some i
  | .remove _ i => some i
  | .pick _ => none

def ListCall.list : ListCall → ListId
  | .add l _ => l
  | .remove l _ => l
  | .pick l => l

/-- What a call of `add_proc_to_list` knows. -/
def AddPc.Ok (ls : Lists) (C : ListId → List Slot) (l : ListId) (i : Slot) : AddPc → Prop
  | acquireList => ∀ l', i ∉ C l'
  | acquireOnly => (∀ l', i ∉ C l') ∧ C l = [] ∧ ls.first l = some i
  | acquireFirst => (∀ l', i ∉ C l') ∧ ls.first l ≠ none
  | acquireNext curr next _ => (∀ l', i ∉ C l') ∧ [curr] <+ C l ∧ ls.next curr = some next
  | releaseCurr curr next _ => (∀ l', i ∉ C l') ∧ [curr] <+ C l ∧ ls.next curr = some next
  | releaseEarly curr next => (∀ l', i ∉ C l') ∧ [curr] <+ C l ∧ ls.next curr = next
  | acquireNew curr _ => (∀ l', i ∉ C l') ∧ [curr] <+ C l ∧ ls.next curr = none
  | _ => [i] <+ C l

/-- The slot behind which `remove_proc_from_list` has come. -/
def Behind (ls : Lists) (C : ListId → List Slot) (l : ListId) (prev : Option Slot) (curr : Slot) :
    Prop :=
  ∀ x, prev = some x → [x] <+ C l ∧ ls.next x = some curr

/-- What a call of `remove_proc_from_list` knows. -/
def RemovePc.Ok (ls : Lists) (C : ListId → List Slot) (l : ListId) (i : Slot) : RemovePc → Prop
  | acquireList => [i] <+ C l
  | acquireHead => [i] <+ C l ∧ ls.first l = some i
  | acquireFirst => [i] <+ C l ∧ ∃ f, ls.first l = some f ∧ f ≠ i
  | acquireNext prev curr next _ =>
    [curr, i] <+ C l ∧ ls.next curr = some next ∧ next ≠ i ∧ Behind ls C l prev curr
  | releasePrev _ curr next _ => [curr, i] <+ C l ∧ ls.next curr = some next ∧ next ≠ i
  | releaseEarly prev curr next =>
    [curr, i] <+ C l ∧ ls.next curr = next ∧ Behind ls C l prev curr
  | acquireNode prev curr _ =>
    [curr, i] <+ C l ∧ ls.next curr = some i ∧ Behind ls C l prev curr
  | _ => ∀ l', i ∉ C l'

def ListFrame.Ok (ls : Lists) (C : ListId → List Slot) : ListFrame → Prop
  | .add l i pc => pc.Ok ls C l i
  | .remove l i pc => pc.Ok ls C l i
  | .pickAcquire _ => True
  | .pickRelease _ => True

def ListFrame.Protects (g : ListFrame) (x : Slot) : Prop :=
  .state x ∈ g.holds ∨ g.call.index = some x

variable {g f : ListFrame} {ls : Lists} {k : ListLock} {f' : Option ListFrame}

theorem ListFrame.Ok.frame {ls' : Lists} {C C' : ListId → List Slot}
    (ok : g.Ok ls C) (next : ∀ x, .state x ∈ g.holds → ls'.next x = ls.next x)
    (first : ∀ l, .list l ∈ g.holds → ls'.first l = ls.first l)
    (order : ∀ l ys, (∀ y ∈ ys, g.Protects y) → ys <+ C l → ys <+ C' l)
    (off : ∀ x, g.Protects x → (∀ l, x ∉ C l) → ∀ l, x ∉ C' l)
    (empty : ∀ l, .list l ∈ g.holds → C l = [] → C' l = []) : g.Ok ls' C' := by
  have one : ∀ l x, g.Protects x → [x] <+ C l → [x] <+ C' l := fun l x guarded =>
    order l [x] (by simpa using guarded)
  have two : ∀ l x y, g.Protects x → g.Protects y → [x, y] <+ C l → [x, y] <+ C' l :=
    fun l x y left right => order l [x, y] (by simpa using ⟨left, right⟩)
  cases g with
  | pickAcquire l => trivial
  | pickRelease l => trivial
  | add l i pc =>
    have mine : (ListFrame.add l i pc).Protects i := .inr rfl
    cases pc with
    | acquireList => exact off i mine ok
    | acquireOnly =>
      obtain ⟨free, nothing, head⟩ := ok
      refine ⟨off i mine free, empty l (by simp [holds, AddPc.holds]) nothing, ?_⟩
      rw [first l (by simp [holds, AddPc.holds]), head]
    | acquireFirst =>
      obtain ⟨free, head⟩ := ok
      refine ⟨off i mine free, ?_⟩
      rw [first l (by simp [holds, AddPc.holds])]
      exact head
    | acquireNext curr n canRelease =>
      obtain ⟨free, listed, link⟩ := ok
      have held : ListLock.state curr ∈
        (ListFrame.add l i (.acquireNext curr n canRelease)).holds := by simp [holds, AddPc.holds]
      exact ⟨off i mine free, one l curr (.inl held) listed, by rw [next curr held, link]⟩
    | releaseCurr curr n canRelease =>
      obtain ⟨free, listed, link⟩ := ok
      have held : ListLock.state curr ∈
        (ListFrame.add l i (.releaseCurr curr n canRelease)).holds := by simp [holds, AddPc.holds]
      exact ⟨off i mine free, one l curr (.inl held) listed, by rw [next curr held, link]⟩
    | releaseEarly curr n =>
      obtain ⟨free, listed, link⟩ := ok
      have held : ListLock.state curr ∈
        (ListFrame.add l i (.releaseEarly curr n)).holds := by simp [holds, AddPc.holds]
      exact ⟨off i mine free, one l curr (.inl held) listed, by rw [next curr held, link]⟩
    | acquireNew curr canRelease =>
      obtain ⟨free, listed, link⟩ := ok
      have held : ListLock.state curr ∈
        (ListFrame.add l i (.acquireNew curr canRelease)).holds := by simp [holds, AddPc.holds]
      exact ⟨off i mine free, one l curr (.inl held) listed, by rw [next curr held, link]⟩
    | releaseOnly | releaseNew curr canRelease | releaseLast curr canRelease | releaseList =>
      exact one l i mine ok
  | remove l i pc =>
    have mine : (ListFrame.remove l i pc).Protects i := .inr rfl
    have behind : ∀ prev curr, (∀ x, prev = some x → ListLock.state x ∈
        (ListFrame.remove l i pc).holds) → Behind ls C l prev curr → Behind ls' C' l prev curr := by
      intro prev curr held known x same
      obtain ⟨listed, link⟩ := known x same
      exact ⟨one l x (.inl (held x same)) listed, by rw [next x (held x same), link]⟩
    cases pc with
    | acquireList => exact one l i mine ok
    | acquireHead =>
      obtain ⟨listed, head⟩ := ok
      refine ⟨one l i mine listed, ?_⟩
      rw [first l (by simp [holds, RemovePc.holds]), head]
    | acquireFirst =>
      obtain ⟨listed, f, head, apart⟩ := ok
      refine ⟨one l i mine listed, f, ?_, apart⟩
      rw [first l (by simp [holds, RemovePc.holds]), head]
    | acquireNext prev curr n canRelease =>
      obtain ⟨listed, link, apart, known⟩ := ok
      have held : ListLock.state curr ∈ (ListFrame.remove l i
        (.acquireNext prev curr n canRelease)).holds := by simp [holds, RemovePc.holds]
      refine ⟨two l curr i (.inl held) mine listed, by rw [next curr held, link], apart, ?_⟩
      exact behind prev curr (by rintro x rfl; simp [holds, RemovePc.holds, lockPrev]) known
    | releasePrev prev curr n canRelease =>
      obtain ⟨listed, link, apart⟩ := ok
      have held : ListLock.state curr ∈ (ListFrame.remove l i
        (.releasePrev prev curr n canRelease)).holds := by simp [holds, RemovePc.holds]
      exact ⟨two l curr i (.inl held) mine listed, by rw [next curr held, link], apart⟩
    | releaseEarly prev curr n =>
      obtain ⟨listed, link, known⟩ := ok
      have held : ListLock.state curr ∈ (ListFrame.remove l i
        (.releaseEarly prev curr n)).holds := by simp [holds, RemovePc.holds]
      refine ⟨two l curr i (.inl held) mine listed, by rw [next curr held, link], ?_⟩
      exact behind prev curr (by rintro x rfl; simp [holds, RemovePc.holds, lockPrev]) known
    | acquireNode prev curr canRelease =>
      obtain ⟨listed, link, known⟩ := ok
      have held : ListLock.state curr ∈ (ListFrame.remove l i
        (.acquireNode prev curr canRelease)).holds := by simp [holds, RemovePc.holds]
      refine ⟨two l curr i (.inl held) mine listed, by rw [next curr held, link], ?_⟩
      exact behind prev curr (by rintro x rfl; simp [holds, RemovePc.holds, lockPrev]) known
    | releaseHead | releaseNode prev curr canRelease | releaseCurr prev curr canRelease
    | releaseLast prev canRelease | releaseList => exact off i mine ok

section Contents

variable {C : ListId → List Slot} {call : ListCall} {i x : Slot} {l : ListId}

theorem ListCall.mem_apply_of_ne (concerns : call.index = some i) (apart : x ≠ i) :
    x ∈ call.apply C l ↔ x ∈ C l := by
  cases call with
  | add l' j =>
    cases concerns
    exact mem_put_of_ne apart
  | remove l' j =>
    cases concerns
    exact mem_drop_of_ne apart
  | pick l' => cases concerns

theorem ListCall.sublist_apply (concerns : call.index = some i) {ys : List Slot} (apart : i ∉ ys)
    (order : ys <+ C l) : ys <+ call.apply C l := by
  cases call with
  | add l' j => exact sublist_put order
  | remove l' j =>
    cases concerns
    exact sublist_drop apart order
  | pick l' => exact order

theorem ListCall.apply_of_ne (other : l ≠ call.list) : call.apply C l = C l := by
  cases call with
  | add l' j | remove l' j => exact update_of_ne other _ _
  | pick l' => rfl

end Contents

variable {κ : Type} {s : ListSys κ} {c : κ}

def ListSys.Pending (s : ListSys κ) (l : ListId) : Prop :=
  ∃ c i, s.frame c = some (.add l i .acquireOnly)

open Classical in
noncomputable def ListSys.head (s : ListSys κ) (l : ListId) : Option Slot :=
  if s.Pending l then none else s.lists.first l

structure ListInv (s : ListSys κ) : Prop where
  running : ∀ c, s.stopped c = none
  owners : ∀ c k, s.owner k = some c ↔ ∃ f, s.frame c = some f ∧ k ∈ f.holds
  nodup : ∀ c f, s.frame c = some f → f.holds.Nodup
  family : Family s.head s.lists.next s.contents
  frames : ∀ c f, s.frame c = some f → f.Ok s.lists s.contents
  apart : ∀ c c' f f' i, s.frame c = some f → s.frame c' = some f' →
    f.call.index = some i → f'.call.index = some i → c = c'

def holdsOf : Option ListFrame → List ListLock
  | some f => f.holds
  | none => []

/-- What the code behind a lock operation may change: the locks by the
operation itself, links and heads only under their locks, the contents only by
the effect of the call and with its slot locked. -/
structure Local (s : ListSys κ) (c : κ) (f : ListFrame) (k : ListLock) (holder : Option κ)
    (ls : Lists) (f' : Option ListFrame) : Prop where
  locks : (holder = some c ∧ s.owner k = none ∧ (holdsOf f').Perm (k :: f.holds)) ∨
    (holder = none ∧ f.holds.Perm (k :: holdsOf f'))
  same : ∀ g, f' = some g → g.call = f.call
  next : ∀ x, ls.next x ≠ s.lists.next x → .state x ∈ holdsOf f'
  first : ∀ l, ls.first l ≠ s.lists.first l → .list l ∈ holdsOf f'
  effect : f.commits = true → ∃ i, f.call.index = some i ∧ .state i ∈ holdsOf f' ∧
    (s.contents f.call.list ≠ [] ∨ .list f.call.list ∈ f.holds)

variable {holder : Option κ}

theorem Local.not_held {k' : ListLock}
    (loc : Local s c f k holder ls f') (inv : ListInv s)
    (here : s.frame c = some f) (held : k' ∈ holdsOf f') {c' : κ}
    (other : c' ≠ c) (there : s.frame c' = some g) : k' ∉ g.holds := by
  intro shared
  have owned := (inv.owners c' k').mpr ⟨g, there, shared⟩
  have mine : k' ∈ f.holds → False := by
    intro before
    rw [(inv.owners c k').mpr ⟨f, here, before⟩] at owned
    exact other (Option.some.inj owned).symm
  rcases loc.locks with ⟨_, free, perm⟩ | ⟨_, perm⟩
  · rcases List.mem_cons.mp (perm.mem_iff.mp held) with new | before
    · rw [new, free] at owned
      cases owned
    · exact mine before
  · exact mine (perm.mem_iff.mpr (List.mem_cons_of_mem k held))

theorem Local.others (loc : Local s c f k holder ls f') (inv : ListInv s)
    (here : s.frame c = some f) {c' : κ} (other : c' ≠ c)
    (there : s.frame c' = some g) :
    g.Ok ls (if f.commits then f.call.apply s.contents else s.contents) := by
  have unheld : ∀ {k'}, k' ∈ holdsOf f' → k' ∉ g.holds := fun held =>
    loc.not_held inv here held other there
  have ok := inv.frames c' g there
  have next : ∀ x, .state x ∈ g.holds → ls.next x = s.lists.next x := by
    intro x held
    by_contra changed
    exact unheld (loc.next x changed) held
  have first : ∀ l, .list l ∈ g.holds → ls.first l = s.lists.first l := by
    intro l held
    by_contra changed
    exact unheld (loc.first l changed) held
  cases commits : f.commits with
  | false =>
    exact ok.frame next first (fun _ _ _ order => order) (fun _ _ free => free)
      (fun _ _ empty => empty)
  | true =>
    obtain ⟨i, concerns, locked, room⟩ := loc.effect commits
    have apart : ∀ y, g.Protects y → y ≠ i := by
      rintro y (held | same) rfl
      · exact unheld locked held
      · exact other (inv.apart c' c g f y there here same concerns)
    rw [if_pos rfl]
    refine ok.frame next first ?_ ?_ ?_
    · intro l ys guarded order
      exact ListCall.sublist_apply concerns (fun member => apart i (guarded i member) rfl) order
    · intro x guarded free l
      rw [ListCall.mem_apply_of_ne concerns (apart x guarded)]
      exact free l
    · intro l held empty
      by_cases mine : l = f.call.list
      · subst mine
        rcases room with full | owned
        · exact absurd empty full
        · have owner := (inv.owners c _).mpr ⟨f, here, owned⟩
          rw [(inv.owners c' _).mpr ⟨g, there, held⟩] at owner
          exact absurd (Option.some.inj owner) other
      · rwa [ListCall.apply_of_ne mine]

variable [DecidableEq κ]

theorem ListSys.proceed_eq (resumed : f.resume s.lists = .ok (ls, f')) :
    s.proceed c f k holder =
      { lists := ls
        owner := update s.owner k holder
        frame := update s.frame c f'
        stopped := s.stopped
        contents := if f.commits then f.call.apply s.contents else s.contents } := by
  simp only [proceed, resumed]

theorem Local.owners (loc : Local s c f k holder ls f') (inv : ListInv s)
    (here : s.frame c = some f) (c' : κ) (k' : ListLock) :
    update s.owner k holder k' = some c' ↔
      ∃ g, update s.frame c f' c' = some g ∧ k' ∈ g.holds := by
  have distinct := inv.nodup c f here
  have mine : (∃ g, f' = some g ∧ k' ∈ g.holds) ↔ k' ∈ holdsOf f' := by
    cases f' with
    | none | some g => simp [holdsOf]
  by_cases self : c' = c
  · subst self
    rw [update_self, mine]
    rcases loc.locks with ⟨taken, free, perm⟩ | ⟨given, perm⟩
    · rw [perm.mem_iff, List.mem_cons]
      by_cases same : k' = k
      · subst same
        simp [taken]
      · rw [update_of_ne same, inv.owners]
        simp [here, same]
    · have absent : k ∉ holdsOf f' := (List.nodup_cons.mp (perm.nodup_iff.mp distinct)).1
      by_cases same : k' = k
      · subst same
        simp [given, absent]
      · rw [update_of_ne same, inv.owners]
        simp only [here, Option.some.injEq, exists_eq_left', perm.mem_iff, List.mem_cons, same,
          false_or]
  · rw [update_of_ne self]
    by_cases same : k' = k
    · subst same
      have notOwned : holder ≠ some c' := by
        rcases loc.locks with ⟨taken, _⟩ | ⟨given, _⟩
        · rw [taken]
          exact fun eq => self (Option.some.inj eq).symm
        · rw [given]
          exact fun eq => by cases eq
      rw [update_self]
      refine ⟨fun eq => absurd eq notOwned, ?_⟩
      rintro ⟨g, there, held⟩
      have owned := (inv.owners c' k').mpr ⟨g, there, held⟩
      rcases loc.locks with ⟨_, free, _⟩ | ⟨_, perm⟩
      · rw [free] at owned
        cases owned
      · have before : k' ∈ f.holds := perm.mem_iff.mpr List.mem_cons_self
        rw [(inv.owners c k').mpr ⟨f, here, before⟩] at owned
        exact absurd (Option.some.inj owned).symm self
    · rw [update_of_ne same]
      exact inv.owners c' k'

/-- A step keeps the invariant when it changes only what it may, leaves the
lists in order and gives the call what it is to know next. -/
theorem ListInv.proceed (inv : ListInv s) (here : s.frame c = some f)
    (resumed : f.resume s.lists = .ok (ls, f')) (loc : Local s c f k holder ls f')
    (family : Family (s.proceed c f k holder).head ls.next
      (if f.commits then f.call.apply s.contents else s.contents))
    (ok : ∀ g, f' = some g → g.Ok ls (if f.commits then f.call.apply s.contents else s.contents)) :
    ListInv (s.proceed c f k holder) := by
  rw [ListSys.proceed_eq resumed] at family ⊢
  have frameAt : ∀ c' g, update s.frame c f' c' = some g →
      (c' = c ∧ f' = some g) ∨ (c' ≠ c ∧ s.frame c' = some g) := by
    intro c' g there
    by_cases self : c' = c
    · subst self
      rw [update_self] at there
      exact .inl ⟨rfl, there⟩
    · rw [update_of_ne self] at there
      exact .inr ⟨self, there⟩
  refine ⟨inv.running, loc.owners inv here, ?_, family, ?_, ?_⟩
  · intro c' g there
    rcases frameAt c' g there with ⟨_, now⟩ | ⟨_, before⟩
    · subst now
      have distinct := inv.nodup c f here
      rcases loc.locks with ⟨_, free, perm⟩ | ⟨_, perm⟩
      · refine perm.nodup_iff.mpr (List.nodup_cons.mpr ⟨fun member => ?_, distinct⟩)
        rw [(inv.owners c k).mpr ⟨f, here, member⟩] at free
        cases free
      · exact (List.nodup_cons.mp (perm.nodup_iff.mp distinct)).2
    · exact inv.nodup c' g before
  · intro c' g there
    rcases frameAt c' g there with ⟨_, now⟩ | ⟨self, before⟩
    · exact ok g now
    · exact loc.others inv here self before
  · intro c₁ c₂ g₁ g₂ i there₁ there₂ index₁ index₂
    have back : ∀ c' g, update s.frame c f' c' = some g → g.call.index = some i →
        ∃ g', s.frame c' = some g' ∧ g'.call.index = some i := by
      intro c' g there index
      rcases frameAt c' g there with ⟨rfl, now⟩ | ⟨_, before⟩
      · exact ⟨f, here, by rw [← loc.same g now]; exact index⟩
      · exact ⟨g, before, index⟩
    obtain ⟨g₁', before₁, index₁'⟩ := back c₁ g₁ there₁ index₁
    obtain ⟨g₂', before₂, index₂'⟩ := back c₂ g₂ there₂ index₂
    exact inv.apart c₁ c₂ g₁' g₂' i before₁ before₂ index₁' index₂'

end OsbKernel
