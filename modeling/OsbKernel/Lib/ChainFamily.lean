import OsbKernel.Lib.Chain

/-!
# Disjoint chains over one successor array

Several linked lists share the successor field of their nodes. `Family first next lists` says that
every list is the chain of its start and that no node is on two lists. The lemmas say that
appending to the tail, removing the first node and removing a later node of one list leave the
others alone.
-/

namespace LinkedChain

open Function

variable {ι α : Type*} {first : ι → Option α} {next : α → Option α} {lists : ι → List α}

/-- Every list is the chain of its start, and no node is on two lists. -/
structure Family (first : ι → Option α) (next : α → Option α) (lists : ι → List α) : Prop where
  chain : ∀ l, Chain next (first l) (lists l)
  disjoint : ∀ {l l' : ι} {x : α}, x ∈ lists l → x ∈ lists l' → l = l'

namespace Family

theorem determined {first' : ι → Option α} {next' : α → Option α}
    (left : Family first next lists) (right : Family first' next' lists)
    (all : ∀ x, ∃ l, x ∈ lists l) : first = first' ∧ next = next' := by
  constructor
  · funext l
    rw [(left.chain l).start_eq, (right.chain l).start_eq]
  · funext x
    obtain ⟨l, listed⟩ := all x
    exact (left.chain l).next_unique (right.chain l) x listed

variable (family : Family first next lists)

include family

theorem nodup (l : ι) : (lists l).Nodup := (family.chain l).nodup

theorem first_eq (l : ι) : first l = (lists l).head? :=
  (family.chain l).start_eq

theorem first_eq_none_iff (l : ι) : first l = none ↔ lists l = [] := by
  rw [family.first_eq l, List.head?_eq_none_iff]

variable {l : ι} {x : α}

theorem mem_of_first (head : first l = some x) : x ∈ lists l :=
  List.mem_of_mem_head? ((family.first_eq l).symm.trans head)

variable [DecidableEq ι]

theorem disjoint_update {nodes : List α} (own : ∀ x ∈ nodes, ∀ l', x ∈ lists l' → l' = l) {l₁ l₂ : ι}
    (left : x ∈ update lists l nodes l₁) (right : x ∈ update lists l nodes l₂) : l₁ = l₂ := by
  by_cases h₁ : l₁ = l <;> by_cases h₂ : l₂ = l
  · rw [h₁, h₂]
  · subst h₁
    rw [update_self] at left
    rw [update_of_ne h₂] at right
    exact (own x left l₂ right).symm
  · subst h₂
    rw [update_self] at right
    rw [update_of_ne h₁] at left
    exact own x right l₁ left
  · rw [update_of_ne h₁] at left
    rw [update_of_ne h₂] at right
    exact family.disjoint left right

variable [DecidableEq α]

theorem appendEmpty (empty : lists l = []) (free : ∀ l', x ∉ lists l') :
    Family (update first l (some x)) (update next x none) (update lists l [x]) where
  chain l' := by
    by_cases same : l' = l
    · subst same
      simp only [update_self]
      exact Chain.singleton x
    · rw [update_of_ne same, update_of_ne same]
      exact (family.chain l').update_of_notMem (free l')
  disjoint := by
    refine family.disjoint_update fun y listed l' member => ?_
    rw [List.mem_singleton.mp listed] at member
    exact absurd member (free l')

theorem append {before : List α} {t : α} (shape : lists l = before ++ [t]) (free : ∀ l', x ∉ lists l') :
    Family first (update (update next t (some x)) x none)
      (update lists l (lists l ++ [x])) where
  chain l' := by
    by_cases same : l' = l
    · subst same
      rw [update_self, shape, List.append_assoc]
      have chain := family.chain l'
      rw [shape] at chain
      exact chain.append (shape ▸ free l')
    · rw [update_of_ne same]
      have tail : t ∉ lists l' := by
        intro member
        exact same (family.disjoint member (by rw [shape]; simp))
      exact ((family.chain l').update_of_notMem tail).update_of_notMem (free l')
  disjoint := by
    refine family.disjoint_update fun y listed l' member => ?_
    rcases List.mem_append.mp listed with old | new
    · exact family.disjoint member old
    · rw [List.mem_singleton.mp new] at member
      exact absurd member (free l')

theorem unlinkFirst {rest : List α} (shape : lists l = x :: rest) :
    Family (update first l (next x)) (update next x none) (update lists l rest) where
  chain l' := by
    by_cases same : l' = l
    · subst same
      simp only [update_self]
      have chain := family.chain l'
      rw [shape] at chain
      exact chain.unlink_first
    · rw [update_of_ne same, update_of_ne same]
      refine (family.chain l').update_of_notMem fun member => ?_
      exact same (family.disjoint member (by rw [shape]; simp))
  disjoint := by
    refine family.disjoint_update fun y listed l' member => ?_
    exact family.disjoint member (by rw [shape]; exact List.mem_cons_of_mem x listed)

theorem unlink {before after : List α} {c : α} (shape : lists l = before ++ c :: x :: after) :
    Family first (update (update next c (next x)) x none)
      (update lists l (before ++ c :: after)) where
  chain l' := by
    by_cases same : l' = l
    · subst same
      rw [update_self]
      have chain := family.chain l'
      rw [shape] at chain
      exact chain.unlink
    · rw [update_of_ne same]
      have apart : ∀ y ∈ lists l, y ∉ lists l' :=
        fun y listed member => same (family.disjoint member listed)
      exact ((family.chain l').update_of_notMem (apart c (by rw [shape]; simp))).update_of_notMem
        (apart x (by rw [shape]; simp))
  disjoint := by
    refine family.disjoint_update fun y listed l' member => ?_
    refine family.disjoint member ?_
    rw [shape]
    simp only [List.mem_append, List.mem_cons] at listed ⊢
    tauto

end Family

section Values

variable {x : α} {l l' : ι}

theorem erase_middle [DecidableEq α] {before after : List α} {c : α}
    (distinct : (before ++ c :: x :: after).Nodup) :
    (before ++ c :: x :: after).erase x = before ++ c :: after := by
  have apart : x ∉ before ++ [c] := by
    intro member
    rw [List.append_cons] at distinct
    exact List.disjoint_of_nodup_append distinct member List.mem_cons_self
  rw [List.append_cons, List.erase_append_right _ apart, List.erase_cons_head]
  simp

theorem split_of_mem {nodes : List α} (listed : x ∈ nodes) :
    (∃ rest, nodes = x :: rest) ∨ ∃ before c after, nodes = before ++ c :: x :: after := by
  obtain ⟨before, after, rfl⟩ := List.append_of_mem listed
  rcases List.eq_nil_or_concat before with rfl | ⟨front, c, rfl⟩
  · exact .inl ⟨after, rfl⟩
  · exact .inr ⟨front, c, after, by simp⟩

variable [DecidableEq ι]

def put (lists : ι → List α) (l : ι) (x : α) : ι → List α := update lists l (lists l ++ [x])

theorem mem_put {y : α} :
    y ∈ put lists l x l' ↔ y ∈ lists l' ∨ (l' = l ∧ y = x) := by
  unfold put
  by_cases same : l' = l
  · subst same
    simp
  · simp [same]

theorem mem_put_self (l : ι) (x : α) : x ∈ put lists l x l := mem_put.mpr (.inr ⟨rfl, rfl⟩)

theorem mem_put_of_ne {y : α} (apart : y ≠ x) :
    y ∈ put lists l x l' ↔ y ∈ lists l' := by
  simp [mem_put, apart]

theorem sublist_put {ys : List α} (order : List.Sublist ys (lists l')) :
    List.Sublist ys (put lists l x l') := by
  unfold put
  by_cases same : l' = l
  · subst same
    rw [update_self]
    exact order.trans (List.sublist_append_left _ _)
  · rwa [update_of_ne same]

variable [DecidableEq α]

def drop (lists : ι → List α) (l : ι) (x : α) : ι → List α := update lists l ((lists l).erase x)

theorem mem_drop_of_ne {y : α} (apart : y ≠ x) :
    y ∈ drop lists l x l' ↔ y ∈ lists l' := by
  unfold drop
  by_cases same : l' = l
  · subst same
    simp [List.mem_erase_of_ne apart]
  · rw [update_of_ne same]

theorem sublist_drop {ys : List α} (apart : x ∉ ys)
    (order : List.Sublist ys (lists l')) : List.Sublist ys (drop lists l x l') := by
  unfold drop
  by_cases same : l' = l
  · subst same
    rw [update_self]
    have kept := order.erase x
    rwa [List.erase_of_not_mem apart] at kept
  · rwa [update_of_ne same]

theorem Family.notMem_drop (family : Family first next lists)
    (listed : x ∈ lists l) (l' : ι) : x ∉ drop lists l x l' := by
  unfold drop
  by_cases same : l' = l
  · subst same
    rw [update_self]
    exact (family.nodup l').not_mem_erase
  · rw [update_of_ne same]
    exact fun member => same (family.disjoint member listed)

end Values

end LinkedChain
