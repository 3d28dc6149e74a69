import Mathlib.Data.List.Nodup

/-!
# Chains of a successor function

A singly linked list in an array is a start index and a successor function. `Chain next start
nodes` says that following `next` from `start` visits exactly `nodes` and then ends. The lemmas
say how a chain reacts to linking a node behind the tail, to unlinking a node, and to writes
outside it.
-/

namespace LinkedChain

open Function

variable {α : Type*} {next next' : α → Option α} {start : Option α} {nodes : List α}

/-- Following `next` from `start` visits exactly `nodes` and then ends. -/
def Chain (next : α → Option α) : Option α → List α → Prop
  | start, [] => start = none
  | start, a :: rest => start = some a ∧ Chain next (next a) rest

@[simp] theorem chain_nil : Chain next start [] ↔ start = none := Iff.rfl

variable {a b : α} {before after : List α}

instance Chain.decidable [DecidableEq α] (next : α → Option α) :
    (start : Option α) → (nodes : List α) → Decidable (Chain next start nodes)
  | start, [] => decEq start none
  | start, a :: rest =>
    match decEq start (some a), Chain.decidable next (next a) rest with
    | isTrue here, isTrue tail => isTrue ⟨here, tail⟩
    | isFalse other, _ => isFalse fun chain => other chain.1
    | _, isFalse other => isFalse fun chain => other chain.2

namespace Chain

theorem start_eq (chain : Chain next start nodes) : start = nodes.head? := by
  cases nodes with
  | nil => exact chain
  | cons a rest => exact chain.1

theorem eq_nil (chain : Chain next none nodes) : nodes = [] := by
  cases nodes with
  | nil => rfl
  | cons a rest => cases chain.1

theorem unique {other : List α} (first : Chain next start nodes)
    (second : Chain next start other) : nodes = other := by
  induction nodes generalizing start other with
  | nil =>
    cases first
    exact second.eq_nil.symm
  | cons a rest ih =>
    obtain ⟨rfl, tail⟩ := first
    cases other with
    | nil => cases second
    | cons b more =>
      obtain ⟨same, tail'⟩ := second
      cases same
      rw [ih tail tail']

theorem next_unique {start' : Option α} (first : Chain next start nodes)
    (second : Chain next' start' nodes) : ∀ x ∈ nodes, next x = next' x := by
  induction nodes generalizing start start' with
  | nil => nofun
  | cons a rest ih =>
    obtain ⟨_, tail⟩ := first
    obtain ⟨_, tail'⟩ := second
    intro x listed
    rcases List.mem_cons.mp listed with rfl | listed
    · rw [tail.start_eq, tail'.start_eq]
    · exact ih tail tail' x listed

theorem suffix (chain : Chain next start (before ++ a :: after)) : Chain next (next a) after := by
  induction before generalizing start with
  | nil => exact chain.2
  | cons b rest ih => exact ih chain.2

theorem next_eq (chain : Chain next start (before ++ a :: after)) : next a = after.head? :=
  chain.suffix.start_eq

/-- A finite chain visits no node twice: a repeated node would have two
different remaining lengths. -/
theorem nodup (chain : Chain next start nodes) : nodes.Nodup := by
  induction nodes generalizing start with
  | nil => exact List.nodup_nil
  | cons a rest ih =>
    refine List.nodup_cons.mpr ⟨?_, ih chain.2⟩
    intro again
    obtain ⟨before, after, split⟩ := List.append_of_mem again
    have long : Chain next (next a) rest := chain.2
    have short : Chain next (next a) after := by
      have whole := chain.2
      rw [split] at whole
      exact whole.suffix
    have same := congrArg List.length (split.symm.trans (long.unique short))
    simp at same
    omega

theorem congr (chain : Chain next start nodes)
    (agree : ∀ a ∈ nodes, next' a = next a) : Chain next' start nodes := by
  induction nodes generalizing start with
  | nil => exact chain
  | cons a rest ih =>
    refine ⟨chain.1, ?_⟩
    rw [agree a List.mem_cons_self]
    exact ih chain.2 fun b listed => agree b (List.mem_cons_of_mem a listed)

theorem last_of_next_eq_none
    (chain : Chain next start (before ++ a :: after)) (ends : next a = none) : after = [] := by
  have tail := chain.suffix
  rw [ends] at tail
  exact tail.eq_nil

theorem split_next (chain : Chain next start nodes) (listed : a ∈ nodes)
    (link : next a = some b) : ∃ before after, nodes = before ++ a :: b :: after := by
  obtain ⟨before, after, rfl⟩ := List.append_of_mem listed
  have front := chain.next_eq
  rw [link] at front
  cases after with
  | nil => cases front
  | cons b' rest =>
    cases front
    exact ⟨before, rest, rfl⟩

theorem sublist_next (chain : Chain next start nodes) (listed : a ∈ nodes)
    (link : next a = some b) : List.Sublist [a, b] nodes := by
  obtain ⟨before, after, rfl⟩ := chain.split_next listed link
  refine List.Sublist.trans ?_ (List.sublist_append_right before _)
  exact ((List.nil_sublist after).cons_cons b).cons_cons a

theorem split_last (chain : Chain next start nodes) (listed : a ∈ nodes)
    (ends : next a = none) : ∃ before, nodes = before ++ [a] := by
  obtain ⟨before, after, rfl⟩ := List.append_of_mem listed
  exact ⟨before, by rw [chain.last_of_next_eq_none ends]⟩

theorem next_before {x : α} (chain : Chain next start nodes)
    (order : List.Sublist [a, x] nodes) :
    ∃ b, next a = some b ∧ (b = x ∨ List.Sublist [b, x] nodes) := by
  obtain ⟨front, back, shape, listed, rest⟩ := List.cons_sublist_iff.mp order
  obtain ⟨before, between, rfl⟩ := List.append_of_mem listed
  have split : nodes = before ++ a :: (between ++ back) := by simp [shape]
  rw [split] at chain
  have member : x ∈ between ++ back := List.mem_append_right _ (List.singleton_sublist.mp rest)
  cases after : between ++ back with
  | nil =>
    rw [after] at member
    cases member
  | cons b more =>
    have link := chain.next_eq
    rw [after] at link member
    refine ⟨b, link, ?_⟩
    rcases List.mem_cons.mp member with same | later
    · exact .inl same.symm
    · refine .inr ?_
      rw [split, after]
      refine List.Sublist.trans ?_ (List.sublist_append_right before _)
      exact ((List.singleton_sublist.mpr later).cons_cons b).cons a

theorem order_asymm (distinct : nodes.Nodup) (order : List.Sublist [a, b] nodes) :
    ¬ List.Sublist [b, a] nodes := by
  intro back
  induction nodes with
  | nil => cases order
  | cons x rest ih =>
    obtain ⟨fresh, distinct'⟩ := List.nodup_cons.mp distinct
    cases order with
    | cons _ order' =>
      cases back with
      | cons _ back' => exact ih distinct' order' back'
      | cons_cons _ back' => exact fresh (order'.subset (by simp))
    | cons_cons _ order' =>
      cases back with
      | cons _ back' => exact fresh (back'.subset (by simp))
      | cons_cons _ back' => exact fresh (List.singleton_sublist.mp order')

theorem order_trans {c : α} (distinct : nodes.Nodup) (left : List.Sublist [a, b] nodes)
    (right : List.Sublist [b, c] nodes) : List.Sublist [a, c] nodes := by
  induction nodes with
  | nil => cases left
  | cons x rest ih =>
    obtain ⟨fresh, distinct'⟩ := List.nodup_cons.mp distinct
    cases left with
    | cons _ left' =>
      cases right with
      | cons _ right' => exact (ih distinct' left' right').cons x
      | cons_cons _ right' => exact absurd (left'.subset (by simp)) fresh
    | cons_cons _ left' =>
      cases right with
      | cons _ right' =>
        exact (List.singleton_sublist.mpr (right'.subset (by simp))).cons_cons a
      | cons_cons _ right' => exact absurd (List.singleton_sublist.mp left') fresh

variable [DecidableEq α]

theorem update_of_notMem {x : α} {v : Option α} (chain : Chain next start nodes)
    (off : x ∉ nodes) : Chain (update next x v) start nodes := by
  refine chain.congr fun a listed => ?_
  have apart : a ≠ x := by
    rintro rfl
    exact off listed
  rw [update_of_ne apart]

theorem append {t x : α} (chain : Chain next start (nodes ++ [t]))
    (fresh : x ∉ nodes ++ [t]) :
    Chain (update (update next t (some x)) x none) start (nodes ++ [t, x]) := by
  induction nodes generalizing start with
  | nil =>
    have apart : t ≠ x := by
      rintro rfl
      exact fresh (by simp)
    refine ⟨chain.1, ?_⟩
    rw [update_of_ne apart, update_self]
    exact ⟨rfl, by simp⟩
  | cons a rest ih =>
    have distinct := chain.nodup
    simp only [List.cons_append, List.nodup_cons, List.mem_append, List.mem_cons,
      List.not_mem_nil, or_false, not_or] at distinct fresh
    refine ⟨chain.1, ?_⟩
    rw [update_of_ne (Ne.symm fresh.1), update_of_ne distinct.1.2]
    exact ih chain.2 (by simpa using fresh.2)

theorem singleton (x : α) : Chain (update next x none) (some x) [x] :=
  ⟨rfl, by simp⟩

theorem unlink_first {i : α} {rest : List α} (chain : Chain next start (i :: rest)) :
    Chain (update next i none) (next i) rest :=
  chain.2.update_of_notMem (List.nodup_cons.mp chain.nodup).1

theorem unlink {c i : α}
    (chain : Chain next start (before ++ c :: i :: after)) :
    Chain (update (update next c (next i)) i none) start (before ++ c :: after) := by
  have distinct := chain.nodup
  induction before generalizing start with
  | nil =>
    simp only [List.nil_append, List.nodup_cons, List.mem_cons, not_or] at distinct
    refine ⟨chain.1, ?_⟩
    rw [update_of_ne distinct.1.1, update_self]
    have tail : Chain next (next i) after := chain.2.2
    exact (tail.update_of_notMem distinct.1.2).update_of_notMem distinct.2.1
  | cons a rest ih =>
    simp only [List.cons_append, List.nodup_cons, List.mem_append, List.mem_cons,
      not_or] at distinct
    refine ⟨chain.1, ?_⟩
    rw [update_of_ne distinct.1.2.2.1, update_of_ne distinct.1.2.1]
    exact ih chain.2 distinct.2

end Chain

end LinkedChain
