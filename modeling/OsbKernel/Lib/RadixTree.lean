import Mathlib.Data.List.Nodup
import Mathlib.Data.List.Perm.Basic

/-!
# Radix trees in a flat memory

A tree of nodes with numbered cells. A valid cell of an inner node points one level down; the
cells of a node of level 0 are the entries. Nodes live in a memory that holds other things as
well, so each lemma says which nodes a step may write.
-/

namespace FreeRadix

open Function

structure Format (Node Cell : Type) where
  valid : Cell → Bool
  ptr : Cell → Node
  width : Nat
  link : Cell → Prop

variable {Node Cell : Type} (f : Format Node Cell)

namespace Format

def nodes (mem : Node → Nat → Cell) : Nat → Node → List Node
  | 0, n => [n]
  | l + 1, n => n :: (List.range f.width).flatMap fun i =>
    if f.valid (mem n i) then nodes mem l (f.ptr (mem n i)) else []

def under (mem : Node → Nat → Cell) (l : Nat) (c : Cell) : List Node :=
  if f.valid c then f.nodes mem l (f.ptr c) else []

def find (mem : Node → Nat → Cell) (path : Nat → Nat) : Nat → Node → Option Node
  | 0, n => some n
  | l + 1, n =>
    if f.valid (mem n (path (l + 1))) then find mem path l (f.ptr (mem n (path (l + 1)))) else none

def entry (c : Cell) : Option Cell := if f.valid c then some c else none

def lookup (mem : Node → Nat → Cell) (path : Nat → Nat) (l : Nat) (n : Node) : Option Cell :=
  (f.find mem path l n).bind fun leaf => f.entry (mem leaf (path 0))

def Linked (mem : Node → Nat → Cell) : Nat → Node → Prop
  | 0, _ => True
  | l + 1, n => ∀ i < f.width, f.valid (mem n i) = true →
      f.link (mem n i) ∧ Linked mem l (f.ptr (mem n i))

def Bare (mem : Node → Nat → Cell) : Nat → Node → Prop
  | 0, n => ∀ i < f.width, f.valid (mem n i) = false
  | l + 1, n => ∀ i < f.width, f.valid (mem n i) = true → Bare mem l (f.ptr (mem n i))

variable {f} {mem mem' : Node → Nat → Cell} {l i j : Nat} {n x leaf : Node} {path path' : Nat → Nat}
  {c : Cell}

theorem nodes_succ : f.nodes mem (l + 1) n =
    n :: (List.range f.width).flatMap fun i => f.under mem l (mem n i) := rfl

theorem under_of_valid (valid : f.valid c = true) : f.under mem l c = f.nodes mem l (f.ptr c) :=
  if_pos valid

theorem under_of_invalid (invalid : f.valid c = false) : f.under mem l c = [] := by
  unfold under
  rw [invalid]
  rfl

theorem self_mem_nodes (l : Nat) : n ∈ f.nodes mem l n := by
  cases l with
  | zero | succ l => exact List.mem_cons_self

theorem mem_nodes_of_under (inside : i < f.width) (listed : x ∈ f.under mem l (mem n i)) :
    x ∈ f.nodes mem (l + 1) n := by
  exact List.mem_cons_of_mem _ (List.mem_flatMap.mpr ⟨i, List.mem_range.mpr inside, listed⟩)

theorem find_succ_of_valid (valid : f.valid (mem n (path (l + 1))) = true) :
    f.find mem path (l + 1) n = f.find mem path l (f.ptr (mem n (path (l + 1)))) :=
  if_pos valid

theorem find_succ_of_invalid (invalid : f.valid (mem n (path (l + 1))) = false) :
    f.find mem path (l + 1) n = none := by
  unfold find
  rw [invalid]
  rfl

theorem lookup_succ_of_valid (valid : f.valid (mem n (path (l + 1))) = true) :
    f.lookup mem path (l + 1) n = f.lookup mem path l (f.ptr (mem n (path (l + 1)))) := by
  unfold lookup
  rw [find_succ_of_valid valid]

theorem lookup_succ_of_invalid (invalid : f.valid (mem n (path (l + 1))) = false) :
    f.lookup mem path (l + 1) n = none := by
  unfold lookup
  rw [find_succ_of_invalid invalid]
  rfl

theorem find_mem_nodes (inside : ∀ k, path k < f.width) (found : f.find mem path l n = some leaf) :
    leaf ∈ f.nodes mem l n := by
  induction l generalizing n with
  | zero =>
    cases found
    exact List.mem_cons_self
  | succ l ih =>
    cases valid : f.valid (mem n (path (l + 1))) with
    | false =>
      rw [find_succ_of_invalid valid] at found
      cases found
    | true =>
      rw [find_succ_of_valid valid] at found
      refine mem_nodes_of_under (inside (l + 1)) ?_
      rw [under_of_valid valid]
      exact ih found

theorem under_nodup (nodup : (f.nodes mem (l + 1) n).Nodup) (inside : i < f.width) :
    (f.under mem l (mem n i)).Nodup := by
  rw [nodes_succ, List.nodup_cons, List.nodup_flatMap] at nodup
  exact nodup.2.1 i (List.mem_range.mpr inside)

theorem self_not_under (nodup : (f.nodes mem (l + 1) n).Nodup) (inside : i < f.width) :
    n ∉ f.under mem l (mem n i) := by
  rw [nodes_succ, List.nodup_cons] at nodup
  exact fun listed => nodup.1 (List.mem_flatMap.mpr ⟨i, List.mem_range.mpr inside, listed⟩)

theorem under_apart (nodup : (f.nodes mem (l + 1) n).Nodup) (inside : i < f.width)
    (inside' : j < f.width) (first : x ∈ f.under mem l (mem n i))
    (second : x ∈ f.under mem l (mem n j)) : i = j := by
  rw [nodes_succ, List.nodup_cons, List.nodup_flatMap, List.pairwise_iff_getElem] at nodup
  have ordered : ∀ i j, i < j → j < f.width → x ∈ f.under mem l (mem n i) →
      x ∈ f.under mem l (mem n j) → False := by
    intro i j less inside first second
    have disjoint := nodup.2.2 i j (by rw [List.length_range]; omega)
      (by rw [List.length_range]; exact inside) less
    rw [List.getElem_range, List.getElem_range] at disjoint
    exact disjoint first second
  rcases Nat.lt_trichotomy i j with less | same | more
  · exact (ordered i j less inside' first second).elim
  · exact same
  · exact (ordered j i more inside second first).elim

theorem find_inj (nodup : (f.nodes mem l n).Nodup) (inside : ∀ k, path k < f.width)
    (inside' : ∀ k, path' k < f.width) (found : f.find mem path l n = some leaf)
    (found' : f.find mem path' l n = some leaf) {k : Nat} (positive : 0 < k) (below : k ≤ l) :
    path k = path' k := by
  induction l generalizing n with
  | zero => omega
  | succ l ih =>
    cases valid : f.valid (mem n (path (l + 1))) with
    | false =>
      rw [find_succ_of_invalid valid] at found
      cases found
    | true =>
      cases valid' : f.valid (mem n (path' (l + 1))) with
      | false =>
        rw [find_succ_of_invalid valid'] at found'
        cases found'
      | true =>
        rw [find_succ_of_valid valid] at found
        rw [find_succ_of_valid valid'] at found'
        have listed := find_mem_nodes inside found
        have listed' := find_mem_nodes inside' found'
        rw [← under_of_valid valid] at listed
        rw [← under_of_valid valid'] at listed'
        have top := under_apart nodup (inside _) (inside' _) listed listed'
        rcases Nat.lt_or_eq_of_le below with less | same
        · have sub := under_nodup nodup (inside (l + 1))
          rw [under_of_valid valid] at sub
          rw [← top] at found'
          exact ih sub found found' (Nat.le_of_lt_succ less)
        · rw [same]
          exact top

theorem nodes_congr (same : ∀ x ∈ f.nodes mem l n, mem' x = mem x) :
    f.nodes mem' l n = f.nodes mem l n := by
  induction l generalizing n with
  | zero => rfl
  | succ l ih =>
    have top : mem' n = mem n := same n (self_mem_nodes _)
    rw [nodes_succ, nodes_succ, top]
    refine congrArg _ (List.flatMap_congr ?_)
    intro i listed
    cases valid : f.valid (mem n i) with
    | false => rw [under_of_invalid valid, under_of_invalid valid]
    | true =>
      rw [under_of_valid valid, under_of_valid valid]
      refine ih fun x known => same x (mem_nodes_of_under (List.mem_range.mp listed) ?_)
      rwa [under_of_valid valid]

theorem under_congr (same : ∀ x ∈ f.under mem l c, mem' x = mem x) :
    f.under mem' l c = f.under mem l c := by
  cases valid : f.valid c with
  | false => rw [under_of_invalid valid, under_of_invalid valid]
  | true =>
    rw [under_of_valid valid] at same
    rw [under_of_valid valid, under_of_valid valid]
    exact nodes_congr same

theorem find_congr (inside : ∀ k, path k < f.width) (same : ∀ x ∈ f.nodes mem l n, mem' x = mem x) :
    f.find mem' path l n = f.find mem path l n := by
  induction l generalizing n with
  | zero => rfl
  | succ l ih =>
    have top : mem' n = mem n := same n (self_mem_nodes _)
    cases valid : f.valid (mem n (path (l + 1))) with
    | false =>
      rw [find_succ_of_invalid valid, find_succ_of_invalid (by rw [top]; exact valid)]
    | true =>
      rw [find_succ_of_valid valid, find_succ_of_valid (by rw [top]; exact valid), top]
      refine ih fun x known => same x (mem_nodes_of_under (inside (l + 1)) ?_)
      rwa [under_of_valid valid]

theorem lookup_congr (inside : ∀ k, path k < f.width)
    (same : ∀ x ∈ f.nodes mem l n, mem' x = mem x) :
    f.lookup mem' path l n = f.lookup mem path l n := by
  unfold lookup
  rw [find_congr inside same]
  cases found : f.find mem path l n with
  | none => rfl
  | some leaf =>
    change f.entry (mem' leaf (path 0)) = f.entry (mem leaf (path 0))
    rw [same leaf (find_mem_nodes inside found)]

theorem linked_congr (same : ∀ x ∈ f.nodes mem l n, mem' x = mem x) (linked : f.Linked mem l n) :
    f.Linked mem' l n := by
  induction l generalizing n with
  | zero => trivial
  | succ l ih =>
    intro i inside valid
    rw [same n (self_mem_nodes _)] at valid ⊢
    obtain ⟨link, below⟩ := linked i inside valid
    refine ⟨link, ih (fun x listed => same x (mem_nodes_of_under inside ?_)) below⟩
    rwa [under_of_valid valid]

theorem bare_congr (same : ∀ x ∈ f.nodes mem l n, mem' x = mem x) (bare : f.Bare mem l n) :
    f.Bare mem' l n := by
  induction l generalizing n with
  | zero =>
    intro i inside
    rw [same n (self_mem_nodes _)]
    exact bare i inside
  | succ l ih =>
    intro i inside valid
    rw [same n (self_mem_nodes _)] at valid ⊢
    refine ih (fun x listed => same x (mem_nodes_of_under inside ?_)) (bare i inside valid)
    rwa [under_of_valid valid]

theorem lookup_path (agree : ∀ k ≤ l, path' k = path k) :
    f.lookup mem path' l n = f.lookup mem path l n := by
  induction l generalizing n with
  | zero =>
    change f.entry (mem n (path' 0)) = f.entry (mem n (path 0))
    rw [agree 0 (Nat.le_refl _)]
  | succ l ih =>
    have here := agree (l + 1) (Nat.le_refl _)
    cases valid : f.valid (mem n (path (l + 1))) with
    | false =>
      rw [lookup_succ_of_invalid valid, lookup_succ_of_invalid (by rw [here]; exact valid)]
    | true =>
      rw [lookup_succ_of_valid valid, lookup_succ_of_valid (by rw [here]; exact valid), here]
      exact ih fun k below => agree k (by omega)

theorem bare_of_lookup
    (none : ∀ path, (∀ k, path k < f.width) → f.lookup mem path l n = none) : f.Bare mem l n := by
  induction l generalizing n with
  | zero =>
    intro i inside
    have known : f.entry (mem n i) = _ := none (fun _ => i) fun _ => inside
    cases valid : f.valid (mem n i) with
    | false => rfl
    | true =>
      rw [Format.entry, valid] at known
      cases known
  | succ l ih =>
    intro i inside valid
    refine ih fun path within => ?_
    have below : ∀ k, update path (l + 1) i k < f.width := by
      intro k
      by_cases here : k = l + 1
      · rw [here, update_self]
        exact inside
      · rw [update_of_ne here]
        exact within k
    have known := none (update path (l + 1) i) below
    rw [lookup_succ_of_valid (by rw [update_self]; exact valid), update_self] at known
    rw [← known]
    refine lookup_path fun k low => ?_
    rw [update_of_ne (by omega)]

section Write

variable (nodup : (f.nodes mem l n).Nodup) (inside : ∀ k, path k < f.width)
  (found : f.find mem path l n = some leaf) (others : ∀ x, x ≠ leaf → mem' x = mem x)
include nodup inside found others

theorem above_write (level : l = j + 1) :
    f.valid (mem n (path l)) = true ∧ leaf ∈ f.under mem j (mem n (path l)) ∧ mem' n = mem n := by
  subst level
  cases valid : f.valid (mem n (path (j + 1))) with
  | false =>
    rw [find_succ_of_invalid valid] at found
    cases found
  | true =>
    rw [find_succ_of_valid valid] at found
    have listed := find_mem_nodes inside found
    rw [← under_of_valid valid] at listed
    refine ⟨rfl, listed, others n ?_⟩
    rintro rfl
    exact self_not_under nodup (inside (j + 1)) listed

theorem nodes_write : f.nodes mem' l n = f.nodes mem l n := by
  induction l generalizing n with
  | zero => rfl
  | succ l ih =>
    obtain ⟨valid, listed, top⟩ := above_write nodup inside found others rfl
    rw [nodes_succ, nodes_succ, top]
    refine congrArg _ (List.flatMap_congr ?_)
    intro i known
    by_cases same : i = path (l + 1)
    · have sub := under_nodup nodup (inside (l + 1))
      rw [under_of_valid valid] at sub
      rw [find_succ_of_valid valid] at found
      rw [same, under_of_valid valid, under_of_valid valid]
      exact ih sub found
    · refine under_congr fun x member => others x ?_
      rintro rfl
      exact same (under_apart nodup (List.mem_range.mp known) (inside (l + 1)) member listed)

theorem find_write (inside' : ∀ k, path' k < f.width) :
    f.find mem' path' l n = f.find mem path' l n := by
  induction l generalizing n with
  | zero => rfl
  | succ l ih =>
    obtain ⟨valid, listed, top⟩ := above_write nodup inside found others rfl
    cases valid' : f.valid (mem n (path' (l + 1))) with
    | false =>
      rw [find_succ_of_invalid valid', find_succ_of_invalid (by rw [top]; exact valid')]
    | true =>
      rw [find_succ_of_valid valid', find_succ_of_valid (by rw [top]; exact valid'), top]
      by_cases same : path' (l + 1) = path (l + 1)
      · have sub := under_nodup nodup (inside (l + 1))
        rw [under_of_valid valid] at sub
        rw [find_succ_of_valid valid] at found
        rw [same]
        exact ih sub found
      · refine find_congr inside' fun x member => others x ?_
        rintro rfl
        rw [← under_of_valid valid'] at member
        exact same (under_apart nodup (inside' (l + 1)) (inside (l + 1)) member listed)

theorem linked_write (linked : f.Linked mem l n) : f.Linked mem' l n := by
  induction l generalizing n with
  | zero => trivial
  | succ l ih =>
    obtain ⟨valid, listed, top⟩ := above_write nodup inside found others rfl
    intro i below known
    rw [top] at known ⊢
    obtain ⟨link, under⟩ := linked i below known
    refine ⟨link, ?_⟩
    by_cases same : i = path (l + 1)
    · subst same
      have sub := under_nodup nodup (inside (l + 1))
      rw [under_of_valid valid] at sub
      rw [find_succ_of_valid valid] at found
      exact ih sub found under
    · refine linked_congr (fun x member => others x ?_) under
      rintro rfl
      rw [← under_of_valid known] at member
      exact same (under_apart nodup below (inside (l + 1)) member listed)

theorem lookup_write : f.lookup mem' path l n = f.entry (mem' leaf (path 0)) := by
  unfold lookup
  rw [find_write nodup inside found others inside, found]
  rfl

theorem lookup_write_of_ne (cells : ∀ k, k ≠ path 0 → mem' leaf k = mem leaf k)
    (inside' : ∀ k, path' k < f.width) {k : Nat} (below : k ≤ l) (differ : path' k ≠ path k) :
    f.lookup mem' path' l n = f.lookup mem path' l n := by
  unfold lookup
  rw [find_write nodup inside found others inside']
  cases found' : f.find mem path' l n with
  | none => rfl
  | some leaf' =>
    change f.entry (mem' leaf' (path' 0)) = f.entry (mem leaf' (path' 0))
    by_cases same : leaf' = leaf
    · rw [same] at found' ⊢
      have entry : path' 0 ≠ path 0 := by
        rcases Nat.eq_zero_or_pos k with zero | positive
        · rwa [zero] at differ
        · exact absurd (find_inj nodup inside' inside found' found positive below) differ
      rw [cells _ entry]
    · rw [others leaf' same]

end Write

/-- The tree gets the nodes `added`, and keeps its entries. -/
structure Grows (f : Format Node Cell) (mem mem' : Node → Nat → Cell) (added : List Node) (l : Nat)
    (n : Node) : Prop where
  nodes : (f.nodes mem' l n).Perm (added ++ f.nodes mem l n)
  lookup : ∀ path, (∀ k, path k < f.width) → f.lookup mem' path l n = f.lookup mem path l n
  frame : ∀ x, x ∉ f.nodes mem l n → x ∉ added → mem' x = mem x
  linked : f.Linked mem l n → f.Linked mem' l n

theorem Grows.refl (f : Format Node Cell) (mem : Node → Nat → Cell) (l : Nat) (n : Node) :
    Grows f mem mem [] l n :=
  ⟨List.Perm.refl _, fun _ _ => rfl, fun _ _ _ => rfl, id⟩

variable {added : List Node}

theorem Grows.trans {mem'' : Node → Nat → Cell} {added' : List Node}
    (first : Grows f mem mem' added l n) (second : Grows f mem' mem'' added' l n) :
    Grows f mem mem'' (added' ++ added) l n := by
  refine ⟨?_, ?_, ?_, fun linked => second.linked (first.linked linked)⟩
  · rw [List.append_assoc]
    exact second.nodes.trans (first.nodes.append_left added')
  · intro path inside
    rw [second.lookup path inside, first.lookup path inside]
  · intro x outside fresh
    rw [List.mem_append, not_or] at fresh
    have still : x ∉ f.nodes mem' l n := by
      rw [first.nodes.mem_iff, List.mem_append, not_or]
      exact ⟨fresh.2, outside⟩
    rw [second.frame x still fresh.1, first.frame x outside fresh.2]

theorem flatMap_perm {g g' : Nat → List Node} {idx : List Nat}
    (nodup : idx.Nodup) (listed : i ∈ idx) (same : ∀ j ∈ idx, j ≠ i → g' j = g j)
    (changed : (g' i).Perm (added ++ g i)) :
    (idx.flatMap g').Perm (added ++ idx.flatMap g) := by
  induction idx with
  | nil => cases listed
  | cons k idx ih =>
    rw [List.nodup_cons] at nodup
    rw [List.flatMap_cons, List.flatMap_cons]
    rcases List.mem_cons.mp listed with here | later
    · subst here
      have rest : idx.flatMap g' = idx.flatMap g := by
        refine List.flatMap_congr fun j known => same j (List.mem_cons_of_mem _ known) ?_
        rintro rfl
        exact nodup.1 known
      rw [rest, ← List.append_assoc]
      exact changed.append_right _
    · have other : k ≠ i := by
        rintro rfl
        exact nodup.1 later
      have rest := ih nodup.2 later fun j known => same j (List.mem_cons_of_mem _ known)
      rw [same k List.mem_cons_self other]
      refine (rest.append_left (g k)).trans ?_
      rw [← List.append_assoc, ← List.append_assoc]
      exact List.perm_append_comm.append_right _

theorem Grows.descend (nodup : (f.nodes mem (l + 1) n).Nodup)
    (inside : i < f.width) (valid : f.valid (mem n i) = true)
    (fresh : ∀ x ∈ added, x ∉ f.nodes mem (l + 1) n)
    (grows : Grows f mem mem' added l (f.ptr (mem n i))) : Grows f mem mem' added (l + 1) n := by
  have sub : f.under mem l (mem n i) = f.nodes mem l (f.ptr (mem n i)) := under_of_valid valid
  have outside : ∀ x, x ∈ f.nodes mem (l + 1) n → x ∉ f.under mem l (mem n i) → mem' x = mem x := by
    intro x listed apart
    rw [sub] at apart
    exact grows.frame x apart fun new => fresh x new listed
  have top : mem' n = mem n := outside n (self_mem_nodes _) (self_not_under nodup inside)
  have beside : ∀ j < f.width, j ≠ i → ∀ x ∈ f.under mem l (mem n j), mem' x = mem x := by
    intro j below other x listed
    refine outside x (mem_nodes_of_under below listed) fun both => ?_
    exact other (under_apart nodup below inside listed both)
  refine ⟨?_, ?_, ?_, ?_⟩
  · rw [nodes_succ, nodes_succ, top]
    refine List.Perm.trans (List.Perm.cons n (flatMap_perm List.nodup_range
      (List.mem_range.mpr inside) ?_ ?_)) List.perm_middle.symm
    · intro j listed other
      exact under_congr (beside j (List.mem_range.mp listed) other)
    · rw [under_of_valid valid, under_of_valid valid]
      exact grows.nodes
  · intro path below
    cases known : f.valid (mem n (path (l + 1))) with
    | false =>
      rw [lookup_succ_of_invalid known, lookup_succ_of_invalid (by rw [top]; exact known)]
    | true =>
      rw [lookup_succ_of_valid known, lookup_succ_of_valid (by rw [top]; exact known), top]
      by_cases same : path (l + 1) = i
      · rw [same]
        exact grows.lookup path below
      · have apart := beside (path (l + 1)) (below (l + 1)) same
        rw [under_of_valid known] at apart
        exact lookup_congr below apart
  · intro x listed new
    refine grows.frame x (fun sublisted => listed ?_) new
    exact mem_nodes_of_under inside (by rwa [sub])
  · intro linked j below known
    rw [top] at known ⊢
    obtain ⟨link, under⟩ := linked j below known
    refine ⟨link, ?_⟩
    by_cases same : j = i
    · subst same
      exact grows.linked under
    · refine linked_congr (fun x listed => beside j below same x ?_) under
      rwa [under_of_valid known]

theorem nodes_of_empty (empty : ∀ k, f.valid (mem n k) = false) : f.nodes mem l n = [n] := by
  cases l with
  | zero => rfl
  | succ l =>
    rw [nodes_succ]
    have none : ((List.range f.width).flatMap fun i => f.under mem l (mem n i)) = [] := by
      refine List.flatMap_eq_nil_iff.mpr fun i _ => ?_
      exact under_of_invalid (empty i)
    rw [none]

theorem lookup_of_empty (empty : ∀ k, f.valid (mem n k) = false) : f.lookup mem path l n = none := by
  cases l with
  | zero =>
    change f.entry (mem n (path 0)) = none
    unfold entry
    rw [empty]
    rfl
  | succ l => exact lookup_succ_of_invalid (empty _)

theorem linked_of_empty (empty : ∀ k, f.valid (mem n k) = false) : f.Linked mem l n := by
  cases l with
  | zero => trivial
  | succ l =>
    intro i _ valid
    rw [empty i] at valid
    cases valid

theorem Grows.attach {p : Node} (fresh : p ∉ f.nodes mem (l + 1) n) (inside : i < f.width)
    (nodup : (f.nodes mem (l + 1) n).Nodup) (invalid : f.valid (mem n i) = false)
    (valid : f.valid (mem' n i) = true) (link : f.link (mem' n i)) (points : f.ptr (mem' n i) = p)
    (cells : ∀ k, k ≠ i → mem' n k = mem n k) (empty : ∀ k, f.valid (mem' p k) = false)
    (others : ∀ x, x ≠ n → x ≠ p → mem' x = mem x) : Grows f mem mem' [p] (l + 1) n := by
  have beside : ∀ j < f.width, ∀ x ∈ f.under mem l (mem n j), mem' x = mem x := by
    intro j below x listed
    refine others x ?_ ?_
    · rintro rfl
      exact self_not_under nodup below listed
    · rintro rfl
      exact fresh (mem_nodes_of_under below listed)
  refine ⟨?_, ?_, ?_, ?_⟩
  · rw [nodes_succ, nodes_succ]
    refine List.Perm.trans (List.Perm.cons n (flatMap_perm List.nodup_range
      (List.mem_range.mpr inside) ?_ ?_)) List.perm_middle.symm
    · intro j listed other
      rw [cells j other]
      exact under_congr (beside j (List.mem_range.mp listed))
    · rw [under_of_invalid invalid, under_of_valid valid, points, nodes_of_empty empty]
      exact List.Perm.refl _
  · intro path below
    by_cases same : path (l + 1) = i
    · rw [← same] at invalid valid points
      rw [lookup_succ_of_valid valid, lookup_succ_of_invalid invalid, points]
      exact lookup_of_empty empty
    · have cell := cells _ same
      cases known : f.valid (mem n (path (l + 1))) with
      | false =>
        rw [lookup_succ_of_invalid known, lookup_succ_of_invalid (by rw [cell]; exact known)]
      | true =>
        have apart := beside (path (l + 1)) (below (l + 1))
        rw [under_of_valid known] at apart
        rw [lookup_succ_of_valid known, lookup_succ_of_valid (by rw [cell]; exact known), cell]
        exact lookup_congr below apart
  · intro x listed new
    refine others x ?_ ?_
    · rintro rfl
      exact listed (self_mem_nodes _)
    · rintro rfl
      exact new List.mem_cons_self
  · intro linked j below known
    by_cases same : j = i
    · subst same
      rw [points]
      exact ⟨link, linked_of_empty empty⟩
    · rw [cells j same] at known ⊢
      obtain ⟨old, under⟩ := linked j below known
      refine ⟨old, linked_congr (fun x listed => beside j below x ?_) under⟩
      rwa [under_of_valid known]

end Format

end FreeRadix
