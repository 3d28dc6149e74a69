import Mathlib.Data.List.Basic

/-!
# Overwriting a stretch of a partial map

A memory as a partial map from numbers to cells, the map with a list of cells laid over it
from one address on, and the list of cells that stands at an address.
-/

namespace PartialMap

variable {α : Type}

/-- The map with `cells` laid over it from address `a` on. -/
def overwrite (mem : Nat → Option α) (a : Nat) (cells : List α) (x : Nat) : Option α :=
  if a ≤ x ∧ x < a + cells.length then cells[x - a]? else mem x

/-- The cells that stand from address `a` on. -/
def Holds (mem : Nat → Option α) (a : Nat) (cells : List α) : Prop :=
  ∀ i < cells.length, mem (a + i) = cells[i]?

variable {mem mem' : Nat → Option α} {a x : Nat} {cells more : List α}

theorem overwrite_inside (low : a ≤ x) (high : x < a + cells.length) :
    overwrite mem a cells x = cells[x - a]? :=
  if_pos ⟨low, high⟩

theorem overwrite_outside (outside : x < a ∨ a + cells.length ≤ x) :
    overwrite mem a cells x = mem x :=
  if_neg (by omega)

@[simp] theorem overwrite_nil : overwrite mem a [] = mem := by
  funext x
  exact overwrite_outside (by simp only [List.length_nil]; omega)

theorem overwrite_append :
    overwrite (overwrite mem a cells) (a + cells.length) more = overwrite mem a (cells ++ more) := by
  funext x
  have joined : (cells ++ more).length = cells.length + more.length := List.length_append
  by_cases low : x < a
  · rw [overwrite_outside (by omega), overwrite_outside (by omega), overwrite_outside (by omega)]
  · by_cases first : x < a + cells.length
    · rw [overwrite_outside (by omega), overwrite_inside (by omega) first,
        overwrite_inside (by omega) (by omega), List.getElem?_append_left (by omega)]
    · by_cases second : x < a + cells.length + more.length
      · rw [overwrite_inside (by omega) second, overwrite_inside (by omega) (by omega),
          List.getElem?_append_right (by omega)]
        congr 1
        omega
      · rw [overwrite_outside (by omega), overwrite_outside (by omega),
          overwrite_outside (by omega)]

theorem overwrite_cons (c : α) :
    overwrite (overwrite mem a [c]) (a + 1) cells = overwrite mem a (c :: cells) := by
  have appended : overwrite (overwrite mem a [c]) (a + [c].length) cells = _ := overwrite_append
  exact appended

theorem holds_overwrite (mem : Nat → Option α) (a : Nat) (cells : List α) :
    Holds (overwrite mem a cells) a cells := by
  intro i inside
  rw [overwrite_inside (by omega) (by omega), Nat.add_sub_cancel_left]

theorem holds_nil : Holds mem a [] := fun _ inside => absurd inside (Nat.not_lt_zero _)

theorem Holds.append (first : Holds mem a cells) (second : Holds mem (a + cells.length) more) :
    Holds mem a (cells ++ more) := by
  intro i inside
  rw [List.length_append] at inside
  by_cases left : i < cells.length
  · rw [List.getElem?_append_left left]
    exact first i left
  · rw [List.getElem?_append_right (by omega), ← second (i - cells.length) (by omega)]
    congr 1
    omega

theorem Holds.unique (first : Holds mem a cells) (second : Holds mem a more)
    (length : cells.length = more.length) : cells = more := by
  apply List.ext_getElem?
  intro i
  by_cases inside : i < cells.length
  · rw [← first i inside, second i (by omega)]
  · rw [List.getElem?_eq_none (by omega), List.getElem?_eq_none (by omega)]

theorem Holds.some (holds : Holds mem a cells) {i : Nat} (inside : i < cells.length) :
    mem (a + i) ≠ none := by
  rw [holds i inside, List.getElem?_eq_getElem inside]
  exact Option.some_ne_none _

/-- The list with `cells` in the place of its elements from `a` on, longer if necessary. -/
def splice (old : List α) (a : Nat) (cells : List α) : List α :=
  old.take a ++ cells ++ old.drop (a + cells.length)

theorem getElem?_splice {old : List α} (inside : a ≤ old.length) (x : Nat) :
    (splice old a cells)[x]? = overwrite (fun x => old[x]?) a cells x := by
  have front : (old.take a).length = a := List.length_take_of_le inside
  have joined : (old.take a ++ cells).length = a + cells.length := by
    rw [List.length_append, front]
  unfold splice
  by_cases low : x < a
  · rw [overwrite_outside (.inl low), List.getElem?_append_left (by omega),
      List.getElem?_append_left (by omega), List.getElem?_take_of_lt low]
  · by_cases high : x < a + cells.length
    · rw [overwrite_inside (by omega) high, List.getElem?_append_left (by omega),
        List.getElem?_append_right (by omega), front]
    · rw [overwrite_outside (by omega), List.getElem?_append_right (by omega), List.getElem?_drop,
        joined, Nat.add_sub_cancel' (by omega)]

end PartialMap
