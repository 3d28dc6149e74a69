import Mathlib.Logic.Function.Basic

/-!
# Writes to a store

A store maps keys to values, and writes are carried out from left to right. What a list of writes
leaves at a key that it writes does not depend on what was there, so it may be carried out again
over any part of itself.
-/

namespace StoreWrites

open Function

variable {κ β : Type} [DecidableEq κ]

def applyAll (ws : List (κ × β)) (store : κ → β) : κ → β :=
  ws.foldl (fun store w => update store w.1 w.2) store

@[simp] theorem applyAll_nil (store : κ → β) : applyAll [] store = store := rfl

@[simp] theorem applyAll_cons (w : κ × β) (ws : List (κ × β)) (store : κ → β) :
    applyAll (w :: ws) store = applyAll ws (update store w.1 w.2) := rfl

theorem applyAll_append (ws more : List (κ × β)) (store : κ → β) :
    applyAll (ws ++ more) store = applyAll more (applyAll ws store) :=
  List.foldl_append

variable {ws : List (κ × β)} {store : κ → β}

/-- Two stores agree after the same writes where they agreed before or the writes reach. -/
theorem applyAll_congr {store' : κ → β} {k : κ}
    (agree : k ∈ ws.map Prod.fst ∨ store k = store' k) :
    applyAll ws store k = applyAll ws store' k := by
  induction ws generalizing store store' with
  | nil =>
    rcases agree with written | same
    · cases written
    · exact same
  | cons w ws ih =>
    rw [applyAll_cons, applyAll_cons]
    apply ih
    by_cases here : k = w.1
    · right
      rw [here, update_self, update_self]
    · rcases agree with written | same
      · rw [List.map_cons, List.mem_cons] at written
        exact .inl (written.resolve_left here)
      · right
        rw [update_of_ne here, update_of_ne here, same]

theorem applyAll_update_of_mem {k : κ} {v : β}
    (written : k ∈ ws.map Prod.fst) : applyAll ws (update store k v) = applyAll ws store := by
  funext j
  apply applyAll_congr
  by_cases here : j = k
  · subst here
    exact .inl written
  · exact .inr (update_of_ne here _ _)

theorem applyAll_of_holds (holds : ∀ w ∈ ws, store w.1 = w.2) : applyAll ws store = store := by
  induction ws with
  | nil => rfl
  | cons w ws ih =>
    have same : update store w.1 w.2 = store := by
      rw [← holds w List.mem_cons_self, update_eq_self]
    rw [applyAll_cons, same]
    exact ih fun w' member => holds w' (List.mem_cons_of_mem _ member)

end StoreWrites
