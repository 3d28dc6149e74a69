import Mathlib.Algebra.BigOperators.Group.Finset.Piecewise
import Mathlib.Algebra.GroupWithZero.Nat
import Mathlib.Data.Fintype.Card

/-!
# Counting the entries of a table

The number of entries of a finite table that have a property, and how it changes
when one entry is written.
-/

namespace Tally

open Function Finset

variable {ι τ : Type} [Fintype ι] [DecidableEq ι]

omit [DecidableEq ι] in
def tally (P : τ → Prop) [DecidablePred P] (t : ι → τ) : Nat :=
  (univ.filter fun i => P (t i)).card

variable {P : τ → Prop} [DecidablePred P] {t : ι → τ}

omit [DecidableEq ι] in
theorem tally_pos_iff : 0 < tally P t ↔ ∃ i, P (t i) := by
  unfold tally
  rw [card_pos]
  constructor
  · rintro ⟨i, listed⟩
    exact ⟨i, (mem_filter.mp listed).2⟩
  · rintro ⟨i, holds⟩
    exact ⟨i, mem_filter.mpr ⟨mem_univ i, holds⟩⟩

omit [DecidableEq ι] in
theorem tally_eq_zero (none : ∀ i, ¬ P (t i)) : tally P t = 0 := by
  apply Nat.eq_zero_of_not_pos
  rw [tally_pos_iff]
  rintro ⟨i, holds⟩
  exact none i holds

theorem tally_update (t : ι → τ) (i : ι) (x : τ) :
    tally P (update t i x) + (if P (t i) then 1 else 0) =
      tally P t + (if P x then 1 else 0) := by
  have written : (fun j => if P (update t i x j) then 1 else 0) =
      update (fun j => if P (t j) then 1 else 0) i (if P x then 1 else 0) := by
    funext j
    by_cases here : j = i
    · subst here
      simp
    · simp [here]
  have old := sum_erase_add univ (fun j => if P (t j) then 1 else 0) (mem_univ i)
  unfold tally
  rw [card_filter, card_filter, written, sum_update_of_mem (mem_univ i), ← old,
    sdiff_singleton_eq_erase]
  omega

variable {κ : Type} [DecidableEq κ]

/-- Add `n` to the balance of one key. -/
def bump (balance : κ → Int) (k : κ) (n : Int) : κ → Int := update balance k (balance k + n)

theorem bump_apply (balance : κ → Int) (k j : κ) (n : Int) :
    bump balance k n j = balance j + (if j = k then n else 0) := by
  unfold bump
  by_cases same : j = k
  · subst same
    simp
  · simp [same]

@[simp] theorem bump_cancel (balance : κ → Int) (k : κ) (n : Int) :
    bump (bump balance k n) k (-n) = balance := by
  funext j
  simp only [bump_apply]
  split <;> omega

@[simp] theorem bump_cancel_neg (balance : κ → Int) (k : κ) (n : Int) :
    bump (bump balance k (-n)) k n = balance := by
  funext j
  simp only [bump_apply]
  split <;> omega

theorem bump_comm (balance : κ → Int) (k j : κ) (n m : Int) :
    bump (bump balance k n) j m = bump (bump balance j m) k n := by
  funext i
  simp only [bump_apply]
  omega

end Tally
