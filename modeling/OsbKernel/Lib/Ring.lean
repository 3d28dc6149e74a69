import Mathlib.Algebra.GroupWithZero.Nat
import Mathlib.Data.List.TakeDrop

/-!
# Rings with free-running counters

A ring of `N` cells holds the latest part of a growing list, each element at its position modulo
`N`. Positions are kept in counters of `w` bits that are never reset; the laws relate a counter to
the position it stands for, across any number of wraps.
-/

namespace FreeRing

open Function

variable {α : Type} {w N : Nat}

theorem counter_sub {lo hi : Nat} (le : lo ≤ hi) (near : hi - lo < 2 ^ w) :
    (BitVec.ofNat w hi - BitVec.ofNat w lo).toNat = hi - lo := by
  rw [BitVec.toNat_sub, BitVec.toNat_ofNat, BitVec.toNat_ofNat]
  have high := Nat.div_add_mod hi (2 ^ w)
  have low := Nat.div_add_mod lo (2 ^ w)
  have shift : 2 ^ w - lo % 2 ^ w + hi % 2 ^ w + 2 ^ w * (hi / 2 ^ w) =
      hi - lo + 2 ^ w * (lo / 2 ^ w + 1) := by
    rw [Nat.mul_add, Nat.mul_one]
    omega
  have reduced := congrArg (· % 2 ^ w) shift
  simp only [Nat.add_mul_mod_self_left] at reduced
  rw [reduced, Nat.mod_eq_of_lt near]

theorem counter_inj {lo hi : Nat} (le : lo ≤ hi) (near : hi - lo < 2 ^ w) :
    BitVec.ofNat w hi = BitVec.ofNat w lo ↔ hi = lo := by
  constructor
  · intro same
    have distance := counter_sub le near
    rw [same, BitVec.sub_self] at distance
    have zero : (0#w).toNat = 0 := by simp
    omega
  · rintro rfl
    rfl

theorem counter_succ (k : Nat) : BitVec.ofNat w k + 1 = BitVec.ofNat w (k + 1) := by
  rw [BitVec.ofNat_add]
  rfl

theorem counter_mod (divides : N ∣ 2 ^ w) (k : Nat) : (BitVec.ofNat w k).toNat % N = k % N := by
  rw [BitVec.toNat_ofNat, Nat.mod_mod_of_dvd k divides]

/-- The cells hold the elements of the list from position `lo` on. -/
structure Window (N : Nat) (cells : Nat → α) (whole : List α) (lo : Nat) : Prop where
  below : lo ≤ whole.length
  fits : whole.length ≤ lo + N
  holds : ∀ k, lo ≤ k → (inside : k < whole.length) → cells (k % N) = whole[k]

namespace Window

variable {cells : Nat → α} {whole : List α} {lo : Nat}

theorem empty (cells : Nat → α) : Window N cells [] 0 :=
  ⟨Nat.le_refl 0, Nat.zero_le _, fun _ _ inside => absurd inside (Nat.not_lt_zero _)⟩

theorem cells_apart {j k : Nat} (lt : j < k) (near : k < j + N) : j % N ≠ k % N := by
  intro same
  have distance : (k - j) % N = 0 := Nat.sub_mod_eq_zero_of_mod_eq same.symm
  rw [Nat.mod_eq_of_lt (by omega)] at distance
  omega

theorem push (window : Window N cells whole lo) (room : whole.length < lo + N) (a : α) :
    Window N (update cells (whole.length % N) a) (whole ++ [a]) lo := by
  refine ⟨?_, ?_, ?_⟩
  · have below := window.below
    simp only [List.length_append, List.length_singleton]
    omega
  · simp only [List.length_append, List.length_singleton]
    omega
  · intro k from_ inside
    rw [List.length_append, List.length_singleton] at inside
    by_cases last : k = whole.length
    · subst last
      simp
    · have before : k < whole.length := by omega
      rw [update_of_ne (cells_apart before (by omega)), List.getElem_append_left before]
      exact window.holds k from_ before

theorem oldest (window : Window N cells whole lo) (some : lo < whole.length) :
    cells (lo % N) = whole[lo] :=
  window.holds lo (Nat.le_refl lo) some

theorem pop (window : Window N cells whole lo) (some : lo < whole.length) :
    Window N cells whole (lo + 1) := by
  refine ⟨some, ?_, ?_⟩
  · have fits := window.fits
    omega
  · intro k from_ inside
    exact window.holds k (by omega) inside

theorem shorten {a : α} (window : Window N cells (whole ++ [a]) lo) (below : lo ≤ whole.length) :
    Window N cells whole lo := by
  refine ⟨below, ?_, ?_⟩
  · have fits := window.fits
    rw [List.length_append] at fits
    omega
  · intro k from_ inside
    have longer : k < (whole ++ [a]).length := by
      rw [List.length_append]
      omega
    rw [window.holds k from_ longer, List.getElem_append_left inside]

theorem contents (window : Window N cells whole lo) :
    whole.drop lo = (List.range (whole.length - lo)).map fun k => cells ((lo + k) % N) := by
  apply List.ext_getElem
  · simp
  · intro k inside _
    rw [List.length_drop] at inside
    rw [List.getElem_drop, List.getElem_map, List.getElem_range]
    exact (window.holds (lo + k) (Nat.le_add_right lo k) (by omega)).symm

end Window

end FreeRing
