import Mathlib.Logic.Relation

/-!
# Waits-for graphs

`blocked a k b` says that `a` waits for the lock `k` that `b` holds. A cycle of such edges is a
deadlock. There is none when, in some order of the locks, every party on the cycle waits for a
lock after the one it is being waited for.
-/

namespace WaitGraph

open Relation

variable {κ β : Type*}

def Waits (blocked : κ → β → κ → Prop) (a b : κ) : Prop := ∃ k, blocked a k b

def IsBlocked (blocked : κ → β → κ → Prop) (a : κ) : Prop := ∃ k b, blocked a k b

variable {blocked : κ → β → κ → Prop} {lt : β → β → Prop} {a b : κ}

theorem increasing (trans : ∀ k₁ k₂ k₃, lt k₁ k₂ → lt k₂ k₃ → lt k₁ k₃)
    (up : ∀ a k b k' d, blocked a k b → blocked b k' d → IsBlocked blocked d → lt k k')
    (path : TransGen (Waits blocked) a b) (last : IsBlocked blocked b) :
    ∃ k d k' e, blocked a k d ∧ IsBlocked blocked d ∧ blocked e k' b ∧ (k = k' ∨ lt k k') := by
  induction path with
  | single edge =>
    obtain ⟨k, edge⟩ := edge
    exact ⟨k, _, k, _, edge, last, edge, .inl rfl⟩
  | tail _ edge ih =>
    obtain ⟨k₁, edge⟩ := edge
    obtain ⟨k, d, k', e, front, waits, back, order⟩ := ih ⟨k₁, _, edge⟩
    have step := up _ _ _ _ _ back edge last
    refine ⟨k, d, k₁, _, front, waits, edge, .inr ?_⟩
    rcases order with same | less
    · rw [same]
      exact step
    · exact trans _ _ _ less step

theorem no_cycle (irrefl : ∀ k, ¬ lt k k)
    (trans : ∀ k₁ k₂ k₃, lt k₁ k₂ → lt k₂ k₃ → lt k₁ k₃)
    (up : ∀ a k b k' d, blocked a k b → blocked b k' d → IsBlocked blocked d → lt k k') :
    ¬ TransGen (Waits blocked) a a := by
  intro cycle
  have waits : IsBlocked blocked a := by
    obtain ⟨b, ⟨k, edge⟩, _⟩ := TransGen.head'_iff.mp cycle
    exact ⟨k, b, edge⟩
  obtain ⟨k, d, k', e, front, onward, back, order⟩ := increasing trans up cycle waits
  have closing := up _ _ _ _ _ back front onward
  rcases order with same | less
  · subst same
    exact irrefl _ closing
  · exact irrefl _ (trans _ _ _ less closing)

end WaitGraph
