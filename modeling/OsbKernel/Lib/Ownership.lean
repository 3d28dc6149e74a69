import Mathlib.Logic.Function.Basic

/-!
# Exact ownership

Owners hold at most one resource each, or lists of them.  The resources in use are exactly those
that are held, and no resource is held twice.
-/

namespace Ownership

open Function

variable {σ β : Type} {own own' : σ → Option β} {used used' : β → Prop}

/-- Every resource in use has one owner, and nothing else is owned. -/
structure Exact (own : σ → Option β) (used : β → Prop) : Prop where
  distinct : ∀ {s s' b}, own s = some b → own s' = some b → s = s'
  used_iff : ∀ b, used b ↔ ∃ s, own s = some b

variable {s : σ} {b : β}

theorem Exact.held_used (owned : Exact own used) (held : own s = some b) : used b :=
  (owned.used_iff b).mpr ⟨s, held⟩

theorem Exact.congr (owned : Exact own used) (same : ∀ s, own' s = own s)
    (still : ∀ b, used' b ↔ used b) : Exact own' used' := by
  obtain rfl : own' = own := funext same
  exact ⟨owned.distinct, fun b => (still b).trans (owned.used_iff b)⟩

variable [DecidableEq σ]

theorem Exact.assign (owned : Exact own used) (empty : own s = none)
    (free : ¬ used b) (now : ∀ x, used' x ↔ x = b ∨ used x) :
    Exact (update own s (some b)) used' := by
  have others : ∀ {t x}, update own s (some b) t = some x → t = s ∧ x = b ∨ t ≠ s ∧ own t = some x := by
    intro t x held
    by_cases here : t = s
    · subst here
      rw [update_self] at held
      exact .inl ⟨rfl, (Option.some.inj held).symm⟩
    · rw [update_of_ne here] at held
      exact .inr ⟨here, held⟩
  refine ⟨?_, ?_⟩
  · intro t t' x first second
    rcases others first with ⟨rfl, rfl⟩ | ⟨-, held⟩ <;> rcases others second with ⟨rfl, same⟩ | ⟨-, held'⟩
    · rfl
    · exact absurd (owned.held_used held') free
    · rw [same] at held
      exact absurd (owned.held_used held) free
    · exact owned.distinct held held'
  · intro x
    rw [now, owned.used_iff]
    constructor
    · rintro (rfl | ⟨t, held⟩)
      · exact ⟨s, update_self _ _ _⟩
      · refine ⟨t, ?_⟩
        rw [update_of_ne fun here => ?_]
        · exact held
        · rw [here, empty] at held
          exact Option.some_ne_none x held.symm
    · rintro ⟨t, held⟩
      rcases others held with ⟨-, rfl⟩ | ⟨-, old⟩
      · exact .inl rfl
      · exact .inr ⟨t, old⟩

theorem Exact.release (owned : Exact own used) (held : own s = some b)
    (now : ∀ x, used' x ↔ used x ∧ x ≠ b) : Exact (update own s none) used' := by
  have others : ∀ {t x}, update own s none t = some x → t ≠ s ∧ own t = some x := by
    intro t x kept
    by_cases here : t = s
    · subst here
      rw [update_self] at kept
      exact absurd kept.symm (Option.some_ne_none x)
    · rw [update_of_ne here] at kept
      exact ⟨here, kept⟩
  refine ⟨fun first second => owned.distinct (others first).2 (others second).2, ?_⟩
  intro x
  rw [now, owned.used_iff]
  constructor
  · rintro ⟨⟨t, kept⟩, other⟩
    refine ⟨t, ?_⟩
    rw [update_of_ne fun here => ?_]
    · exact kept
    · rw [here, held] at kept
      exact other (Option.some.inj kept).symm
  · rintro ⟨t, kept⟩
    obtain ⟨other, old⟩ := others kept
    refine ⟨⟨t, old⟩, ?_⟩
    rintro rfl
    exact other (owned.distinct old held)

/-- Every resource is free or held by one owner, who holds it once. -/
structure Shared (all free : β → Prop) (held : σ → List β) : Prop where
  nodup : ∀ s, (held s).Nodup
  exclusive : ∀ s t x, x ∈ held s → x ∈ held t → s = t
  apart : ∀ s, ∀ x ∈ held s, ¬ free x
  total : ∀ x, all x ↔ free x ∨ ∃ s, x ∈ held s

omit [DecidableEq σ] in
theorem Shared.change {all free free' : β → Prop} {held held' : σ → List β}
    (shared : Shared all free held) (s : σ) (others : ∀ t, t ≠ s → held' t = held t)
    (nodup : (held' s).Nodup) (conserve : ∀ x, free' x ∨ x ∈ held' s ↔ free x ∨ x ∈ held s)
    (apart : ∀ x ∈ held' s, ¬ free' x) : Shared all free' held' where
  nodup t := by
    by_cases here : t = s
    · exact here ▸ nodup
    · exact others t here ▸ shared.nodup t
  exclusive t u x mine his := by
    have := shared.exclusive
    have := shared.apart
    by_cases here : t = s <;> by_cases there : u = s <;> grind
  apart t x mine := by
    have := shared.exclusive
    have := shared.apart
    by_cases here : t = s <;> grind
  total x := by
    have split : ∀ f : σ → List β, (∃ t, x ∈ f t) ↔ x ∈ f s ∨ ∃ t, t ≠ s ∧ x ∈ f t := by grind
    have same : (∃ t, t ≠ s ∧ x ∈ held' t) ↔ ∃ t, t ≠ s ∧ x ∈ held t :=
      exists_congr fun t => and_congr_right fun other => by rw [others t other]
    rw [shared.total, split held, split held', same, ← or_assoc, ← or_assoc, conserve]

end Ownership
