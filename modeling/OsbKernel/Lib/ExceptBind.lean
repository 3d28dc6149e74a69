import Mathlib.Init

/-!
# Sequencing in the exception monad

Peeling lemmas for computations that may stop with an error: a bind that
returned went through its first part, and a loop over a list keeps whatever one
iteration keeps.
-/

namespace ExceptBind

variable {ε α β σ : Type}

variable {x : Except ε α} {f : α → Except ε β} {step : σ → α → Except ε σ}

theorem bind_ok {b : β}
    (returned : (x >>= f) = .ok b) : ∃ a, x = .ok a ∧ f a = .ok b := by
  cases x with
  | error e => cases returned
  | ok a => exact ⟨a, rfl, returned⟩

theorem bind_eq {a : α} (returned : x = .ok a) (f : α → Except ε β) :
    (x >>= f) = f a := by
  rw [returned]
  rfl

theorem map_ok {f : α → β} {b : β} (returned : x.map f = .ok b) :
    ∃ a, x = .ok a ∧ f a = b := by
  cases x with
  | error e => cases returned
  | ok a =>
    cases returned
    exact ⟨a, rfl, rfl⟩

theorem bind_error {e : ε}
    (stopped : (x >>= f) = .error e) : x = .error e ∨ ∃ a, x = .ok a ∧ f a = .error e := by
  cases x with
  | error e' =>
    cases stopped
    exact .inl rfl
  | ok a => exact .inr ⟨a, rfl, stopped⟩

theorem foldlM_ok {P : σ → Prop} {l : List α} {s : σ}
    (start : P s)
    (each : ∀ s a, a ∈ l → P s → ∃ s', step s a = .ok s' ∧ P s') :
    ∃ s', l.foldlM step s = .ok s' ∧ P s' := by
  induction l generalizing s with
  | nil => exact ⟨s, rfl, start⟩
  | cons a rest ih =>
    obtain ⟨middle, ran, kept⟩ := each s a List.mem_cons_self start
    obtain ⟨last, finished, final⟩ :=
      ih kept fun s b listed => each s b (List.mem_cons_of_mem a listed)
    refine ⟨last, ?_, final⟩
    rw [List.foldlM_cons, ran]
    exact finished

theorem toOption_some {a : α} (returned : x.toOption = some a) : x = .ok a := by
  cases x with
  | error e => cases returned
  | ok b =>
    cases returned
    rfl

/-- If the computation stops, it stops with an error in `P`. -/
def StopsIn (P : ε → Prop) (x : Except ε α) : Prop := ∀ e, x = .error e → P e

namespace StopsIn

variable {P : ε → Prop}

theorem ok (a : α) : StopsIn P (.ok a : Except ε α) := fun _ stopped => by cases stopped

theorem error {e : ε} (inside : P e) : StopsIn P (.error e : Except ε α) := by
  rintro _ ⟨⟩
  exact inside

theorem bind (first : StopsIn P x)
    (second : ∀ a, StopsIn P (f a)) : StopsIn P (x >>= f) := by
  intro e stopped
  rcases bind_error stopped with early | ⟨a, _, late⟩
  · exact first e early
  · exact second a e late

theorem foldlM (each : ∀ s a, StopsIn P (step s a)) (l : List α)
    (s : σ) : StopsIn P (l.foldlM step s) := by
  induction l generalizing s with
  | nil => exact StopsIn.ok s
  | cons a rest ih =>
    exact (each s a).bind ih

end StopsIn

end ExceptBind
