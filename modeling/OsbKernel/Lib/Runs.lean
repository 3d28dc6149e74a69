/-!
# Runs of a machine with choices

A machine takes steps that are chosen from outside; a choice that is not possible in a
state gives no step.
-/

namespace FreeRuns

universe u v

variable {State : Type u} {Act : Type v}

def run (step : State → Act → Option State) (s : State) : List Act → Option State
  | [] => some s
  | a :: rest => (step s a).bind (run step · rest)

theorem run_keeps {step : State → Act → Option State} {P : State → Prop} {s s' : State}
    (kept : ∀ {s s' : State} (a : Act), P s → step s a = some s' → P s') (acts : List Act)
    (start : P s) (ran : run step s acts = some s') : P s' := by
  induction acts generalizing s with
  | nil =>
    cases ran
    exact start
  | cons a rest ih =>
    obtain ⟨middle, stepped, more⟩ := Option.bind_eq_some_iff.mp ran
    exact ih (kept a start stepped) more

end FreeRuns
