import Mathlib.Init

/-!
# Programs over a set of operations

A program returns a value, stops with an error, or issues an operation and goes on with the
answer. A model says what the operations do: a relation between a state, an operation, its answer
and the next state. `Sat` is the precondition under which every run of a program meets its
postcondition.
-/

namespace OpProgram

variable {Op : Type} {Res : Op → Type} {ε α β σ : Type}

/-- A program over operations whose answers have the types `Res`. -/
inductive Prog (Res : Op → Type) (ε α : Type) where
  | ret (a : α)
  | stop (e : ε)
  | op (o : Op) (next : Res o → Prog Res ε α)

namespace Prog

def bind : Prog Res ε α → (α → Prog Res ε β) → Prog Res ε β
  | ret a, f => f a
  | stop e, _ => stop e
  | op o next, f => op o fun r => (next r).bind f

instance monad : Monad (Prog Res ε) where
  pure := ret
  bind := bind

def perform (o : Op) : Prog Res ε (Res o) := op o ret

end Prog

open Prog

/-- What the operations do: the answers and next states they may give, and the
errors they may stop with. -/
structure Model (Res : Op → Type) (ε σ : Type) where
  step : σ → (o : Op) → Res o → σ → Prop
  stops : σ → Op → ε → Prop

variable {M : Model Res ε σ} {s s' : σ} {Q Q' : α → σ → Prop} {E E' : ε → Prop}

/-- The program, started in `s`, returns `a` in `s'`. -/
inductive Runs (M : Model Res ε σ) : Prog Res ε α → σ → α → σ → Prop where
  | ret (a : α) (s : σ) : Runs M (ret a) s a s
  | op {o : Op} {next : Res o → Prog Res ε α} {r : Res o} {s s' s'' : σ} {a : α}
      (answered : M.step s o r s') (rest : Runs M (next r) s' a s'') :
      Runs M (op o next) s a s''

/-- Every run from `s` that returns ends in `Q`, and every run that stops does so
with an error in `E`. -/
def Sat (M : Model Res ε σ) : Prog Res ε α → σ → (α → σ → Prop) → (ε → Prop) → Prop
  | ret a, s, Q, _ => Q a s
  | stop e, _, _, E => E e
  | op o next, s, Q, E =>
    (∀ e, M.stops s o e → E e) ∧ ∀ r s', M.step s o r s' → Sat M (next r) s' Q E

variable {p : Prog Res ε α} {f : α → Prog Res ε β}

theorem Sat.runs {a : α} (sat : Sat M p s Q E) (ran : Runs M p s a s') :
    Q a s' := by
  induction ran with
  | ret a s => exact sat
  | op answered _ ih => exact ih (sat.2 _ _ answered)

theorem Sat.mono (sat : Sat M p s Q E) (post : ∀ a s', Q a s' → Q' a s')
    (errors : ∀ e, E e → E' e) : Sat M p s Q' E' := by
  induction p generalizing s with
  | ret a => exact post a s sat
  | stop e => exact errors e sat
  | op o next ih =>
    exact ⟨fun e stopped => errors e (sat.1 e stopped),
      fun r s' answered => ih r (sat.2 r s' answered)⟩

theorem Sat.bind {Q : β → σ → Prop}
    (first : Sat M p s (fun a s' => Sat M (f a) s' Q E) E) : Sat M (p >>= f) s Q E := by
  induction p generalizing s with
  | ret a | stop e => exact first
  | op o next ih => exact ⟨first.1, fun r s' answered => ih r (first.2 r s' answered)⟩

theorem Sat.seq {R : β → σ → Prop}
    (first : Sat M p s Q E) (second : ∀ a s', Q a s' → Sat M (f a) s' R E) :
    Sat M (p >>= f) s R E :=
  Sat.bind (first.mono second fun _ error => error)

theorem Sat.perform {o : Op} {f : Res o → Prog Res ε β} {Q : β → σ → Prop}
    (errors : ∀ e, M.stops s o e → E e)
    (answers : ∀ r s', M.step s o r s' → Sat M (f r) s' Q E) :
    Sat M (Prog.perform o >>= f) s Q E :=
  ⟨errors, answers⟩

end OpProgram
