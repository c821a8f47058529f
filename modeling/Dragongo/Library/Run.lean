import Mathlib.Data.List.Basic

/-!
# Runs of a deterministic machine

A step of the machine gives some output and the next state.  A run collects the output.
-/

variable {σ α : Type} {step : σ → Option (List α × σ)}

inductive Runs (step : σ → Option (List α × σ)) : σ → List α → σ → Prop
  | refl (s : σ) : Runs step s [] s
  | next {s s' s'' : σ} {out outs : List α} (h : step s = some (out, s'))
    (rest : Runs step s' outs s'') : Runs step s (out ++ outs) s''

namespace Runs

theorem single {s s' : σ} {out : List α} (h : step s = some (out, s')) : Runs step s out s' := by
  simpa using Runs.next h (.refl s')

theorem trans {s s' s'' : σ} {outs outs' : List α} (h : Runs step s outs s')
    (h' : Runs step s' outs' s'') : Runs step s (outs ++ outs') s'' := by
  induction h with
  | refl _ => exact h'
  | next hstep _ ih =>
    rw [List.append_assoc]
    exact .next hstep (ih h')

end Runs
