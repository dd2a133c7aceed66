/-!
# Runs of steps

A draft grows by steps, each of which may fail. A run takes every step in turn and goes on after a
failure with the draft as it was; a chain stops at the first failure. Both are stated for any kind
of draft, step and error.
-/
namespace ScriptTree.Draft

variable {ε σ τ : Type}

/-- The draft after one step of a run. -/
def settle (step : σ → τ → Except ε σ) (s : σ) (t : τ) : σ :=
  match step s t with
  | .ok s => s
  | .error _ => s

/-- The draft after a run. -/
def run (step : σ → τ → Except ε σ) (s : σ) (ts : List τ) : σ := ts.foldl (settle step) s

/-- What each step of a run answers. -/
def history (step : σ → τ → Except ε σ) (s : σ) : List τ → List (Except ε σ)
  | [] => []
  | t :: ts => step s t :: history step (settle step s t) ts

/-- The draft after a chain of steps, if none fails. -/
def chain (step : σ → τ → Except ε σ) (s : σ) (ts : List τ) : Except ε σ := ts.foldlM step s

end ScriptTree.Draft
