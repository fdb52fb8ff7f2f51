import Patchbay.Run.Control
import Patchbay.Run.Data
/-!
# Choosing how to run a graph

The category of a graph says by which discipline it is run.
-/
namespace Patchbay.Run

/-- A discipline with its limits. Data flow has no limits to heed. -/
structure Engine where
  category : Category
  options : Options := {}
  deriving DecidableEq, Repr

namespace Engine

/-- The engine for a graph. -/
def ofGraph (g : Graph) (options : Options := {}) : Engine := ⟨g.category, options⟩

/-- Run a graph. -/
def run (e : Engine) (watch : Stopwatch) (s : State) : Outcome :=
  match e.category with
  | .controlFlow => runControl e.options watch s
  | .dataFlow => runData watch s

end Engine

/-- The engine for a graph never refuses it for its category. -/
theorem result_run_ofGraph_ne (g : Graph) (o : Options) (watch : Stopwatch) (s : State)
    (h : s.graph = g) (name : String) (c : Category) :
    ((Engine.ofGraph g o).run watch s).result ≠ .error (.wrongCategory name c) := by
  subst h
  cases hc : s.graph.category with
  | controlFlow =>
    simp only [Engine.run, Engine.ofGraph, hc, runControl]
    split
    · next e he =>
      intro h
      simp only [controlError?, hc, ne_eq, not_true_eq_false, if_false] at he
      cases h
      split at he
      · simp at he
      · split at he
        · simp at he
        · split at he <;> simp at he
    · simp
  | dataFlow =>
    simp only [Engine.run, Engine.ofGraph, hc, runData]
    split
    · next e he =>
      intro h
      simp only [dataError?, hc, ne_eq, not_true_eq_false, if_false] at he
      cases h
      split at he
      · simp at he
      · split at he <;> simp at he
    · split <;> simp

end Patchbay.Run
