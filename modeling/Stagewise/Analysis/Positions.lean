/-
The position of every node in a topological order of the dependency
graph, counted from one. A graph with a cycle has none and fails.
-/
import Stagewise.Compilation

namespace Stagewise.Analysis

open Step

/-- Number nodes in order, from `position` on. -/
def setPositions (b : Bindings) (position : Nat) : List DependencyId → Bindings
  | [] => b
  | n :: ns => setPositions (b.setPosition n (Int.ofNat position))
      (position + 1) ns

/-- Place all nodes in topological order; the answer is the order. -/
def placeNodes : Step (List DependencyId) := do
  let graph := (← get).graph
  ofExcept graph.checkAcyclic
  let order := graph.topologicalOrder
  modifyBindings (setPositions · 1 order)
  return order

end Stagewise.Analysis
