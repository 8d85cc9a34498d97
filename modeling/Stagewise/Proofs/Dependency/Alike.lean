/-
Graphs that answer queries alike.

No query shows where in the store an edge is: dependencies and dependants
are listed in the order of the nodes, and everything else is read off
these lists. So whatever tells neighbours is told by how many nodes there
are and which pairs are recorded (`SameLinks`), the orders and the search
for cycles included. The check for cycles also tells names, so it needs the
nodes themselves (`Alike`).
-/
import Stagewise.Proofs.Dependency.Relation

namespace Stagewise.DependencyGraph

variable {g g' : DependencyGraph}

-- ============================================================== same links

/-- That two graphs have as many nodes, and the same dependencies between
them. The routes may differ, and so may the order in which the edges are
stored. -/
structure SameLinks (g g' : DependencyGraph) : Prop where
  length : g'.nodes.length = g.nodes.length
  dependsOn : g'.dependsOn = g.dependsOn

namespace SameLinks

theorem ids (h : SameLinks g g') : g'.ids = g.ids := by
  unfold DependencyGraph.ids
  rw [h.length]

theorem dependencies (h : SameLinks g g') :
    g'.dependencies = g.dependencies := by
  funext n
  unfold DependencyGraph.dependencies
  rw [h.ids, h.dependsOn]

theorem dependants (h : SameLinks g g') : g'.dependants = g.dependants := by
  funext n
  unfold DependencyGraph.dependants
  rw [h.ids, h.dependsOn]

theorem roots (h : SameLinks g g') : g'.roots = g.roots := by
  unfold DependencyGraph.roots
  rw [h.ids, h.dependencies]

theorem depends (h : SameLinks g g') : g'.Depends = g.Depends := by
  funext a b
  unfold DependencyGraph.Depends
  rw [h.ids, h.dependencies]

theorem acyclic (h : SameLinks g g') (hg : g.Acyclic) : g'.Acyclic := by
  unfold Acyclic
  rw [h.depends]
  exact hg

theorem orderFrom (h : SameLinks g g') : g'.orderFrom = g.orderFrom := by
  funext starts
  unfold DependencyGraph.orderFrom
  rw [h.dependants, h.length]

theorem topologicalOrder (h : SameLinks g g') :
    g'.topologicalOrder = g.topologicalOrder := by
  unfold DependencyGraph.topologicalOrder
  rw [h.orderFrom, h.roots]

theorem sortedDependants (h : SameLinks g g') :
    g'.sortedDependants = g.sortedDependants := by
  funext n
  unfold DependencyGraph.sortedDependants
  rw [h.orderFrom, h.dependants]

theorem searchCycle (h : SameLinks g g') (fuel : Nat) :
    g'.searchCycle fuel = g.searchCycle fuel := by
  induction fuel with
  | zero => rfl
  | succ fuel ih =>
      funext inside completed n
      unfold DependencyGraph.searchCycle
      rw [h.dependants, ih]

theorem searchRoots (h : SameLinks g g') : g'.searchRoots = g.searchRoots := by
  unfold DependencyGraph.searchRoots depth
  rw [h.roots, h.length, h.searchCycle]

theorem walkBack (h : SameLinks g g') (fuel : Nat) :
    g'.walkBack fuel = g.walkBack fuel := by
  induction fuel with
  | zero => rfl
  | succ fuel ih =>
      funext path n
      unfold DependencyGraph.walkBack
      rw [h.dependencies, ih]

theorem cycle? (h : SameLinks g g') : g'.cycle? = g.cycle? := by
  unfold DependencyGraph.cycle? depth
  rw [h.searchRoots, h.ids, h.length, h.walkBack]

end SameLinks

-- ============================================================ alike graphs

/-- That two graphs have the same nodes, and the same dependencies between
them. -/
structure Alike (g g' : DependencyGraph) : Prop where
  nodes : g'.nodes = g.nodes
  dependsOn : g'.dependsOn = g.dependsOn

namespace Alike

theorem links (h : Alike g g') : SameLinks g g' :=
  ⟨congrArg List.length h.nodes, h.dependsOn⟩

theorem name (h : Alike g g') : g'.name = g.name := by
  funext n
  unfold DependencyGraph.name get
  rw [h.nodes]

theorem checkAcyclic (h : Alike g g') : g'.checkAcyclic = g.checkAcyclic := by
  unfold DependencyGraph.checkAcyclic
  rw [h.links.cycle?, h.name]

end Alike

end Stagewise.DependencyGraph
