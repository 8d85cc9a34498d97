/-
Cycles and orders of a dependency graph.

A graph is searched depth first along dependants, from the nodes without
dependencies. The search finds a cycle when it meets a node that it is
still inside; a node it never reaches lies on or above a cycle, which a
walk back along first dependencies must close. In a graph without cycles
the nodes in reverse order of completion stand each after all that it
depends on.

The depth of a search is bounded by the number of nodes, since the nodes
it is inside are distinct.
-/
import Stagewise.Dependency.Graph
import Stagewise.DepthFirst

namespace Stagewise.DependencyGraph

/-- The nodes without dependencies. -/
def roots (g : DependencyGraph) : List DependencyId :=
  g.ids.filter fun n => (g.dependencies n).isEmpty

-- ================================================================ cycles

/-- How the search for a cycle stops before it is through. -/
inductive Halt where
  /-- It comes to a node a second time. These are the nodes from there on,
  each followed by one of its dependants. -/
  | cycle (nodes : List DependencyId)
  /-- It goes deeper than it may. -/
  | tooDeep
  deriving Inhabited, Repr

/-- The cycle that was met. -/
def Halt.cycle? : Halt → Option (List DependencyId)
  | .cycle nodes => some nodes
  | .tooDeep => none

/-- How deep a search may go: one step more than there are nodes. -/
def depth (g : DependencyGraph) : Nat := g.nodes.length + 1

/-- Search from a node along dependants. `inside` are the nodes being
searched, outermost first, and `completed` those searched before; the
result adds to the latter. -/
def searchCycle (g : DependencyGraph) : Nat → List DependencyId →
    List DependencyId → DependencyId → Except Halt (List DependencyId)
  | 0, _, _, _ => .error .tooDeep
  | fuel + 1, inside, completed, n =>
      if completed.contains n then .ok completed
      else if inside.contains n then
        .error (.cycle (inside.dropWhile (· != n)))
      else do
        let completed ← (g.dependants n).foldlM
          (g.searchCycle fuel (inside ++ [n])) completed
        return n :: completed

/-- Search from all roots. The result is every node that a root leads
to. -/
def searchRoots (g : DependencyGraph) : Except Halt (List DependencyId) :=
  g.roots.foldlM (g.searchCycle g.depth []) []

/-- Walk back along first dependencies until a node comes again. `path`
holds the nodes walked, first one first; the result is the whole path when
the walk ends at a node without dependencies. -/
def walkBack (g : DependencyGraph) : Nat → List DependencyId → DependencyId →
    Except Halt (List DependencyId)
  | 0, _, _ => .error .tooDeep
  | fuel + 1, path, n =>
      if path.contains n then
        .error (.cycle (path.dropWhile (· != n)).reverse)
      else
        match (g.dependencies n).head? with
        | some d => g.walkBack fuel (path ++ [n]) d
        | none => .ok (path ++ [n])

/-- The nodes of a cycle, each followed by one of its dependants, if there
is a cycle. -/
def cycle? (g : DependencyGraph) : Option (List DependencyId) :=
  match g.searchRoots with
  | .error h => h.cycle?
  | .ok completed =>
      match g.ids.find? fun n => !completed.contains n with
      | none => none
      | some n =>
          match g.walkBack g.depth [] n with
          | .error h => h.cycle?
          | .ok path => some path

/-- Fail if there is a cycle, naming its nodes. -/
def checkAcyclic (g : DependencyGraph) : Except Failure Unit :=
  match g.cycle? with
  | some cycle => .error (.cyclicDependency (cycle.map g.name))
  | none => .ok ()

-- ================================================================ orders

/-- The nodes reached from some nodes, each before those that depend on
it. -/
def orderFrom (g : DependencyGraph) (starts : List DependencyId) :
    List DependencyId :=
  DepthFirst.order g.dependants g.nodes.length starts

/-- All nodes of a graph without cycles, each after its dependencies. -/
def topologicalOrder (g : DependencyGraph) : List DependencyId :=
  g.orderFrom g.roots

/-- The direct dependants of a node, each before those among them that
depend on it. -/
def sortedDependants (g : DependencyGraph) (n : DependencyId) :
    List DependencyId :=
  (g.orderFrom [n]).filter (g.dependants n).contains

end Stagewise.DependencyGraph
