/-
The edges of the dependency graph, found in the bodies of its nodes. A
body depends on the stage whose field it reads or whose tagged method it
calls, and on the method group it calls directly or through an interface
method bound where the target leads. Only targets that lead through the
composition count: the object at hand, or a chain of reference fields
from there; the fields on the way make the edge's route. What a node
does to itself is no dependency.

A stage whose close method is still to be made counts its sentinel's
initial value as part of its bodies.
-/
import Stagewise.Compilation
import Stagewise.Program.Nodes
import Stagewise.Stage.Discovery

namespace Stagewise.Analysis

open Step

-- ================================================================ routes

mutual

/-- The route of a target that leads through the composition, seen from a
dependency node, with the composition node where it ends. -/
def routeOf? (c : Compilation) (n : DependencyId) :
    Expr → Option (Route × CompositionId)
  | .self _ => some ({}, c.compositionOf n)
  | .field t f => do
      let node ← c.tree.nodeOf? (← c.bindings.referenced? f.identity)
      let (route, _) ← routeOfTarget? c n t
      return (⟨route.steps ++ [⟨f.name, node⟩]⟩, node)
  | _ => none

def routeOfTarget? (c : Compilation) (n : DependencyId) :
    Option Expr → Option (Route × CompositionId)
  | none => some ({}, c.compositionOf n)
  | some t => routeOf? c n t

end

-- ========================================================== dependencies

/-- The node that a call made by `n` reaches, when its target ends at a
composition node. -/
def calledNode? (c : Compilation) (n : DependencyId) (method : MethodRef)
    (target : CompositionId) : Option DependencyId :=
  let id := method.identity
  let group := (c.bindings.groupOf? id).orElse fun _ =>
    c.tree.interfaceMethod? target id
  match group with
  | some d => if d = n then c.bindings.stageOfMethod? id else some d
  | none => c.bindings.stageOfMethod? id

/-- The node that an expression of `n` depends on, itself perhaps, and the
route to it. -/
def reached? (c : Compilation) (n : DependencyId) :
    Expr → Option (Route × DependencyId)
  | .field t f => do
      let (route, _) ← routeOfTarget? c n t
      return (route, ← c.bindings.stageOfField? f.identity)
  | .call t m _ => do
      let (route, node) ← routeOfTarget? c n t
      return (route, ← calledNode? c n m node)
  | _ => none

/-- The initial value of the sentinel, if the stage's close method is to
be made from it. -/
def pendingReset? (c : Compilation) (stage : Stage) : Option Expr :=
  if stage.hasConcreteClose c.sources then none
  else stage.sentinel?.bind fun f => (c.sources.field f.location).init

/-- The expressions of a node's bodies. -/
def bodyExprs (c : Compilation) (n : DependencyId) : List Expr :=
  ((c.bodyLocations n).flatMap fun l =>
    Node.exprs (c.sources.method l).nodes)
  ++ (((c.graph.get n).stage?.bind (pendingReset? c)).map Expr.subterms).getD
    []

-- =============================================================== linking

/-- Record what an expression of `n` depends on. The answer is whether
the dependency is new. -/
def linkExpr (n : DependencyId) (e : Expr) : Step Bool := do
  let c ← get
  match reached? c n e with
  | some (route, d) =>
      if d = n then return false
      else
        let (new, graph) ← ofExcept (c.graph.addDependency n d route)
        modify fun c => { c with graph }
        return new
  | none => return false

/-- Record all dependencies; the answer is their number. -/
def linkNodes : Step Nat := do
  let c ← get
  let accesses := c.graph.ids.flatMap fun n => (bodyExprs c n).map (n, ·)
  return (← accesses.mapM fun (n, e) => linkExpr n e).count true

end Stagewise.Analysis
