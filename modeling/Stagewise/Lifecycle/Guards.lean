/-
Guards between nodes. In the bodies of every node, a read of a field that
another stage owns becomes a call of the field's accessor on the same
target, and a call of a method tagged with another stage goes to the
method's guarded wrapper, with the same target and arguments. What a
stage does with its own members stays as it is. The parts of an expression
are guarded before the expression.

Every stage first gets its close method, so that a generated close body
is guarded like any other. A body is detached from its method while it is
guarded.
-/
import Stagewise.Lifecycle.Members
import Stagewise.Program.Transform

namespace Stagewise.Lifecycle

open Step

/-- How many reads and calls were guarded. -/
structure GuardReport where
  reads : Nat := 0
  calls : Nat := 0

/-- A step that counts what it guards. -/
abbrev Guarding := StateT GuardReport Step

/-- The foreign stage that owns what an expression of `n` reads or
calls. -/
def foreignOwner? (b : Bindings) (n : DependencyId) (e : Expr) :
    Option DependencyId :=
  let owner := match e with
    | .field _ f => b.stageOfField? f.identity
    | .call _ m _ => b.stageOfMethod? m.identity
    | _ => none
  owner.filter (· != n)

/-- Guard an expression whose parts are guarded. -/
def guardExpr (n : DependencyId) (e : Expr) : Guarding Expr := do
  match foreignOwner? (← getThe Compilation).bindings n e with
  | none => return e
  | some stage =>
      match e with
      | .field t f =>
          let m ← accessor stage f.identity
          modify fun r => { r with reads := r.reads + 1 }
          return .call t m []
      | .call t m args =>
          let m ← guarded stage m.identity
          modify fun r => { r with calls := r.calls + 1 }
          return .call t m args
      | e => return e

/-- Guards every expression of `n`, parts first. -/
def guard (n : DependencyId) : Transformer Guarding :=
  { leaveExpr := guardExpr n }

/-- Put a body into a method, or take it away. -/
def setBody (l : Location) (body : Option Block) : Step Unit :=
  modifySources (·.modifyMethod l fun m => { m with body })

/-- Guard the body of a method of `n`. -/
def guardBody (n : DependencyId) (l : Location) : Guarding Unit := do
  match ((← getThe Compilation).sources.method l).body with
  | none => pure ()
  | some body =>
      setBody l none
      let body ← (guard n).block body
      setBody l (some body)

def guardNode (n : DependencyId) : Guarding Unit := do
  ((← getThe Compilation).bodyLocations n).forM (guardBody n)

/-- Give every stage its close method. -/
def closeStages : Step Unit := do
  (← get).graph.stages.forM fun n => do
    let _ ← close n

def guardNodes : Step GuardReport := do
  closeStages
  let (_, report) ← ((← get).graph.ids.forM guardNode : Guarding Unit).run {}
  return report

end Stagewise.Lifecycle
