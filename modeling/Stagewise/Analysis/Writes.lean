/-
Writes to fields of stages. A field of a stage may be assigned, increased
or decreased only in an init, close or tagged method of its own stage. In
any other method, in a constructor or in the initial value of a field
such a write is illegal.
-/
import Stagewise.Compilation
import Stagewise.Program.Nodes

namespace Stagewise.Analysis

/-- The field that an expression writes to at its top. -/
def writtenField? : Expr → Option FieldRef
  | .assign _ target _ => target.field?
  | .unary op e => if op.isMutation then e.field? else none
  | _ => none

/-- The fields written among a list of nodes. -/
def writtenFields (ns : List Node) : List FieldRef :=
  (Node.exprs ns).filterMap writtenField?

/-- A field written in some member. -/
structure WriteSite where
  field : FieldRef
  /-- The stage that may write its fields in this member. -/
  writer : Option DependencyId
  member : String
  position : Position

/-- The stage that may write its fields in a method. -/
def writerOf? (b : Bindings) (method : Identity) : Option DependencyId :=
  match b.roleOf? method with
  | some (n, .init) | some (n, .close) | some (n, .stageMethod) => some n
  | _ => none

/-- The writes in a declaration's methods, constructors and fields. -/
def writeSites (b : Bindings) (d : TypeDecl) : List WriteSite :=
  (d.methods.flatMap fun m => (writtenFields m.nodes).map
    (⟨·, writerOf? b m.id, d.name ++ "." ++ m.name, m.position⟩))
  ++ (d.constructors.flatMap fun k => (writtenFields k.nodes).map
    (⟨·, none, d.name ++ ".<init>", k.position⟩))
  ++ (d.fields.flatMap fun f => (writtenFields f.nodes).map
    (⟨·, none, d.name ++ "." ++ f.name, f.position⟩))

/-- Whether a write concerns a stage; one to a foreign stage fails. -/
def checkWrite (b : Bindings) (w : WriteSite) : Except Failure Bool :=
  match b.stageOfField? w.field.identity with
  | none => .ok false
  | some stage =>
      if w.writer = some stage then .ok true
      else .error (.illegalMutation w.field.text w.member w.position)

/-- Check all writes in all links; the answer is how many concern a
stage. -/
def checkWrites (c : Compilation) : Except Failure Nat := do
  let links := c.chains.flatMap (·.2)
  let sites := links.flatMap fun d => writeSites c.bindings (c.sources.get d)
  return (← sites.mapM (checkWrite c.bindings)).count true

end Stagewise.Analysis
