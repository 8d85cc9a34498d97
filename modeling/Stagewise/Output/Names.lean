/-
Names in the merged type. Every declaration of a composition node is part
of that node's merged type, so a type reference, member owner or qualified
self reference that names the declaration comes to name the merged type. A
reference to it with type arguments then has the merged type's own formal
parameters as arguments, or none if the node drops them.
-/
import Stagewise.Compilation
import Stagewise.Program.Transform

namespace Stagewise.Output

open Step

/-- What replaces the name of a declaration. -/
structure MergedName where
  name : String
  erases : Bool
  typeParams : List String

/-- The merged type of a node inside the type of the root. -/
def mergedTypeOf? (c : Compilation) (root : TypeDecl) (n : CompositionId) :
    Option TypeDecl :=
  if n = Composition.root then some root
  else TypeDecl.findNested? (c.tree.mergedName c.sources n) root

/-- What replaces the name of a declaration, if it is part of a merged
type. -/
def mergedNameOf? (c : Compilation) (root : TypeDecl) (decl : DeclId) :
    Option MergedName := do
  let n ← c.tree.nodeOf? decl
  let d ← mergedTypeOf? c root n
  return ⟨d.name, (c.tree.get n).erasesTypeParams, d.typeParams⟩

/-- What replaces each declaration's name. -/
def mergedNames (c : Compilation) (root : TypeDecl) :
    List (String × MergedName) :=
  c.sources.ids.filterMap fun d =>
    (mergedNameOf? c root d).map (c.sources.name d, ·)

/-- How many type references and owners were renamed. -/
structure NameReport where
  types : Nat := 0
  owners : Nat := 0

/-- The merged type in place of a declaration, with type arguments as
they are wanted there. -/
def MergedName.typeRef (m : MergedName) (t : TypeRef) : TypeRef :=
  { t with
    name := m.name
    args :=
      if m.erases then []
      else if t.args.isEmpty then []
      else m.typeParams.map TypeRef.param }

/-- The owner in place of another, counted if it differs. -/
def renameOwner (names : List (String × MergedName)) (owner : String) :
    StateM NameReport String := do
  match names.lookup owner with
  | some m =>
      if owner != m.name then modify fun r => { r with owners := r.owners + 1 }
      return m.name
  | none => return owner

/-- Renames type references and owners. -/
def rename (names : List (String × MergedName)) :
    Transformer (StateM NameReport) where
  enterType t := do
    if t.isParam then return some t
    match names.lookup t.name with
    | some m =>
        modify fun r => { r with types := r.types + 1 }
        return some (m.typeRef t)
    | none => return none
  leaveExpr
    | .field t f => return .field t { f with
        owner := ← renameOwner names f.owner }
    | .call t m args =>
        return .call t { m with owner := ← renameOwner names m.owner } args
    | .self (some q) => return .self (some (← renameOwner names q))
    | e => return e

/-- Rename throughout the merged type. -/
def renameMerged : Step NameReport := do
  let d ← merged
  let (d, report) := ((rename (mergedNames (← get) d)).typeDecl d).run {}
  setMerged (some d)
  return report

end Stagewise.Output
