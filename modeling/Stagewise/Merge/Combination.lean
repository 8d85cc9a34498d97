/-
The declarations of one composition node made into one type. A single
declaration is kept; several become a new public class, named by their
names joined and placed in the package of the first. A child's type is
nested into its parent's, and the field that leads to it becomes a final
one that holds a new object of the nested type.
-/
import Stagewise.Failure
import Stagewise.Merge.Instantiation

namespace Stagewise.Merge

/-- Add what a declaration contributes to a combined type. -/
def absorb (merged d : TypeDecl) : TypeDecl :=
  { merged with
    typeParams := addNew merged.typeParams d.typeParams
    interfaces := addNew merged.interfaces d.interfaces
    nested := merged.nested ++ d.nested
    fields := merged.fields ++ d.fields
    constructors :=
      merged.constructors ++ d.constructors.filter (!·.isImplicit)
    superclass := d.superclass.orElse fun _ => merged.superclass
    methods := merged.methods ++ d.methods }

/-- Several declarations as one new type. -/
def combine (ds : List TypeDecl) : Except Failure TypeDecl :=
  match ds with
  | [] => .error (.emptyComposition "<unnamed>")
  | first :: _ =>
      .ok (ds.foldl absorb
        { name := "_".intercalate (ds.map TypeDecl.name)
          package := first.package
          position := first.position })

/-- The type of a node's declarations. It can be instantiated, and drops
its formal type parameters if `erases` says so. -/
def mergeDeclarations (ds : List TypeDecl) (erases : Bool) :
    Except Failure TypeDecl := do
  let d ← match ds with
    | [d] => pure d
    | ds => combine ds
  return { d with
    typeParams := if erases then [] else d.typeParams
    modifiers := { d.modifiers with isAbstract := false } }

/-- A field that holds a new object of the type. -/
def holdNew (type : TypeRef) (f : Field) : Field :=
  { f with
    init := some (.new type [])
    type
    modifiers := { f.modifiers with isFinal := true } }

/-- Nest a child's type into its parent's. -/
def nestChild (parent child : TypeDecl) (parentAccess : FieldRef) : TypeDecl :=
  let fields :=
    match parent.fieldIndexById? parentAccess.identity with
    | some i => parent.fields.modify i (holdNew (.named child.name))
    | none => parent.fields
  { parent with fields, nested := parent.nested ++ [child] }

end Stagewise.Merge
