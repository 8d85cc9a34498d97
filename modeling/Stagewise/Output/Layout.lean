/-
Layout keys of the members of the merged type, read off their bindings:
what belongs to a node goes to the node's slot, and what belongs to none
gets key zero and so comes first.
-/
import Stagewise.Compilation

namespace Stagewise.Output

open Step

mutual

/-- Give every field and method its key, nested types included. -/
def placeMembers (b : Bindings) : TypeDecl → TypeDecl
  | ⟨kind, name, package, typeParams, superclass, interfaces, modifiers,
      markers, fields, methods, constructors, nested, position⟩ =>
      ⟨kind, name, package, typeParams, superclass, interfaces, modifiers,
        markers,
        fields.map fun f => { f with layout := b.fieldLayout f.id },
        methods.map fun m => { m with layout := b.methodLayout m.id },
        constructors, placeAll b nested, position⟩

def placeAll (b : Bindings) : List TypeDecl → List TypeDecl
  | [] => []
  | d :: ds => placeMembers b d :: placeAll b ds

end

mutual

/-- How many members of a type have a key other than zero. -/
def placedMembers : TypeDecl → Nat
  | ⟨_, _, _, _, _, _, _, _, fields, methods, _, nested, _⟩ =>
      fields.countP (·.layout != 0) + methods.countP (·.layout != 0)
        + placedInAll nested

def placedInAll : List TypeDecl → Nat
  | [] => 0
  | d :: ds => placedMembers d + placedInAll ds

end

/-- Place all members of the merged type; the answer is how many got a
key other than zero. -/
def placeMerged : Step Nat := do
  let d := placeMembers (← get).bindings (← merged)
  setMerged (some d)
  return placedMembers d

end Stagewise.Output
