/-
Extension chains folded into their leaves. Each link is merged into the
one that extends it, from the base down.

Fields, nested types, interfaces and markers of the base are taken over.
So are its static methods, and its concrete methods unless the derived
declaration has a method of the same signature. If both are concrete, the
base's is kept as a private method under a name of its own, and calls of
it through `super` go there; an abstract one is dropped.
-/
import Stagewise.Convention
import Stagewise.Merge.Constructors
import Stagewise.Merge.Instantiation
import Stagewise.Sources

namespace Stagewise.Merge

-- =============================================================== methods

/-- Sends calls of an overridden method through `super` to another
method. -/
def redirectSuper (overridden : Method) (target : MethodRef) :
    Transformer Id where
  leaveExpr
    | .call (some .super) m args =>
        if overridden.isTargetOf m then .call none target args
        else .call (some .super) m args
    | e => e

/-- An overridden method as it is kept: private, renamed, and no longer
an override. -/
def keepOverridden (m : Method) (name : String) : Method :=
  { m with
    name
    modifiers := m.modifiers.withVisibility .privateOnly
    markers := Marker.remove .override m.markers }

/-- Remove the override marker of a method. -/
def dropOverride (m : Method) : Method :=
  { m with markers := Marker.remove .override m.markers }

/-- Keep a concrete base method next to the method that overrides it. -/
def mergeOverridden (base : String) (derived : TypeDecl) (m : Method) :
    TypeDecl :=
  let name := Convention.overriddenName base m.name
  let derived :=
    ((redirectSuper m ⟨base, name, m.paramTypes⟩).typeDecl derived).run
  { derived with methods := derived.methods ++ [keepOverridden m name] }

/-- Merge a method of the base into the derived declaration. -/
def mergeMethod (base : String) (derived : TypeDecl) (m : Method) : TypeDecl :=
  if m.modifiers.isStatic then { derived with
    methods := derived.methods ++ [m] }
  else
    match derived.methods.findIdx? (·.overrides m) with
    | none =>
        if m.isAbstract then derived
        else { derived with methods := derived.methods ++ [m] }
    | some i =>
        let overriding := derived.methods.getD i default
        let derived :=
          if m.isAbstract || overriding.isAbstract then derived
          else mergeOverridden base derived m
        if m.markers.contains .override then derived
        else { derived with methods := derived.methods.modify i dropOverride }

-- ================================================================= links

/-- Merge a base into the declaration that extends it. -/
def mergeLink (base derived : TypeDecl) : Except Failure TypeDecl := do
  let (base, derived) := instantiate base derived
  let derived := { derived with
    markers := addNew derived.markers base.markers
    interfaces := addNew derived.interfaces base.interfaces
    nested := derived.nested ++ base.nested
    fields := derived.fields ++ base.fields }
  let derived := base.methods.foldl (mergeMethod base.name) derived
  let constructors ← mergeConstructors base derived
  return { derived with constructors, superclass := base.superclass }

/-- Merge a chain, given from base to derived. -/
def mergeLinks : List TypeDecl → Except Failure TypeDecl
  | [] => .error (.unknownDeclaration "<empty extension chain>")
  | base :: derived => derived.foldlM mergeLink base

/-- Merge an extension chain, given from derived to base. -/
def mergeChain (s : Sources) (chain : List DeclId) : Except Failure TypeDecl :=
  mergeLinks (chain.reverse.map s.get)

end Stagewise.Merge
