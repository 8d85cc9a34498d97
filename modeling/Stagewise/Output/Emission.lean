/-
The finished type. What the compiler consumes is stripped from the merged
type and its fields and methods, nested types included, and the members
are put in the order of their layout keys. The type leaves the
compilation.
-/
import Stagewise.Compilation

namespace Stagewise.Output

open Step

mutual

/-- A type without the markers that the compiler consumes. -/
def stripMarkers : TypeDecl → TypeDecl
  | ⟨kind, name, package, typeParams, superclass, interfaces, modifiers,
      markers, fields, methods, constructors, nested, position⟩ =>
      ⟨kind, name, package, typeParams, superclass, interfaces, modifiers,
        Marker.strip markers,
        fields.map fun f => { f with markers := Marker.strip f.markers },
        methods.map fun m => { m with markers := Marker.strip m.markers },
        constructors, stripAll nested, position⟩

def stripAll : List TypeDecl → List TypeDecl
  | [] => []
  | d :: ds => stripMarkers d :: stripAll ds

end

/-- Take the finished type out of the compilation. -/
def emit : Step TypeDecl := do
  let d ← merged
  setMerged none
  return (stripMarkers d).sortMembers

end Stagewise.Output
