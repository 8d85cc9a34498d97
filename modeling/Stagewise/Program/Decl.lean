/-
Declarations: types with their fields, methods, constructors and nested
types.

A field or method takes its identity from the type that first declares it
and keeps it when it is renamed or moved. Its layout key is its place in
the output: fields and methods are ordered by it, and equal keys keep
their order of declaration.
-/
import Stagewise.Position
import Stagewise.Sorting
import Stagewise.Program.Stmt

namespace Stagewise

-- =============================================================== members

/-- A parameter of a method or constructor. -/
structure Param where
  name : String
  type : TypeRef
  deriving DecidableEq, Inhabited, Repr

structure Field where
  id : Identity := .unassigned
  name : String
  type : TypeRef
  modifiers : Modifiers := .empty
  markers : List Marker := []
  /-- The initial value, which doubles as a stage's sentinel. -/
  init : Option Expr := none
  position : Position := .generated
  layout : Int := 0
  deriving Inhabited, Repr

/-- A method. Abstract and interface methods have no body. -/
structure Method where
  id : Identity := .unassigned
  name : String
  params : List Param := []
  returns : TypeRef
  modifiers : Modifiers := .empty
  markers : List Marker := []
  body : Option Block := some []
  position : Position := .generated
  layout : Int := 0
  deriving Inhabited, Repr

structure Constructor where
  params : List Param := []
  modifiers : Modifiers := .publicOnly
  body : Block := []
  /-- Whether the front end supplied it because the type declares none. -/
  isImplicit : Bool := false
  position : Position := .generated
  deriving Inhabited, Repr

namespace Field

/-- The stage that the field is tagged with. -/
def stageTag? (f : Field) : Option String := Marker.stageTag? f.markers

/-- Whether the field is a structural reference. -/
def isReference (f : Field) : Bool := f.markers.contains .reference

/-- The field with its identity in `owner` if it has none. -/
def withIdentity (f : Field) (owner : String) : Field :=
  if f.id.isUnassigned then { f with id := Identity.ofField owner f.name }
  else f

/-- The field as a member of `owner`. -/
def ref (f : Field) (owner : String) : FieldRef := ⟨owner, f.name⟩

end Field

namespace Method

/-- A public method without parameters and with an empty body. -/
def simple (name : String) (returns : TypeRef) : Method :=
  { name, returns, modifiers := .publicOnly }

/-- The stage that the method is tagged with. -/
def stageTag? (m : Method) : Option String := Marker.stageTag? m.markers

/-- Whether the method is declared abstract or has no body. -/
def isAbstract (m : Method) : Bool := m.modifiers.isAbstract || m.body.isNone

def paramTypes (m : Method) : List TypeRef := m.params.map Param.type

/-- The method as a member of `owner`. -/
def ref (m : Method) (owner : String) : MethodRef :=
  ⟨owner, m.name, m.paramTypes⟩

/-- The method's identity as a member of `owner`. -/
def identityIn (m : Method) (owner : String) : Identity :=
  (m.ref owner).identity

/-- The method with its identity in `owner` if it has none. -/
def withIdentity (m : Method) (owner : String) : Method :=
  if m.id.isUnassigned then { m with id := m.identityIn owner } else m

/-- Whether two methods have one name and the same parameter types, so
that one overrides the other. -/
def overrides (m other : Method) : Bool :=
  m.name == other.name && m.paramTypes == other.paramTypes

/-- Whether a reference designates this method, its owner aside. -/
def isTargetOf (m : Method) (r : MethodRef) : Bool :=
  m.name == r.name && m.paramTypes == r.params

/-- The method without its body, declared abstract. -/
def toAbstract (m : Method) : Method :=
  { m with modifiers := { m.modifiers with isAbstract := true }, body := none }

/-- The method with an empty body, no longer declared abstract. -/
def toConcrete (m : Method) : Method :=
  { m with
    modifiers := { m.modifiers with isAbstract := false }
    body := some [] }

/-- The body, an absent one counting as empty. -/
def bodyOrEmpty (m : Method) : Block := m.body.getD []

end Method

namespace Constructor

/-- The constructor of a type that declares none. -/
def implicit : Constructor := { isImplicit := true }

/-- The position of a parameter. -/
def paramIndex? (c : Constructor) (name : String) : Option Nat :=
  c.params.findIdx? (·.name == name)

end Constructor

-- ================================================================= types

inductive TypeKind where
  | classType
  | interfaceType
  deriving DecidableEq, Inhabited, Repr

structure TypeDecl where
  kind : TypeKind := .classType
  name : String
  package : Option String := none
  /-- The names of the formal type parameters. -/
  typeParams : List String := []
  superclass : Option TypeRef := none
  interfaces : List TypeRef := []
  modifiers : Modifiers := .publicOnly
  markers : List Marker := []
  fields : List Field := []
  methods : List Method := []
  constructors : List Constructor := []
  nested : List TypeDecl := []
  position : Position := .generated
  deriving Inhabited, Repr

namespace TypeDecl

/-- A class that takes part in merging. -/
def participating (name : String) : TypeDecl :=
  { name, markers := [.participates] }

/-- Whether the type takes part in merging. -/
def isParticipating (d : TypeDecl) : Bool := d.markers.contains .participates

def isAbstract (d : TypeDecl) : Bool := d.modifiers.isAbstract

/-- The type with its own formal parameters as arguments. -/
def typeRef (d : TypeDecl) : TypeRef :=
  .generic d.name (d.typeParams.map TypeRef.param)

-- ------------------------------------------------------- adding members

def addField (d : TypeDecl) (f : Field) : TypeDecl :=
  { d with fields := d.fields ++ [f.withIdentity d.name] }

def addMethod (d : TypeDecl) (m : Method) : TypeDecl :=
  { d with methods := d.methods ++ [m.withIdentity d.name] }

/-- Give every member its identity in this type if it has none. -/
def assignIdentities (d : TypeDecl) : TypeDecl :=
  { d with
    fields := d.fields.map (·.withIdentity d.name)
    methods := d.methods.map (·.withIdentity d.name) }

-- ------------------------------------------------------- finding members

def field? (d : TypeDecl) (name : String) : Option Field :=
  d.fields.find? (·.name == name)

def fieldIndex? (d : TypeDecl) (name : String) : Option Nat :=
  d.fields.findIdx? (·.name == name)

def fieldIndexById? (d : TypeDecl) (id : Identity) : Option Nat :=
  d.fields.findIdx? (·.id == id)

def methodIndexById? (d : TypeDecl) (id : Identity) : Option Nat :=
  d.methods.findIdx? (·.id == id)

/-- The position of the method that a reference designates, its owner
aside. -/
def methodIndexByRef? (d : TypeDecl) (r : MethodRef) : Option Nat :=
  d.methods.findIdx? (·.isTargetOf r)

def hasMethodNamed (d : TypeDecl) (name : String) : Bool :=
  d.methods.any (·.name == name)

mutual

/-- A nested type, at any depth, the outer before the inner. -/
def findNested? (name : String) : TypeDecl → Option TypeDecl
  | ⟨_, _, _, _, _, _, _, _, _, _, _, nested, _⟩ => findAmong? name nested

/-- `findNested?` among sibling types. -/
def findAmong? (name : String) : List TypeDecl → Option TypeDecl
  | [] => none
  | d :: ds =>
      if d.name == name then some d
      else (findNested? name d).orElse fun _ => findAmong? name ds

end

-- --------------------------------------------------------------- layout

mutual

/-- Order fields and methods by their layout keys, nested types included.
Equal keys keep their order. -/
def sortMembers : TypeDecl → TypeDecl
  | ⟨kind, name, package, typeParams, superclass, interfaces, modifiers,
      markers, fields, methods, constructors, nested, position⟩ =>
      ⟨kind, name, package, typeParams, superclass, interfaces, modifiers,
        markers,
        sortBy Field.layout fields,
        sortBy Method.layout methods,
        constructors, sortAll nested, position⟩

def sortAll : List TypeDecl → List TypeDecl
  | [] => []
  | d :: ds => sortMembers d :: sortAll ds

end

end TypeDecl

end Stagewise
