/-
The declarations that a compilation may look at: those to merge, their
bases, and the interfaces they implement. A declaration is addressed by
its place in the list and found by its simple name, which no other
declaration of the set has.

Three walks read the hierarchy: the extension chain of a leaf, the
interfaces of a declaration, and the search that decides assignability.
Each stops where it has been before, so that a cyclic hierarchy is read
like any other; the number of declarations bounds its length.

A look-up finds a declaration of the name asked for (`name_of_find?`) and
fails only when there is none (`find?_eq_none_iff`).
-/
import Stagewise.Failure
import Stagewise.Program.Decl

namespace Stagewise

structure Sources where
  decls : List TypeDecl := []
  deriving Inhabited

namespace Sources

-- ============================================================ the list

/-- The declaration of a handle. A handle of this set always has one; any
other reads as an empty declaration. -/
def get (s : Sources) (id : DeclId) : TypeDecl := s.decls.getD id.index default

def name (s : Sources) (id : DeclId) : String := (s.get id).name

/-- Put another declaration in a declaration's place. -/
def set (s : Sources) (id : DeclId) (d : TypeDecl) : Sources :=
  ⟨s.decls.set id.index d⟩

def modify (s : Sources) (id : DeclId) (f : TypeDecl → TypeDecl) : Sources :=
  s.set id (f (s.get id))

def ids (s : Sources) : List DeclId :=
  (List.range s.decls.length).map DeclId.mk

def find? (s : Sources) (name : String) : Option DeclId :=
  (s.decls.findIdx? (·.name == name)).map DeclId.mk

/-- The declaration of a name. -/
def resolve (s : Sources) (name : String) : Except Failure DeclId :=
  match s.find? name with
  | some id => .ok id
  | none => .error (.unknownDeclaration name)

/-- Add a declaration, giving its members their identities. -/
def add (s : Sources) (d : TypeDecl) : Except Failure (DeclId × Sources) :=
  match s.find? d.name with
  | some _ => .error (.duplicateDeclaration d.name)
  | none => .ok (⟨s.decls.length⟩, ⟨s.decls ++ [d.assignIdentities]⟩)

def ofList (ds : List TypeDecl) : Except Failure Sources :=
  ds.foldlM (fun s d => return (← s.add d).2) {}

-- ------------------------------------------------------------- look-up

@[simp] theorem length_set (s : Sources) (id : DeclId) (d : TypeDecl) :
    (s.set id d).decls.length = s.decls.length :=
  List.length_set

theorem get_set_self {s : Sources} {id : DeclId}
    (h : id.index < s.decls.length)
    (d : TypeDecl) : (s.set id d).get id = d := by
  simp [get, set, h]

theorem get_set_of_ne {s : Sources} {id other : DeclId} (h : other ≠ id)
    (d : TypeDecl) : (s.set id d).get other = s.get other := by
  have h : id.index ≠ other.index := fun e => h (congrArg DeclId.mk e).symm
  simp [get, set, h]

/-- A look-up finds a declaration of the name asked for. -/
theorem name_of_find? {s : Sources} {n : String} {id : DeclId}
    (h : s.find? n = some id) : id.index < s.decls.length ∧ s.name id = n := by
  obtain ⟨i, hi, rfl⟩ := Option.map_eq_some_iff.1 h
  obtain ⟨hlt, hp, -⟩ := List.findIdx?_eq_some_iff_getElem.1 hi
  exact ⟨hlt, by simpa [name, get, hlt] using hp⟩

/-- A look-up fails exactly when no declaration has the name. -/
theorem find?_eq_none_iff {s : Sources} {n : String} :
    s.find? n = none ↔ ∀ d ∈ s.decls, d.name ≠ n := by
  simp [find?]

-- =============================================================== members

def field (s : Sources) (l : Location) : Field :=
  (s.get l.decl).fields.getD l.index default

def method (s : Sources) (l : Location) : Method :=
  (s.get l.decl).methods.getD l.index default

/-- The method at a location as a member of its declaration. -/
def methodRef (s : Sources) (l : Location) : MethodRef :=
  (s.method l).ref (s.name l.decl)

def modifyMethod (s : Sources) (l : Location) (f : Method → Method) :
    Sources :=
  s.modify l.decl fun d => { d with methods := d.methods.modify l.index f }

-- ======================================================== the hierarchy

/-- The declaration that a declaration names as its superclass, if the
set has it. -/
def superclass? (s : Sources) (id : DeclId) : Option DeclId :=
  (s.get id).superclass.bind fun t => s.find? t.name

/-- Extend a chain by `id` and what lies above it, `fuel` links at most. -/
def chainFrom (s : Sources) : Nat → List DeclId → Option DeclId → List DeclId
  | 0, chain, _ => chain
  | _ + 1, chain, none => chain
  | fuel + 1, chain, some id =>
      if !(s.get id).isParticipating || chain.contains id then chain
      else s.chainFrom fuel (chain ++ [id]) (s.superclass? id)

/-- The extension chain of a leaf, from derived to base: it follows
superclasses while they take part in merging. -/
def extensionChain (s : Sources) (leaf : DeclId) : List DeclId :=
  s.chainFrom s.decls.length [] (some leaf)

/-- Add to `seen` the interfaces of `id` that are not in it yet, each
followed by its own. `fuel` bounds the depth of inheritance. -/
def interfacesFrom (s : Sources) : Nat → List DeclId → DeclId → List DeclId
  | 0, seen, _ => seen
  | fuel + 1, seen, id =>
      (s.get id).interfaces.foldl (fun seen t =>
        match s.find? t.name with
        | some i =>
            if seen.contains i then seen
            else s.interfacesFrom fuel (seen ++ [i]) i
        | none => seen) seen

/-- The direct and inherited interfaces of a declaration, in order of
discovery. -/
def allInterfaces (s : Sources) (id : DeclId) : List DeclId :=
  s.interfacesFrom (s.decls.length + 1) [] id

/-- Whether `id` or a class above it, or an interface of one of these, is
named `name`. `visited` holds the classes already tried. -/
def reachesName (s : Sources) (name : String) :
    Nat → List DeclId → Option DeclId → Bool
  | 0, _, _ => false
  | _ + 1, _, none => false
  | fuel + 1, visited, some id =>
      if visited.contains id then false
      else s.name id == name
        || (s.allInterfaces id).any (s.name · == name)
        || s.reachesName name fuel (visited ++ [id]) (s.superclass? id)

/-- Whether a value of the declaration can stand where the type is
asked for. -/
def isAssignable (s : Sources) (target : TypeRef) (source : DeclId) : Bool :=
  s.reachesName target.name (s.decls.length + 1) [] (some source)

/-- Whether one type is the other or one of its subtypes, as far as the
set knows. -/
def isSubtype (s : Sources) (sub sup : TypeRef) : Bool :=
  sub == sup || (s.find? sub.name).any (s.isAssignable sup)

end Sources

end Stagewise
