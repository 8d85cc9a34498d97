/-
Final fields of the merged type: the order in which they are initialized,
and their getters.

A final field depends on the final fields that its initial value reads:
directly, through the bodies of the methods it calls, or through the
initial values of the fields of the tree type it is declared with. A field
without dependencies keeps its initial value. The others get theirs at the
end of every constructor of their type, each after those it depends on; a
type without a constructor gets a public one for it. Fields on a cycle,
and what the search does not reach, stay as they are.

Every final field without a method of its name then gets a public getter
with the field's layout key.
-/
import Stagewise.Compilation
import Stagewise.DepthFirst
import Stagewise.Program.Nodes

namespace Stagewise.Output

open Step

-- ====================================================== types of the tree

/-- A type of the tree, by the places of the nested types that lead to
it. -/
abbrev TypePath := List Nat

mutual

/-- Every type of a tree with its path, outer before inner. -/
def typesAt (path : TypePath) : TypeDecl → List (TypePath × TypeDecl)
  | ⟨kind, name, package, typeParams, superclass, interfaces, modifiers,
      markers, fields, methods, constructors, nested, position⟩ =>
      (path, ⟨kind, name, package, typeParams, superclass, interfaces,
        modifiers, markers, fields, methods, constructors, nested, position⟩)
        :: typesAtAll path 0 nested

/-- `typesAt` of sibling types, the first of them at place `i`. -/
def typesAtAll (path : TypePath) (i : Nat) :
    List TypeDecl → List (TypePath × TypeDecl)
  | [] => []
  | d :: ds => typesAt (path ++ [i]) d ++ typesAtAll path (i + 1) ds

end

def modifyTypeAt (f : TypeDecl → TypeDecl) : TypePath → TypeDecl → TypeDecl
  | [], d => f d
  | i :: path,
      d => { d with nested := d.nested.modify i (modifyTypeAt f path) }

/-- A final field, by the path of its type and its place there. -/
structure FinalField where
  path : TypePath
  index : Nat
  deriving DecidableEq, Inhabited, Repr

/-- The types of a tree, and look-up among them by name: of two types of
one name, and of two fields of one name in them, the last one counts. -/
structure TypeTable where
  types : List (TypePath × TypeDecl)

namespace TypeTable

def ofType (root : TypeDecl) : TypeTable := ⟨typesAt [] root⟩

/-- The type of a name. -/
def type? (t : TypeTable) (name : String) : Option TypeDecl :=
  (t.types.reverse.find? (·.2.name == name)).map (·.2)

/-- The final fields of a type, each with its declaration. -/
def finalsOf (path : TypePath) (d : TypeDecl) : List (FinalField × Field) :=
  (d.fields.zipIdx.filter (·.1.modifiers.isFinal)).map
    fun (f, i) => (⟨path, i⟩, f)

/-- All final fields with the type and the declaration of each. -/
def finals (t : TypeTable) : List (FinalField × TypeDecl × Field) :=
  t.types.flatMap fun (path, d) =>
    (finalsOf path d).map fun (key, f) => (key, d, f)

/-- The final field that a reference names. -/
def final? (t : TypeTable) (r : FieldRef) : Option FinalField :=
  (t.finals.reverse.find? fun (_, d, f) =>
    d.name == r.owner && f.name == r.name).map (·.1)

-- ========================================================= dependencies

/-- A method of the tree, by its type's name and its place there. -/
abbrev MethodKey := String × Nat

/-- The method of the tree that an expression calls. -/
def called? (t : TypeTable) : Expr → Option MethodKey
  | .call _ m _ => do
      let i ← (← t.type? m.owner).methodIndexByRef? m
      return (m.owner, i)
  | _ => none

/-- The final field that an expression reads. -/
def read? (t : TypeTable) : Expr → Option FinalField
  | .field _ r => t.final? r
  | _ => none

/-- The expressions in the body of a method of the tree. -/
def methodExprs (t : TypeTable) (m : MethodKey) : List Expr :=
  match t.type? m.1 with
  | some d => Node.exprs ((d.methods[m.2]?.map Method.nodes).getD [])
  | none => []

/-- The expressions reached from the methods still to be read, the latest
call first, leaving out the methods read before. `fuel` bounds the number
of calls. -/
def reachedExprs (t : TypeTable) : Nat → List MethodKey → List MethodKey →
    List Expr
  | 0, _, _ => []
  | _ + 1, _, [] => []
  | fuel + 1, known, m :: pending =>
      if known.contains m then t.reachedExprs fuel known pending
      else
        let es := t.methodExprs m
        es ++ t.reachedExprs fuel (m :: known)
          ((es.filterMap t.called?).reverse ++ pending)

/-- A bound on the calls that start from some expressions: those there,
and those in every method of the tree. -/
def callBound (t : TypeTable) (es : List Expr) : Nat :=
  es.length + (t.types.flatMap fun (_, d) => Node.exprs
    (TypeDecl.nodes d)).length
    + 1

/-- The expressions that the initial value of a field evaluates. -/
def initExprs (t : TypeTable) (f : Field) : List Expr :=
  match f.init with
  | none => []
  | some init =>
      let created := match t.type? f.type.name with
        | some d => Node.exprs (d.fields.flatMap Field.nodes)
        | none => []
      let es := init.subterms ++ created
      es ++ t.reachedExprs (t.callBound es) []
        (es.filterMap t.called?).reverse

/-- The final fields that a final field depends on, in the order in which
they are first read. -/
def dependencies (t : TypeTable) (key : FinalField) (f : Field) :
    List FinalField :=
  ((t.initExprs f).filterMap t.read?).foldl
    (fun found d => if d == key || found.contains d then found
      else found ++ [d])
    []

end TypeTable

-- ================================================================= order

/-- A final field with what it depends on. -/
structure FinalDependencies where
  key : FinalField
  dependencies : List FinalField

/-- All final fields with what they depend on. -/
def finalDependencies (root : TypeDecl) : List FinalDependencies :=
  let t := TypeTable.ofType root
  t.finals.map fun (key, _, f) => ⟨key, t.dependencies key f⟩

/-- The fields that depend on a field. -/
def finalDependants (ds : List FinalDependencies) (key : FinalField) :
    List FinalField :=
  (ds.filter (·.dependencies.contains key)).map FinalDependencies.key

/-- The fields without dependencies and those found behind them, each
after what it depends on, with whether it depends on anything. -/
def initOrder (root : TypeDecl) : List (FinalField × Bool) :=
  let ds := finalDependencies root
  let isFree (key : FinalField) : Bool :=
    ds.any fun d => d.key == key && d.dependencies.isEmpty
  let starts := (ds.filter (·.dependencies.isEmpty)).map FinalDependencies.key
  (DepthFirst.order (finalDependants ds) ds.length starts).map
    fun key => (key, !isFree key)

-- ========================================================== constructors

/-- Append a statement to every constructor, making one if there is none.
A constructor that does something is not the implicit one. -/
def appendToConstructors (s : Stmt) : List Constructor → List Constructor
  | [] => [{ body := [s] }]
  | [c] => [{ c with isImplicit := false, body := c.body ++ [s] }]
  | cs => cs.map fun c => { c with body := c.body ++ [s] }

/-- The initial value of a field that can move into the constructors. -/
def movable? (f : Field) : Option Expr :=
  if f.modifiers.isStatic then none else f.init

/-- Move the initial value of a type's field into its constructors. -/
def moveInit (index : Nat) (d : TypeDecl) : TypeDecl :=
  let f := d.fields.getD index default
  match movable? f with
  | none => d
  | some init =>
      { d with
        constructors := appendToConstructors
          (.expr (.assign none (.field none (f.ref d.name)) init))
          d.constructors
        fields := d.fields.modify index fun f => { f with init := none } }

/-- Set the layout key of a type's field. -/
def placeField (index : Nat) (layout : Int) (d : TypeDecl) : TypeDecl :=
  { d with fields := d.fields.modify index fun f => { f with layout } }

/-- The tree while its final fields are put in order: how many have moved,
and the next layout key. -/
structure FinalOrdering where
  root : TypeDecl
  moved : Nat := 0
  next : Int := 0

/-- Put the next field in order. Keys count from zero at every field that
depends on nothing. -/
def orderFinal (o : FinalOrdering) (field : FinalField × Bool) :
    FinalOrdering :=
  let (key, isDependent) := field
  let type := ((typesAt [] o.root).find? (·.1 == key.path)).map (·.2)
  let moves := isDependent
    && (type.bind fun d => movable? (d.fields.getD key.index default)).isSome
  let place := if isDependent then o.next else 0
  let change (d : TypeDecl) :=
    placeField key.index place
      (if isDependent then moveInit key.index d else d)
  { root := modifyTypeAt change key.path o.root
    moved := o.moved + moves.toNat
    next := place + 1 }

/-- Put all final fields of a tree in order. -/
def orderFinals (root : TypeDecl) : FinalOrdering :=
  (initOrder root).foldl orderFinal { root }

-- =============================================================== getters

/-- The getter of a final field. -/
def getter (owner : String) (f : Field) : Method :=
  { Method.simple f.name f.type with
    body := some [.ret (some (.field none (f.ref owner)))]
    layout := f.layout }

/-- The getters that a type lacks. -/
def missingGetters (d : TypeDecl) : List Method :=
  (d.fields.filter fun f =>
    f.modifiers.isFinal && !d.hasMethodNamed f.name).map (getter d.name)

/-- Add the getters that the type itself lacks. -/
def addOwnGetters (d : TypeDecl) : TypeDecl :=
  (missingGetters d).foldl TypeDecl.addMethod d

mutual

/-- Add the getters that a type lacks, nested types included. -/
def addGetters : TypeDecl → TypeDecl
  | ⟨kind, name, package, typeParams, superclass, interfaces, modifiers,
      markers, fields, methods, constructors, nested, position⟩ =>
      addOwnGetters ⟨kind, name, package, typeParams, superclass, interfaces,
        modifiers, markers, fields, methods, constructors,
        addGettersAll nested,
        position⟩

def addGettersAll : List TypeDecl → List TypeDecl
  | [] => []
  | d :: ds => addGetters d :: addGettersAll ds

end

/-- How many initial values moved into constructors, and how many getters
were added. -/
structure FinalsReport where
  moved : Nat
  getters : Nat

/-- Order the final fields of the merged type and add their getters. -/
def completeFinals : Step FinalsReport := do
  let o := orderFinals (← merged)
  setMerged (some (addGetters o.root))
  return ⟨o.moved,
    ((typesAt [] o.root).flatMap fun (_, d) => missingGetters d).length⟩

end Stagewise.Output
