/-
The composition tree: one node for each merged type, nested like the
types. A node holds the leaf declarations to merge into it; each brings
its whole extension chain, and no chain shares a link with another.

A child is reached from its parent through a reference field of the
parent, its parent access. The parent accesses from the root down to a
node are the node's path, and an access from one node to another follows
the part of the target's path below the nearest node that encloses both.
-/
import Stagewise.Sources

namespace Stagewise

-- ================================================================= nodes

structure CompositionNode where
  parent : Option CompositionId := none
  /-- The leaf declarations in order of addition. -/
  decls : List DeclId := []
  /-- Whether the merged type drops its formal type parameters. -/
  erasesTypeParams : Bool := false
  /-- The field of the parent that leads here. -/
  parentAccess : Option FieldRef := none
  /-- The parent accesses from the root down to here. -/
  path : List FieldRef := []
  /-- The method group, with its name, that each interface method stands
  for at this node. -/
  interfaceMethods : List (Identity × DependencyId × String) := []
  /-- The merged type, once there is one. -/
  merged : Option TypeDecl := none
  deriving Inhabited

structure Composition where
  nodes : List CompositionNode := [{}]
  /-- The node of each leaf, in order of addition. -/
  leafNodes : List (DeclId × CompositionId) := []
  /-- The node of each link of an added chain. -/
  linkNodes : List (DeclId × CompositionId) := []
  deriving Inhabited

namespace Composition

def root : CompositionId := ⟨0⟩

/-- The node of a handle. A handle of this tree always has one; any other
reads as an empty node. -/
def get (t : Composition) (n : CompositionId) : CompositionNode :=
  t.nodes.getD n.index default

def modify (t : Composition) (n : CompositionId)
    (f : CompositionNode → CompositionNode) : Composition :=
  { t with nodes := t.nodes.modify n.index f }

theorem get_modify_self {t : Composition} {n : CompositionId}
    (h : n.index < t.nodes.length) (f : CompositionNode → CompositionNode) :
    (t.modify n f).get n = f (t.get n) := by
  simp [get, modify, h]

theorem get_modify_of_ne {t : Composition} {n other : CompositionId}
    (h : other ≠ n) (f : CompositionNode → CompositionNode) :
    (t.modify n f).get other = t.get other := by
  have h : n.index ≠ other.index :=
    fun e => h (congrArg CompositionId.mk e).symm
  simp [get, modify, h]

def ids (t : Composition) : List CompositionId :=
  (List.range t.nodes.length).map CompositionId.mk

/-- The children of a node in order of creation. -/
def children (t : Composition) (n : CompositionId) : List CompositionId :=
  t.ids.filter fun c => (t.get c).parent == some n

def leaves (t : Composition) : List DeclId := t.leafNodes.map (·.1)

/-- The node that a leaf was added to. -/
def nodeOfLeaf? (t : Composition) (d : DeclId) : Option CompositionId :=
  t.leafNodes.lookup d

/-- The node that a link of an added chain belongs to. -/
def nodeOf? (t : Composition) (d : DeclId) : Option CompositionId :=
  t.linkNodes.lookup d

-- ============================================================== building

/-- Create a child of a node. -/
def createChild (t : Composition) (parent : CompositionId) :
    CompositionId × Composition :=
  (⟨t.nodes.length⟩,
    { t with nodes := t.nodes ++ [{ parent := some parent }] })

/-- Let the merged type of a node drop its formal type parameters. -/
def eraseTypeParams (t : Composition) (n : CompositionId) : Composition :=
  t.modify n fun d => { d with erasesTypeParams := true }

/-- The first link of a chain that is bound already, with its node. -/
def boundLink? (t : Composition) (chain : List DeclId) :
    Option (DeclId × CompositionId) :=
  chain.findSome? fun link => (t.nodeOf? link).map (link, ·)

/-- Add a leaf to a node, which binds its whole chain. -/
def addDeclaration (t : Composition) (s : Sources) (n : CompositionId)
    (d : DeclId) : Except Failure Composition :=
  if !(s.get d).isParticipating then .error (.notParticipating (s.name d))
  else
    match t.nodeOfLeaf? d with
    | some existing => .error (.duplicateBinding (s.name d) existing.text)
    | none =>
        let chain := s.extensionChain d
        match t.boundLink? chain with
        | some (link, existing) =>
            .error (.duplicateBinding (s.name link) existing.text)
        | none =>
            .ok { t.modify n fun x => { x with decls := x.decls ++ [d] } with
              leafNodes := t.leafNodes ++ [(d, n)]
              linkNodes := t.linkNodes ++ chain.map (·, n) }

/-- Offer a field as the parent access of a child. The first offer
stands; the answer is whether this was it. -/
def offerParentAccess (t : Composition) (child : CompositionId)
    (f : FieldRef) :
    Bool × Composition :=
  match (t.get child).parentAccess with
  | some _ => (false, t)
  | none => (true, t.modify child fun d => { d with parentAccess := some f })

/-- Let an interface method stand for a method group at a node. -/
def bindInterfaceMethod (t : Composition) (n : CompositionId)
    (method : Identity) (methodName : String) (group : DependencyId)
    (groupName : String) : Except Failure Composition :=
  match (t.get n).interfaceMethods.lookup method with
  | some (existing, existingName) =>
      if existing = group then .ok t
      else .error (.interfaceConflict methodName existingName groupName)
  | none =>
      .ok (t.modify n fun d =>
        { d with
          interfaceMethods :=
            (method, group, groupName) :: d.interfaceMethods })

/-- The method group that an interface method stands for at a node. -/
def interfaceMethod? (t : Composition) (n : CompositionId)
    (method : Identity) :
    Option DependencyId :=
  ((t.get n).interfaceMethods.lookup method).map (·.1)

-- ================================================================= paths

/-- The declarations of a node by name. -/
def declNames (t : Composition) (s : Sources) (n : CompositionId) :
    List String :=
  (t.get n).decls.map s.name

/-- The children of a node with their paths, given the node's own; the
last child without a parent access fails. -/
def childPaths (t : Composition) (s : Sources) (path : List FieldRef) :
    List CompositionId → Except Failure (List (CompositionId × List FieldRef))
  | [] => .ok []
  | c :: cs => do
      let rest ← t.childPaths s path cs
      match (t.get c).parentAccess with
      | some f => return (c, path ++ [f]) :: rest
      | none => throw (.unboundParent (t.declNames s c))

/-- Give paths to the nodes waiting on a stack and to all below them,
parents before children. A failure ends the walk and keeps the paths given
so far. -/
def givePaths (s : Sources) : Nat → List (CompositionId × List FieldRef) →
    Composition → Except Failure Unit × Composition
  | 0, _, t => (.ok (), t)
  | _ + 1, [], t => (.ok (), t)
  | fuel + 1, (n, path) :: stack, t =>
      let t := t.modify n fun d => { d with path }
      match t.childPaths s path (t.children n) with
      | .error e => (.error e, t)
      | .ok below => givePaths s fuel (below ++ stack) t

/-- Give every node its path. -/
def computePaths (t : Composition) (s : Sources) :
    Except Failure Unit × Composition :=
  givePaths s (t.nodes.length + 1) [(root, [])] t

/-- A node and the nodes around it, innermost first, `fuel` at most. -/
def lineageFrom (t : Composition) : Nat → CompositionId → List CompositionId
  | 0, n => [n]
  | fuel + 1, n =>
      match (t.get n).parent with
      | some p => n :: t.lineageFrom fuel p
      | none => [n]

/-- A node and the nodes around it, innermost first. -/
def lineage (t : Composition) (n : CompositionId) : List CompositionId :=
  t.lineageFrom t.nodes.length n

/-- The fields that lead from one node to another, below the longest
common part of their paths. -/
def accessPath (t : Composition) (source target : CompositionId) :
    List FieldRef :=
  let common := ((t.get source).path.zip (t.get target).path).takeWhile
    fun (a, b) => a == b
  (t.get target).path.drop common.length

/-- The innermost node around `source` whose path begins the target's. -/
def nearestEnclosing (t : Composition) (source target : CompositionId) :
    CompositionId :=
  ((t.lineage source).find? fun n =>
    (t.get n).path.isPrefixOf (t.get target).path).getD root

/-- The expression that reaches the target from code inside `source`: the
enclosing object of the nearest node around both, then field by field. -/
def access (t : Composition) (s : Sources) (source target : CompositionId) :
    Expr :=
  let enclosing := t.nearestEnclosing source target
  let start := (t.get enclosing).path.length
  ((t.get target).path.drop start).foldl (fun e f => .field (some e) f)
    (.self (t.declNames s enclosing).head?)

/-- The name of a node's merged type: its own once it is there, else the
names of the node's declarations joined. -/
def mergedName (t : Composition) (s : Sources) (n : CompositionId) : String :=
  match (t.get n).merged with
  | some d => d.name
  | none => "_".intercalate (t.declNames s n)

end Composition

end Stagewise
