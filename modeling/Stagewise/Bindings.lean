/-
What a compilation knows about single members: the stage that owns a
field, the role a method plays for its stage or method group, the
declaration that a reference field leads to, and the topological position
of each node. Members are known by identity, so a binding outlives the
moving and renaming of its member.

The layout key of a bound member is its node's slot plus, for a method,
the category of its role. A slot holds ten categories; members outside
the graph have key zero.

The last section says what each look-up finds after each binding.
-/
import Stagewise.Failure
import Stagewise.Identity

namespace Stagewise

-- ================================================================= roles

/-- The role that a method plays for the node it is bound to. -/
inductive Role where
  /-- A method of a method group. -/
  | grouped
  /-- A method tagged with the stage. -/
  | stageMethod
  | predicate
  | init
  /-- A guarded accessor of a field. -/
  | accessor
  /-- A guarded wrapper of a stage method. -/
  | guarded
  | close
  /-- The close variant that spares the dependants. -/
  | doClose
  /-- The method that closes the dependants. -/
  | closeDependants
  deriving DecidableEq, Inhabited, Repr

/-- The name of a role in a failure. -/
def Role.text : Role → String
  | .grouped => "MethodNode"
  | .stageMethod => "StageMethod"
  | .predicate => "Predicate"
  | .init => "Init"
  | .accessor => "Accessor"
  | .guarded => "Guarded"
  | .close => "Close"
  | .doClose => "DoClose"
  | .closeDependants => "CloseDependants"

/-- Where a method stands among the methods of its node. -/
inductive Category where
  | body
  | predicate
  | init
  | access
  | close
  | closeDependants
  deriving DecidableEq, Inhabited, Repr

def Role.category : Role → Category
  | .grouped | .stageMethod => .body
  | .predicate => .predicate
  | .init => .init
  | .accessor | .guarded => .access
  | .close | .doClose => .close
  | .closeDependants => .closeDependants

/-- The offset of a category in its node's slot. -/
def Category.offset : Category → Nat
  | .body => 0
  | .predicate => 1
  | .init => 2
  | .access => 3
  | .close => 4
  | .closeDependants => 5

-- ============================================================== bindings

structure Bindings where
  fieldStages : List (Identity × DependencyId) := []
  methodRoles : List (Identity × DependencyId × Role) := []
  references : List (Identity × DeclId) := []
  positions : List (DependencyId × Int) := []
  deriving Inhabited

namespace Bindings

/-- The stage that owns a field. -/
def stageOfField? (b : Bindings) (field : Identity) : Option DependencyId :=
  b.fieldStages.lookup field

/-- The node and role that a method is bound to. -/
def roleOf? (b : Bindings) (method : Identity) :
    Option (DependencyId × Role) :=
  b.methodRoles.lookup method

/-- Bind a field to its stage, once. -/
def bindField (b : Bindings) (field : Identity) (stage : DependencyId) :
    Except Failure Bindings :=
  match b.stageOfField? field with
  | some existing =>
      .error (.duplicateBinding ("field " ++ field.text) existing.text)
  | none => .ok { b with fieldStages := (field, stage) :: b.fieldStages }

/-- Bind a method to a node with a role, once. -/
def bindMethod (b : Bindings) (method : Identity) (node : DependencyId)
    (role : Role) : Except Failure Bindings :=
  match b.roleOf? method with
  | some (existing, existingRole) =>
      .error (.duplicateBinding
        ("method " ++ method.text ++ " as " ++ role.text)
        (existing.text ++ " as " ++ existingRole.text))
  | none => .ok { b with methodRoles := (method, node, role) :: b.methodRoles }

/-- The node that a method is bound to with exactly this role. -/
def nodeWithRole? (b : Bindings) (method : Identity) (role : Role) :
    Option DependencyId :=
  match b.roleOf? method with
  | some (node, r) => if r = role then some node else none
  | none => none

/-- The method group of a method. -/
def groupOf? (b : Bindings) (method : Identity) : Option DependencyId :=
  b.nodeWithRole? method .grouped

/-- The stage that owns a tagged method. -/
def stageOfMethod? (b : Bindings) (method : Identity) : Option DependencyId :=
  b.nodeWithRole? method .stageMethod

-- ------------------------------------------------------------ references

/-- Record the declaration that a reference field leads to. -/
def bindReference (b : Bindings) (field : Identity) (decl : DeclId) :
    Bindings :=
  { b with references := (field, decl) :: b.references }

def referenced? (b : Bindings) (field : Identity) : Option DeclId :=
  b.references.lookup field

def isReference (b : Bindings) (field : Identity) : Bool :=
  (b.referenced? field).isSome

-- ---------------------------------------------------------------- layout

/-- Place a node in the topological order. -/
def setPosition (b : Bindings) (node : DependencyId) (position : Int) :
    Bindings :=
  { b with positions := (node, position) :: b.positions }

def position? (b : Bindings) (node : DependencyId) : Option Int :=
  b.positions.lookup node

/-- The first key of a node's slot. -/
def slot? (b : Bindings) (node : DependencyId) : Option Int :=
  (b.position? node).map (· * 10)

/-- The layout key of a field. -/
def fieldLayout (b : Bindings) (field : Identity) : Int :=
  ((b.stageOfField? field).bind b.slot?).getD 0

/-- The layout key of a method. -/
def methodLayout (b : Bindings) (method : Identity) : Int :=
  match b.roleOf? method with
  | some (node, role) =>
      match b.slot? node with
      | some slot => slot + Int.ofNat role.category.offset
      | none => 0
  | none => 0

-- --------------------------------------------------------------- look-up

private theorem lookup_cons_eq_ite {κ α : Type} [DecidableEq κ]
    (k key : κ) (a : α) (l : List (κ × α)) :
    ((key, a) :: l).lookup k = if k = key then some a else l.lookup k := by
  rw [List.lookup_cons]
  by_cases h : k = key
  · rw [if_pos h, beq_iff_eq.2 h]
  · rw [if_neg h, beq_eq_false_iff_ne.2 h]

theorem stageOfField?_of_bindField {b b' : Bindings} {field : Identity}
    {stage : DependencyId} (h : b.bindField field stage = .ok b')
    (other : Identity) :
    b'.stageOfField? other
      = if other = field then some stage else b.stageOfField? other := by
  rw [bindField] at h
  split at h
  · simp at h
  · obtain rfl := Except.ok.inj h
    exact lookup_cons_eq_ite ..

theorem roleOf?_of_bindMethod {b b' : Bindings} {method : Identity}
    {node : DependencyId} {role : Role}
    (h : b.bindMethod method node role = .ok b') (other : Identity) :
    b'.roleOf? other
      = if other = method then some (node, role) else b.roleOf? other := by
  rw [bindMethod] at h
  split at h
  · simp at h
  · obtain rfl := Except.ok.inj h
    exact lookup_cons_eq_ite ..

/-- A method can be bound exactly when it is bound to nothing yet. -/
theorem bindMethod_isOk_iff {b : Bindings} {method : Identity}
    {node : DependencyId} {role : Role} :
    (∃ b', b.bindMethod method node role = .ok b')
    ↔ b.roleOf? method = none := by
  rw [bindMethod]
  split <;> simp_all

theorem nodeWithRole?_eq_some_iff {b : Bindings} {method : Identity}
    {node : DependencyId} {role : Role} :
    b.nodeWithRole? method role = some node
      ↔ b.roleOf? method = some (node, role) := by
  rw [nodeWithRole?]
  split
  · rename_i n r h
    by_cases hr : r = role <;> simp [h, hr]
  · simp_all

theorem referenced?_bindReference (b : Bindings) (field other : Identity)
    (decl : DeclId) :
    (b.bindReference field decl).referenced? other
      = if other = field then some decl else b.referenced? other :=
  lookup_cons_eq_ite ..

theorem position?_setPosition (b : Bindings) (node other : DependencyId)
    (position : Int) :
    (b.setPosition node position).position? other
      = if other = node then some position else b.position? other :=
  lookup_cons_eq_ite ..

end Bindings

end Stagewise
