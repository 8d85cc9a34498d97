/-
Stages and method groups, the two kinds of nodes that depend on each
other.

A stage is a set of mutable fields of one declaration that are
initialized and closed together, with the methods that do so. A method
group is a plain method with every method of its extension chain that
overrides it or is overridden by it.
-/
import Stagewise.Position
import Stagewise.Progress
import Stagewise.Identity

namespace Stagewise

-- ================================================================ stages

/-- A field of a stage. -/
structure StageField where
  location : Location
  id : Identity
  name : String
  /-- An abstract method named like the field, to be implemented as its
  accessor. -/
  declaredAccessor : Option Location
  /-- Whether the accessor is made even if no other node reads the
  field. -/
  forcesAccessor : Bool
  accessor : Progress Location := .notStarted
  deriving Inhabited, Repr

/-- A method tagged with its stage, and its guarded wrapper. -/
structure StageMethod where
  location : Location
  id : Identity
  guarded : Progress Location := .notStarted
  deriving Inhabited, Repr

/-- Which initialized field tells whether a stage is initialized. Only a
stage with a concrete predicate may have several initialized fields, and
then none of them does. -/
inductive InitializedFields where
  | noField
  /-- The field at this place among the stage's fields. -/
  | sentinel (index : Nat)
  | manyWithPredicate
  deriving DecidableEq, Inhabited, Repr

structure Stage where
  name : String
  /-- The leaf of the extension chain that the stage was found in. -/
  decl : DeclId
  fields : List StageField := []
  initialized : InitializedFields := .noField
  /-- The declared predicate, abstract or not. -/
  declaredPredicate : Option Location := none
  initMethods : List Location := []
  /-- The init method without parameters, which guards call to initialize
  the stage when it is first used. -/
  noArgInit : Option Location := none
  /-- The declared close method, abstract or not. -/
  declaredClose : Option Location := none
  methods : List StageMethod := []
  predicate : Progress Location := .notStarted
  close : Progress Location := .notStarted
  /-- Whether the close body was made from the sentinel's initial value. -/
  closeIsGenerated : Bool := false
  doClose : Progress Location := .notStarted
  deriving Inhabited, Repr

namespace Stage

/-- The field whose initial value tells whether the stage is
initialized. -/
def sentinel? (s : Stage) : Option StageField :=
  match s.initialized with
  | .sentinel i => s.fields[i]?
  | _ => none

def fieldIndex? (s : Stage) (id : Identity) : Option Nat :=
  s.fields.findIdx? (·.id == id)

def methodIndex? (s : Stage) (id : Identity) : Option Nat :=
  s.methods.findIdx? (·.id == id)

end Stage

-- ========================================================= method groups

structure MethodGroup where
  /-- The leaf of the extension chain. -/
  decl : DeclId
  /-- The method in each link that declares it, derived first. -/
  methods : List Location := []
  /-- The interface methods of the same signature, with their names. -/
  interfaceMethods : List (Identity × String) := []
  deriving Inhabited, Repr

end Stagewise
