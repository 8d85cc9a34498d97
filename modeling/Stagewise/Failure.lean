/-
Why a compilation can fail. A constructor is a cause with the names it is
about; `message` is the one place that words it. Every failure ends the
step that met it, and the compilation with it.
-/
import Stagewise.Position

namespace Stagewise

inductive Failure where
  -- ----------------------------------------------------------- structure
  /-- The fields of a stage are declared in two links of a chain. -/
  | spanViolation (stage first second : String)
  /-- A reference field fits no composite declaration, or several. -/
  | ambiguousReference (declaration field : String) (candidates : List String)
  /-- A composition node that no reference field of its parent points at. -/
  | unboundParent (declarations : List String)
  | notParticipating (declaration : String)
  | emptyComposition (node : String)
  | unknownDeclaration (name : String)
  | duplicateDeclaration (name : String)
  /-- A declaration or member is bound a second time. -/
  | duplicateBinding (item existing : String)
  /-- An interface method stands for two method groups in one node. -/
  | interfaceConflict (method existing attempted : String)
  -- ----------------------------------------------------------- lifecycle
  /-- The declared lifecycle of a stage is incomplete or ambiguous. -/
  | lifecycleConflict (stage detail : String)
  /-- A predicate or close method with a wrong signature. -/
  | invalidSignature (method detail : String)
  /-- Two init methods that callers cannot tell apart. -/
  | overloadClash (stage method : String)
  /-- A stage's field is written outside the stage. -/
  | illegalMutation (field location : String) (position : Position)
  -- --------------------------------------------------------------- graph
  /-- One dependency is reached along two routes. -/
  | inconsistentAccessPath (dependant dependency first second : String)
  | cyclicDependency (cycle : List String)
  -- ----------------------------------------------------------- synthesis
  /-- An argument of a base constructor call is no plain parameter. -/
  | illegalSuperCall (declaration : String)
  /-- A member is requested while it is being made. -/
  | reentrantSynthesis (node artifact : String)
  /-- An accessor is requested from a stage that does not own the member. -/
  | foreignMember (member stage : String)
  deriving DecidableEq, Inhabited, Repr

namespace Failure

/-- Names in brackets, separated by commas. -/
def bracketed (names : List String) : String :=
  "[" ++ ", ".intercalate names ++ "]"

/-- The wording of a failure. -/
def message : Failure → String
  | .spanViolation stage first second =>
      stage ++ " fields cannot span several declarations: found in " ++ first
        ++ " and " ++ second
  | .ambiguousReference declaration field candidates =>
      "reference field " ++ declaration ++ "." ++ field
        ++ " must match exactly one composite declaration, candidates: "
        ++ bracketed candidates
  | .unboundParent declarations =>
      "parent composition node is not referenced: " ++ bracketed declarations
  | .notParticipating declaration =>
      "all compiled declarations should be marked as participating: "
        ++ declaration
  | .emptyComposition node =>
      "composition node " ++ node ++ " has no declarations"
  | .unknownDeclaration name => "unknown declaration: " ++ name
  | .duplicateDeclaration name => "duplicate declaration: " ++ name
  | .duplicateBinding item existing =>
      item ++ " is already bound to " ++ existing
  | .interfaceConflict method existing attempted =>
      "interface method " ++ method ++ " is already bound to " ++ existing
        ++ "; attempt to bind to " ++ attempted
  | .lifecycleConflict stage detail => "stage " ++ stage ++ ": " ++ detail
  | .invalidSignature method detail => method ++ "() " ++ detail
  | .overloadClash stage method =>
      method ++ "() methods clash in stage " ++ stage
  | .illegalMutation field location position =>
      field
        ++ " shouldn't be assigned outside its stage's init() or close(): "
        ++ "assigned in " ++ location ++ " at " ++ position.text
  | .inconsistentAccessPath dependant dependency first second =>
      dependant ++ " reaches " ++ dependency ++ " through " ++ first
        ++ " and through " ++ second
  | .cyclicDependency cycle =>
      "stage dependency cycle: " ++ " -> ".intercalate cycle
  | .illegalSuperCall declaration =>
      "super() should be directly called with constructor parameters in "
        ++ declaration
  | .reentrantSynthesis node artifact =>
      "reentrant synthesis of " ++ artifact ++ " for " ++ node
  | .foreignMember member stage => member ++ " doesn't belong to " ++ stage

end Failure

end Stagewise
