/-
The names by which a stage and its members know each other. For a stage
`Foo` the initialization predicate is `fooInit`, the init methods are
`initFoo` and `initFoo_` followed by anything, the close method is
`closeFoo`, its variant that spares the dependants is `doCloseFoo`, and
the method that closes the dependants is `closeFooDependants`. The guarded
wrapper of a stage method adds `Guarded` to the method's name, and a
method hidden by an override keeps its declaration and its name in
`_Declaration_method`.
-/
import Stagewise.Text.CaseMap

namespace Stagewise.Convention

open Text

-- ==================================================== members of a stage

/-- The initialization predicate of a stage. -/
def predicateName (stage : String) : String := decapitalize stage ++ "Init"

/-- The init method of a stage, before an optional suffix. -/
def initName (stage : String) : String := "init" ++ stage

/-- Whether a method's name makes it an init method of the stage. -/
def isInitName (stage method : String) : Bool :=
  method == initName stage
    || (initName stage ++ "_").toList.isPrefixOf method.toList

def closeName (stage : String) : String := "close" ++ stage

/-- The close variant that spares the dependants. -/
def doCloseName (stage : String) : String := "doClose" ++ stage

/-- The method of a stage or method group that closes its dependants. -/
def closeDependantsName (node : String) : String :=
  "close" ++ node ++ "Dependants"

/-- The local that holds the predicate's value on entry to an init
method. -/
def wasInitName (stage : String) : String := "was" ++ stage ++ "Init"

-- ========================================================= other members

/-- The guarded wrapper of a stage method. -/
def guardedName (method : String) : String := method ++ "Guarded"

/-- A group of overriding methods, by the type that declares it. -/
def methodGroupName (declaration method : String) : String :=
  capitalize declaration ++ capitalize method

/-- A method that an override hides. -/
def overriddenName (declaration method : String) : String :=
  "_" ++ declaration ++ "_" ++ method

end Stagewise.Convention
