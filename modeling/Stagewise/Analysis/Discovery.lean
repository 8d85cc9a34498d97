/-
The nodes of the dependency graph. A first sweep over all chains makes a
stage from each field that is part of one and not bound yet; a second
makes a group from each concrete method of an object that is bound to no
node yet. A new node binds its members at once, so that no later member
starts it again.
-/
import Stagewise.Compilation
import Stagewise.Stage.Discovery

namespace Stagewise.Analysis

open Step

-- =============================================================== binding

def bindField (n : DependencyId) (field : Identity) : Step Unit := do
  let bindings ← ofExcept ((← get).bindings.bindField field n)
  modifyBindings fun _ => bindings

/-- The methods of a stage with the roles they play. -/
def stageRoles (s : Sources) (stage : Stage) : List (Identity × Role) :=
  let withRole (role : Role) (l : Location) := ((s.method l).id, role)
  stage.declaredPredicate.toList.map (withRole .predicate)
    ++ stage.initMethods.map (withRole .init)
    ++ stage.declaredClose.toList.map (withRole .close)
    ++ stage.methods.map fun m => (m.id, .stageMethod)

/-- Add a stage to the graph and bind its members. -/
def addStage (stage : Stage) : Step Unit := do
  let (n, graph) := (← get).graph.addNode (.ofStage stage)
  modify fun c => { c with graph }
  stage.fields.forM fun f => bindField n f.id
  (stageRoles (← get).sources stage).forM fun (m, role) => bindMethod m n role

/-- Let an interface method stand for a group at a composition node. -/
def bindInterfaceMethod (place : CompositionId) (n : DependencyId)
    (name : String) (method : Identity × String) : Step Unit := do
  let tree ← ofExcept
    ((← get).tree.bindInterfaceMethod place method.1 method.2 n name)
  modifyTree fun _ => tree

/-- Add a method group to the graph and bind its members. -/
def addGroup (name : String) (group : MethodGroup) : Step Unit := do
  let (n, graph) := (← get).graph.addNode (.ofGroup name group)
  modify fun c => { c with graph }
  let c ← get
  group.methods.forM fun l => bindMethod (c.sources.method l).id n .grouped
  group.interfaceMethods.forM
    (bindInterfaceMethod (c.compositionOf n) n name)

-- ================================================================ sweeps

/-- Whether a field starts a new stage. -/
def startsStage (c : Compilation) (f : Field) : Bool :=
  f.isStageField && (c.bindings.stageOfField? f.id).isNone

/-- Whether a method starts a new group. -/
def startsGroup (c : Compilation) (m : Method) : Bool :=
  !m.modifiers.isStatic && !m.isAbstract && (c.bindings.roleOf? m.id).isNone

/-- Make the stage of a field of a leaf's chain, if the field starts
one. -/
def discoverStage (leaf : DeclId) (l : Location) : Step Bool := do
  let c ← get
  if startsStage c (c.sources.field l) then
    addStage (← ofExcept (Stage.discover c.sources leaf l))
    return true
  else return false

/-- Make the group of a method of a leaf's chain, if the method starts
one. -/
def discoverGroup (leaf : DeclId) (l : Location) : Step Bool := do
  let c ← get
  let m := c.sources.method l
  if startsGroup c m then
    addGroup (Convention.methodGroupName (c.sources.name leaf) m.name)
      (MethodGroup.discover c.sources leaf m)
    return true
  else return false

/-- Members of all links, each with the leaf of its chain. -/
def membersOfChains (c : Compilation)
    (members : Sources → DeclId → List Location) : List (DeclId × Location) :=
  c.chains.flatMap fun (leaf, chain) =>
    (chain.flatMap (members c.sources)).map (leaf, ·)

/-- How many stages and method groups were found. -/
structure NodeReport where
  stages : Nat
  groups : Nat

/-- Find all nodes of the dependency graph. -/
def discoverNodes : Step NodeReport := do
  let c ← get
  let stages ← (membersOfChains c Stage.fieldLocations).mapM
    fun (leaf, l) => discoverStage leaf l
  let groups ← (membersOfChains c Stage.methodLocations).mapM
    fun (leaf, l) => discoverGroup leaf l
  return ⟨stages.count true, groups.count true⟩

end Stagewise.Analysis
