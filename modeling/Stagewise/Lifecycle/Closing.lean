/-
The lifecycle of all nodes, and the one method that closes everything.

Every node is prepared in turn. The global close method then calls the
`doClose` method of every stage, dependants before what they depend on,
so that no stage needs to close its dependants itself. It belongs to the
first declaration of the root node, which takes on the close interface
that the options name.
-/
import Stagewise.Lifecycle.Members

namespace Stagewise.Lifecycle

open Step

-- ============================================================= all nodes

/-- How many stages there are, how many of their close methods were
generated, and how many nodes close their dependants. -/
structure LifecycleReport where
  stages : Nat
  generatedCloses : Nat
  closeDependants : Nat

/-- Prepare every node. -/
def prepareNodes : Step LifecycleReport := do
  (← get).graph.ids.forM prepare
  let nodes := (← get).graph.nodes
  let stages := nodes.filterMap DependencyNode.stage?
  return {
    stages := stages.length
    generatedCloses := stages.countP Stage.closeIsGenerated
    closeDependants :=
      nodes.countP fun n => n.closeDependants.value?.any Option.isSome }

-- ========================================================== global close

/-- The call that closes the stage at a node, made from the root, if the
stage has its `doClose` method. -/
def globalCloseCall? (c : Compilation) (n : DependencyId) : Option Stmt := do
  let l ← (← (c.graph.get n).stage?).doClose.value?
  let target := c.tree.access c.sources Composition.root (c.compositionOf n)
  return .expr (.call (some target) (c.sources.methodRef l) [])

/-- The body of the global close method. -/
def globalCloseBody (c : Compilation) : Block :=
  c.graph.topologicalOrder.reverse.filterMap (globalCloseCall? c)

/-- Give a declaration an interface that it does not list yet. -/
def addInterface (d : TypeDecl) (i : TypeRef) : TypeDecl :=
  if d.interfaces.contains i then d
  else { d with interfaces := d.interfaces ++ [i] }

/-- Add the global close method; the answer is how many stages it
closes. -/
def addGlobalClose : Step Nat := do
  let c ← get
  match (c.tree.get Composition.root).decls.head? with
  | none => throw (.emptyComposition Composition.root.text)
  | some d =>
      let body := globalCloseBody c
      modifySources (·.modify d fun d =>
        let d := (c.options.closeInterface.map (addInterface d)).getD d
        d.addMethod (procedure "close" .void body))
      return body.length

end Stagewise.Lifecycle
