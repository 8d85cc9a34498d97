/-
The state of one compilation: its sources, composition tree, bindings and
dependency graph, and the options for the outermost merged type. Every
step of a compilation reads and changes this state and may fail; what it
changed before failing stays changed.
-/
import Stagewise.Bindings
import Stagewise.Composition
import Stagewise.Dependency.Order

namespace Stagewise

-- =============================================================== options

/-- What a caller may ask of the outermost merged type. -/
structure Options where
  /-- Its name, instead of the joined names of its declarations. -/
  name : Option String := none
  /-- Its package, instead of that of its first declaration. -/
  package : Option String := none
  /-- The interface that its close method belongs to. -/
  closeInterface : Option TypeRef := some (.named "AutoCloseable")
  deriving Inhabited, Repr

-- ============================================================== the state

structure Compilation where
  sources : Sources
  tree : Composition
  options : Options := {}
  bindings : Bindings := {}
  graph : DependencyGraph := {}
  deriving Inhabited

/-- A step of a compilation. -/
abbrev Step := ExceptT Failure (StateM Compilation)

namespace Step

def runOn {α : Type} (step : Step α) (c : Compilation) :
    Except Failure α × Compilation :=
  StateT.run (ExceptT.run step) c

end Step

namespace Compilation

-- =============================================================== reading

/-- Every leaf with its extension chain, from derived to base. -/
def chains (c : Compilation) : List (DeclId × List DeclId) :=
  c.tree.leaves.map fun leaf => (leaf, c.sources.extensionChain leaf)

/-- The composition node that a dependency node was found in. -/
def compositionOf (c : Compilation) (n : DependencyId) : CompositionId :=
  (c.tree.nodeOf? (c.graph.get n).decl).getD Composition.root

/-- The stage at a node, which must be one. -/
def stage (c : Compilation) (n : DependencyId) : Except Failure Stage :=
  match (c.graph.get n).stage? with
  | some s => .ok s
  | none => .error (.foreignMember (c.graph.name n) "stage")

/-- The methods whose bodies belong to a node: the init, tagged and close
methods of a stage, or the methods of a group. A close method counts once
it is concrete. -/
def bodyLocations (c : Compilation) (n : DependencyId) : List Location :=
  match (c.graph.get n).kind with
  | .group g => g.methods
  | .stage s =>
      let close := s.close.value?.orElse fun _ =>
        s.declaredClose.filter fun l => !(c.sources.method l).isAbstract
      s.initMethods ++ s.methods.map StageMethod.location ++ close.toList

/-- The expression that reaches one dependency node from another. -/
def accessBetween (c : Compilation) (source target : DependencyId) : Expr :=
  c.tree.access c.sources (c.compositionOf source) (c.compositionOf target)

end Compilation

-- ============================================================== changing

namespace Step

def modifySources (f : Sources → Sources) : Step Unit :=
  modify fun c => { c with sources := f c.sources }

def modifyTree (f : Composition → Composition) : Step Unit :=
  modify fun c => { c with tree := f c.tree }

def modifyBindings (f : Bindings → Bindings) : Step Unit :=
  modify fun c => { c with bindings := f c.bindings }

def modifyNode (n : DependencyId) (f : DependencyNode → DependencyNode) :
    Step Unit :=
  modify fun c => { c with graph := c.graph.modify n f }

def stage (n : DependencyId) : Step Stage := do ofExcept ((← get).stage n)

/-- Change the stage at a node; a method group stays as it is. -/
def modifyStage (n : DependencyId) (f : Stage → Stage) : Step Unit :=
  modifyNode n fun d =>
    match d.kind with
    | .stage s => { d with kind := .stage (f s) }
    | .group _ => d

def bindMethod (method : Identity) (n : DependencyId) (role : Role) :
    Step Unit := do
  let bindings ← ofExcept ((← get).bindings.bindMethod method n role)
  modifyBindings fun _ => bindings

/-- The merged type of the root node, which must be there. -/
def merged : Step TypeDecl := do
  match ((← get).tree.get Composition.root).merged with
  | some d => return d
  | none => throw (.emptyComposition Composition.root.text)

/-- Put a merged type at the root node, or take it away. -/
def setMerged (d : Option TypeDecl) : Step Unit :=
  modifyTree (·.modify Composition.root fun n => { n with merged := d })

end Step

end Stagewise
