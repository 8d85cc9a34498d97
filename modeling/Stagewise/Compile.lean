/-
The compiler: declarations arranged in a composition tree become one type
whose members initialize and close the stages in the order of their
dependencies.

The analysis binds references, finds the nodes of the dependency graph,
checks writes, and orders the graph. Then the bodies are guarded, the
lifecycle is added, references are resolved, and everything is merged into
one type, which is renamed, laid out and completed. The first failure ends
the compilation.
-/
import Stagewise.Analysis.Discovery
import Stagewise.Analysis.Links
import Stagewise.Analysis.Positions
import Stagewise.Analysis.References
import Stagewise.Analysis.Writes
import Stagewise.Lifecycle.Closing
import Stagewise.Lifecycle.Guards
import Stagewise.Merge.References
import Stagewise.Merge.Tree
import Stagewise.Output.Emission
import Stagewise.Output.Finals
import Stagewise.Output.Layout
import Stagewise.Output.Names

namespace Stagewise

open Step

/-- What the analysis of a compilation found. -/
structure AnalysisReport where
  nodes : Analysis.NodeReport
  /-- The dependency nodes, dependencies first. -/
  order : List DependencyId

/-- Check that writes to stages' fields are legal; the answer is how many
there are. -/
def checkWrites : Step Nat := do ofExcept (Analysis.checkWrites (← get))

/-- Analyse the declarations without changing them. -/
def analyse : Step AnalysisReport := do
  let _ ← Analysis.bindReferences
  let nodes ← Analysis.discoverNodes
  let _ ← checkWrites
  let _ ← Analysis.linkNodes
  return ⟨nodes, ← Analysis.placeNodes⟩

/-- Add guards and lifecycle to the declarations. -/
def addLifecycle : Step Unit := do
  let _ ← Lifecycle.guardNodes
  let _ ← Lifecycle.prepareNodes
  let _ ← Merge.resolveReferences
  let _ ← Lifecycle.addGlobalClose

/-- Merge the declarations and complete the result. -/
def produce : Step TypeDecl := do
  let _ ← Merge.mergeTree
  let _ ← Output.renameMerged
  let _ ← Output.placeMerged
  let _ ← Output.completeFinals
  Output.emit

structure Compiled where
  /-- The outermost merged type, with the others nested in it. -/
  merged : TypeDecl
  stages : Nat
  groups : Nat
  /-- The names of the dependency nodes, dependencies first. -/
  order : List String

/-- The steps of a whole compilation. -/
def compileSteps : Step Compiled := do
  let report ← analyse
  addLifecycle
  let merged ← produce
  return ⟨merged, report.nodes.stages, report.nodes.groups,
    report.order.map (← get).graph.name⟩

/-- Compile declarations arranged in a composition tree. -/
def compile (sources : Sources) (tree : Composition) (options : Options) :
    Except Failure Compiled :=
  (compileSteps.runOn { sources, tree, options }).1

end Stagewise
