/-
Where reference fields lead. Every reference field of a link of a chain
must be assignable from exactly one leaf, which it then leads to. If that
leaf belongs to a child of the field's own composition node, the field is
offered as the child's parent access; the first offer stands. When all
fields are bound every node gets its path, so that a child without a
parent access is found out.
-/
import Stagewise.Compilation

namespace Stagewise.Analysis

open Step

/-- A reference field where it is declared. -/
structure ReferenceSite where
  node : CompositionId
  owner : String
  field : Field

/-- The reference fields of a link. -/
def referenceFields (c : Compilation) (link : DeclId) : List Field :=
  (c.sources.get link).fields.filter Field.isReference

/-- The reference fields of all links, leaf by leaf, each chain from
derived to base. -/
def referenceSites (c : Compilation) : List ReferenceSite :=
  c.chains.flatMap fun (leaf, chain) =>
    (c.tree.nodeOfLeaf? leaf).toList.flatMap fun node =>
      chain.flatMap fun link =>
        (referenceFields c link).map (⟨node, c.sources.name link, ·⟩)

/-- The leaves that a reference field may lead to. -/
def candidates (c : Compilation) (f : Field) : List DeclId :=
  c.tree.leaves.filter (c.sources.isAssignable f.type)

/-- Bind a reference field to its only candidate. The answer is whether
it became a parent access. -/
def bindReference (site : ReferenceSite) : Step Bool := do
  let c ← get
  match candidates c site.field with
  | [leaf] =>
      modifyBindings (·.bindReference site.field.id leaf)
      match c.tree.nodeOfLeaf? leaf with
      | some child =>
          if (c.tree.get child).parent == some site.node then
            let (taken, tree) :=
              c.tree.offerParentAccess child (site.field.ref site.owner)
            modifyTree fun _ => tree
            return taken
          else return false
      | none => return false
  | leaves =>
      throw (.ambiguousReference site.owner site.field.name
        (leaves.map c.sources.name))

/-- Give every node of the composition tree its path. -/
def computePaths : Step Unit := do
  let (result, tree) := (← get).tree.computePaths (← get).sources
  modifyTree fun _ => tree
  ofExcept result

/-- How many reference fields were bound, and how many of them became
parent accesses. -/
structure ReferenceReport where
  bound : Nat
  parentAccesses : Nat

/-- Bind all reference fields and give all nodes their paths. -/
def bindReferences : Step ReferenceReport := do
  let taken ← (referenceSites (← get)).mapM bindReference
  computePaths
  return ⟨taken.length, taken.count true⟩

end Stagewise.Analysis
