/-
The merged type of the whole composition tree. Every leaf first takes in
its extension chain; then every node's declarations become one type, with
the types of the node's children nested in it in order. The result, named
and placed as the options ask, belongs to the root node.
-/
import Stagewise.Compilation
import Stagewise.Merge.Chain
import Stagewise.Merge.Combination

namespace Stagewise.Merge

open Step

/-- Let a leaf take in its chain. The answer is whether there was more
than the leaf. -/
def mergeLeaf (leaf : DeclId) (chain : List DeclId) : Step Bool := do
  let d ← ofExcept (mergeChain (← get).sources chain)
  modifySources (·.set leaf d)
  return 1 < chain.length

/-- A merged type, and how many types it holds with itself. -/
structure Merged where
  type : TypeDecl
  count : Nat

/-- The merged type of a node and of all nodes below it. `fuel` bounds the
depth of the tree. -/
def mergeNode (c : Compilation) : Nat → CompositionId → Except Failure Merged
  | 0, n => .error (.emptyComposition n.text)
  | fuel + 1, n => do
      let node := c.tree.get n
      if node.decls.isEmpty then throw (.emptyComposition n.text)
      let own ← mergeDeclarations (node.decls.map c.sources.get)
        node.erasesTypeParams
      (c.tree.children n).foldlM (fun merged child =>
        match (c.tree.get child).parentAccess with
        | none => throw (.unboundParent (c.tree.declNames c.sources child))
        | some f => do
            let nested ← mergeNode c fuel child
            return ⟨nestChild merged.type nested.type f,
              merged.count + nested.count⟩) ⟨own, 1⟩

/-- How many chains had more than one link, and how many types there
are. -/
structure MergeReport where
  chains : Nat
  types : Nat

/-- Merge all declarations into the type of the root node. -/
def mergeTree : Step MergeReport := do
  let chains ← (← get).chains.mapM fun (leaf, chain) => mergeLeaf leaf chain
  let c ← get
  let merged ← ofExcept (mergeNode c c.tree.nodes.length Composition.root)
  let d := merged.type
  setMerged (some { d with
    name := c.options.name.getD d.name
    package := c.options.package.orElse fun _ => d.package })
  return ⟨chains.count true, merged.count⟩

end Stagewise.Merge
