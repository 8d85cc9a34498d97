/-
Accesses through reference fields, put in terms of the merged types. The
declaration that a reference field leads to becomes the same type, an
enclosing one or a nested one, so an access of the field becomes the
access between the two composition nodes, whatever the field's target.
What stood inside the access goes with it.

Reference fields that are no parent access are then dropped.
-/
import Stagewise.Compilation
import Stagewise.Program.Transform

namespace Stagewise.Merge

open Step

/-- The composition node that an expression leads to, if it accesses a
reference field. -/
def referencedNode? (c : Compilation) (e : Expr) : Option CompositionId := do
  let f ← e.field?
  c.tree.nodeOf? (← c.bindings.referenced? f.identity)

/-- Replaces accesses of reference fields in code of a composition node,
outermost first, and counts them. -/
def replaceAccesses (c : Compilation) (n : CompositionId) :
    Transformer (StateM Nat) where
  enterExpr e :=
    match referencedNode? c e with
    | some target => do
        modify (· + 1)
        return some (c.tree.access c.sources n target)
    | none => return none

/-- Whether a field is the parent access of the node it leads to. -/
def isParentAccess (c : Compilation) (field : Identity) : Bool :=
  ((c.bindings.referenced? field).bind c.tree.nodeOf?).any fun n =>
    ((c.tree.get n).parentAccess).any (·.identity == field)

/-- A declaration without the reference fields that lead nowhere once it
is merged. -/
def dropReferences (c : Compilation) (d : TypeDecl) : TypeDecl :=
  { d with
    fields := d.fields.filter fun f =>
      !f.isReference || isParentAccess c f.id }

/-- How many accesses were replaced and how many fields dropped. -/
structure ReferenceReport where
  replaced : Nat
  dropped : Nat

/-- Replace the accesses in a link of a node's chain; the answer is their
number. -/
def replaceInLink (n : CompositionId) (link : DeclId) : Step Nat := do
  let c ← get
  let (d, replaced) :=
    ((replaceAccesses c n).typeDecl (c.sources.get link)).run 0
  modifySources (·.set link d)
  return replaced

/-- Drop fields of a link; the answer is their number. -/
def dropInLink (link : DeclId) : Step Nat := do
  let c ← get
  let before := c.sources.get link
  let after := dropReferences c before
  modifySources (·.set link after)
  return before.fields.length - after.fields.length

/-- The links of all chains, each with the node of its leaf. -/
def linksWithNodes (c : Compilation) : List (CompositionId × DeclId) :=
  c.chains.flatMap fun (leaf, chain) =>
    (c.tree.nodeOfLeaf? leaf).toList.flatMap fun n => chain.map (n, ·)

/-- Replace all accesses of reference fields, then drop the fields. -/
def resolveReferences : Step ReferenceReport := do
  let links := linksWithNodes (← get)
  let replaced ← links.mapM fun (n, link) => replaceInLink n link
  let dropped ← links.mapM fun (_, link) => dropInLink link
  return ⟨replaced.foldl Nat.add 0, dropped.foldl Nat.add 0⟩

end Stagewise.Merge
