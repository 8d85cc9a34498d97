/-
Building a composition tree by calls, those that fail included.

# Calls

A call creates a child of a node or adds a leaf to it (`Call`). Adding a leaf
changes the tree in several places, one after the other: each link of its
chain is bound, then the leaf is listed, and then its node takes it in.
`adding` makes these changes in turn and may fail among them. All that can
fail is checked before the first change, so a call that fails leaves the
tree as it was, and one that does not leaves what `addDeclaration` answers
(`run_adding`).

# What all calls keep

A tree that calls have built is formed, as each call keeps it so
(`Call.formed`). From there: no two chains share a link, every link belongs
to the node of its leaf, every leaf is listed once and by one node, and one
path leads down to each node (`Arranged`).
-/
import Stagewise.Proofs.Composition.Paths

namespace Stagewise

/-- Changes of a tree, one after the other, that may fail. What was changed
before a failure stays changed. -/
abbrev Building := ExceptT Failure (StateM Composition)

namespace Building

variable {α β : Type} {s : Sources} {t t' : Composition}
variable {n m p : CompositionId} {d link : DeclId}
variable {path path' : List CompositionId}

-- ============================================================ changes in turn

def runOn (x : Building α) (t : Composition) :
    Except Failure α × Composition :=
  StateT.run (ExceptT.run x) t

theorem runOn_bind (x : Building α) (f : α → Building β) (t : Composition) :
    (x >>= f).runOn t = match x.runOn t with
      | (.ok a, t₁) => (f a).runOn t₁
      | (.error e, t₁) => (.error e, t₁) := by
  show (ExceptT.bindCont f (x.runOn t).1 : StateM Composition _)
    (x.runOn t).2 = _
  rcases x.runOn t with ⟨_ | a, t₁⟩
  · rfl
  · rfl

/-- A loop that changes the tree in every turn. -/
theorem runOn_forM_modify (f : α → Composition → Composition) (as : List α)
    (t : Composition) :
    (as.forM fun a => (modify (f a) : Building Unit)).runOn t
      = (.ok (), as.foldl (fun t a => f a t) t) := by
  induction as generalizing t with
  | nil => rfl
  | cons a as ih =>
      show ((modify (f a) : Building Unit) >>= fun _ => as.forM fun a => modify
        (f a)).runOn t = _
      rw [runOn_bind]
      exact ih (f a t)

/-- Fail if a link is bound. -/
def checkLink (s : Sources) (link : DeclId) : Building Unit := do
  match (← get).nodeOf? link with
  | some existing => throw (.duplicateBinding (s.name link) existing.text)
  | none => return

def bindLink (n : CompositionId) (link : DeclId) (t : Composition) :
    Composition :=
  { t with linkNodes := t.linkNodes ++ [(link, n)] }

def listLeaf (n : CompositionId) (d : DeclId) (t : Composition) :
    Composition :=
  { t with leafNodes := t.leafNodes ++ [(d, n)] }

def takeIn (n : CompositionId) (d : DeclId) (t : Composition) : Composition :=
  t.modify n fun x => { x with decls := x.decls ++ [d] }

/-- Add a leaf to a node, change by change. -/
def adding (s : Sources) (n : CompositionId) (d : DeclId) : Building Unit := do
  if !(s.get d).isParticipating then throw (.notParticipating (s.name d))
  match (← get).nodeOfLeaf? d with
  | some existing => throw (.duplicateBinding (s.name d) existing.text)
  | none =>
      (s.extensionChain d).forM (checkLink s)
      (s.extensionChain d).forM fun link => modify (bindLink n link)
      modify (listLeaf n d)
      modify (takeIn n d)

theorem runOn_checkLink (t : Composition) : (checkLink s link).runOn t
    = match t.nodeOf? link with
      | some existing =>
          (.error (.duplicateBinding (s.name link) existing.text), t)
      | none => (.ok (), t) := by
  unfold checkLink
  rw [runOn_bind]
  show ((match t.nodeOf? link with
    | some existing => throw (.duplicateBinding (s.name link) existing.text)
    | none => pure () : Building Unit)).runOn t = _
  cases t.nodeOf? link with
  | none => rfl
  | some existing => rfl

/-- The first link that is bound fails the check of a chain. -/
theorem runOn_checkLinks (chain : List DeclId) (t : Composition) :
    (chain.forM (checkLink s)).runOn t = match t.boundLink? chain with
      | some (link, existing) =>
          (.error (.duplicateBinding (s.name link) existing.text), t)
      | none => (.ok (), t) := by
  induction chain with
  | nil => rfl
  | cons link chain ih =>
      show (checkLink s link >>= fun _ => chain.forM (checkLink s)).runOn t = _
      rw [runOn_bind, runOn_checkLink, Composition.boundLink?,
        List.findSome?_cons]
      cases t.nodeOf? link with
      | none => exact ih
      | some existing => rfl

/-- Binding links one by one binds them in order. -/
theorem foldl_bindLink (chain : List DeclId) (t : Composition) :
    chain.foldl (fun t link => bindLink n link t) t
      = { t with linkNodes := t.linkNodes ++ chain.map (·, n) } := by
  induction chain generalizing t with
  | nil => simp
  | cons link chain ih =>
      rw [List.foldl_cons, ih, bindLink]
      simp

/-- A leaf is added as a whole or not at all. -/
theorem run_adding (s : Sources) (t : Composition) (n : CompositionId)
    (d : DeclId) :
    (adding s n d).runOn t = match t.addDeclaration s n d with
      | .ok t' => (.ok (), t')
      | .error e => (.error e, t) := by
  unfold adding Composition.addDeclaration
  split
  · rfl
  · show ((match t.nodeOfLeaf? d with
      | some existing => throw (.duplicateBinding (s.name d) existing.text)
      | none => _ : Building Unit)).runOn t = _
    cases t.nodeOfLeaf? d with
    | some existing => rfl
    | none =>
        dsimp only
        rw [runOn_bind, runOn_checkLinks]
        cases t.boundLink? (s.extensionChain d) with
        | some bound => rfl
        | none =>
            dsimp only
            rw [runOn_bind, runOn_forM_modify, foldl_bindLink]
            rfl

-- ====================================================================== calls

/-- A call that builds a tree. -/
inductive Call where
  | child (parent : CompositionId)
  | add (node : CompositionId) (leaf : DeclId)

namespace Call

/-- The node that a call is about. -/
def node : Call → CompositionId
  | .child parent => parent
  | .add node _ => node

/-- The outcome of a call and the tree after it. -/
def run (s : Sources) (t : Composition) :
    Call → Except Failure Unit × Composition
  | .child parent => (.ok (), (t.createChild parent).2)
  | .add node leaf => (adding s node leaf).runOn t

/-- A call keeps a tree formed, whether it fails or not. -/
theorem formed {call : Call} (h : t.Formed s)
    (hnode : call.node.index < t.nodes.length) :
    (call.run s t).2.Formed s := by
  cases call with
  | child parent => exact h.createChild hnode
  | add node leaf =>
      rw [run, run_adding]
      cases hadd : t.addDeclaration s node leaf with
      | ok t' => exact h.addDeclaration hnode hadd
      | error e => exact h

end Call

/-- The tree after some calls, those that fail included. -/
def after (s : Sources) (calls : List Call) (t : Composition) : Composition :=
  calls.foldl (fun t call => (call.run s t).2) t

/-- That each call is about a node that there is when its turn comes. -/
def Known (s : Sources) : List Call → Composition → Prop
  | [], _ => True
  | call :: calls, t => call.node.index < t.nodes.length ∧ Known s calls
      (call.run s t).2

/-- Calls keep a tree formed. -/
theorem formed_after {calls : List Call} (h : t.Formed s)
    (hknown : Known s calls t) :
    (after s calls t).Formed s := by
  induction calls generalizing t with
  | nil => exact h
  | cons call calls ih => exact ih (call.formed h hknown.1) hknown.2

end Building

namespace Composition

variable {s : Sources} {t t' : Composition} {n m p : CompositionId}
variable {d leaf link : DeclId}
variable {path path' : List CompositionId}

-- ====================================================================== paths

/-- A path from the root down to a node, from parent to child. -/
inductive PathTo (t : Composition) : CompositionId → List CompositionId → Prop
  | root : PathTo t root [root]
  | child {p c : CompositionId} {path : List CompositionId} : PathTo t p path →
      c ∈ t.children p → PathTo t c (path ++ [c])

/-- A node has a path, as a parent was there before its children. -/
theorem Formed.exists_pathTo (ht : Formed s t)
    (hn : n.index < t.nodes.length) :
    ∃ path, t.PathTo n path := by
  obtain ⟨i⟩ := n
  induction i using Nat.strongRecOn with
  | ind i ih =>
      by_cases hroot : (⟨i⟩ : CompositionId) = Composition.root
      · exact hroot ▸ ⟨_, .root⟩
      · obtain ⟨p, hp, hlt⟩ := ht.parent ⟨i⟩ hn hroot
        obtain ⟨path, hpath⟩ := ih p.index hlt (Nat.lt_trans hlt hn)
        exact ⟨_, .child hpath (mem_children.2 ⟨hn, hp⟩)⟩

/-- A node has one path, as it is the child of one node and the root of
none. -/
theorem PathTo.unique (ht : Formed s t) (h : t.PathTo n path)
    (h' : t.PathTo n path') :
    path = path' := by
  have hroot : ∀ p, Composition.root ∉ t.children p := by
    intro p hp
    have hparent := (mem_children.1 hp).2
    rw [ht.root] at hparent
    cases hparent
  induction h generalizing path' with
  | root =>
      cases h' with
      | root => rfl
      | child _ hc => exact absurd hc (hroot _)
  | child hpath hc ih =>
      cases h' with
      | root => exact absurd hc (hroot _)
      | child hpath' hc' =>
          obtain rfl :=
            Option.some.inj
              ((mem_children.1 hc).2.symm.trans (mem_children.1 hc').2)
          rw [ih hpath']

-- ===================================================================== leaves

theorem mem_leaves_iff (ht : Formed s t) :
    leaf ∈ t.leaves ↔ ∃ n ∈ t.ids, t.nodeOfLeaf? leaf = some n := by
  constructor
  · intro hleaf
    obtain ⟨n, hn⟩ := Formed.exists_node hleaf
    exact ⟨n, mem_ids.2 (ht.place _ hn), ht.nodeOfLeaf?_eq_some.2 hn⟩
  · rintro ⟨n, -, hn⟩
    exact List.mem_map.2 ⟨_, ht.nodeOfLeaf?_eq_some.1 hn, rfl⟩

theorem Formed.nodup_decls (ht : Formed s t) (n : CompositionId) :
    (t.get n).decls.Nodup := by
  rw [ht.decls]
  exact (List.filter_sublist.map _).nodup ht.nodup_leaves

/-- No two leaves have chains with a link in common. -/
theorem Formed.pairwise_disjoint (ht : Formed s t) :
    t.leaves.Pairwise fun a b => List.Disjoint (s.extensionChain a)
      (s.extensionChain b) := by
  have hapart := ht.apart
  rw [ht.map_fst_linkNodes, List.nodup_flatMap] at hapart
  exact hapart.2

/-- A leaf is taken if it takes part in merging and no link of its chain is
bound. -/
theorem Formed.addDeclaration_isOk_iff (ht : Formed s t) :
    (∃ t', t.addDeclaration s n d = .ok t') ↔ (s.get d).isParticipating = true
      ∧ ∀ link ∈ s.extensionChain d, t.nodeOf? link = none := by
  constructor
  · rintro ⟨t', hadd⟩
    exact ⟨(addDeclaration_eq_ok hadd).1, (addDeclaration_eq_ok hadd).2.1⟩
  · rintro ⟨hparticipating, hfree⟩
    have hself := hfree d (Sources.mem_extensionChain_self hparticipating)
    have hleaf : t.nodeOfLeaf? d = none := by
      cases hbound : t.nodeOfLeaf? d with
      | none => rfl
      | some m =>
          rw [ht.nodeOf?_of_leaf (ht.nodeOfLeaf?_eq_some.1 hbound)] at hself
          cases hself
    have hchain : t.boundLink? (s.extensionChain d) = none :=
      List.findSome?_eq_none_iff.2 fun link hlink => by
        rw [hfree link hlink, Option.map_none]
    unfold Composition.addDeclaration
    simp only [hparticipating, Bool.not_true, Bool.false_eq_true, if_false,
      hleaf, hchain]
    exact ⟨_, rfl⟩

-- ================================================================== the whole

/-- How leaves, links and nodes belong together, and what the next call does
to them. -/
structure Arranged (s : Sources) (t : Composition) : Prop where
  apart : t.leaves.Pairwise fun a b => List.Disjoint (s.extensionChain a)
    (s.extensionChain b)
  /-- A link belongs to the node of the leaf that brought it. -/
  links : ∀ link n, t.nodeOf? link = some n ↔
    ∃ leaf ∈ t.leaves, t.nodeOfLeaf? leaf = some n
      ∧ link ∈ s.extensionChain leaf
  leaves : ∀ leaf, leaf ∈ t.leaves ↔ ∃ n ∈ t.ids, t.nodeOfLeaf? leaf = some n
  leavesOnce : t.leaves.Nodup
  /-- A node lists the leaves that are its own, and no others. -/
  decls : ∀ leaf n, leaf ∈ (t.get n).decls ↔ t.nodeOfLeaf? leaf = some n
  declsOnce : ∀ n, (t.get n).decls.Nodup
  paths : ∀ n ∈ t.ids, ∃! path, t.PathTo n path
  /-- A call that fails changes nothing. -/
  fails : ∀ (call : Building.Call) e t', call.run s t = (.error e, t') → t' = t
  accepts : ∀ n d, ((Building.Call.add n d).run s t).1 = .ok () ↔
    (s.get d).isParticipating = true ∧ ∀ link ∈ s.extensionChain d,
    t.nodeOf? link = none

theorem Formed.arranged (ht : Formed s t) : Arranged s t where
  apart := ht.pairwise_disjoint
  links link n := by
    rw [ht.nodeOf?_eq_some]
    refine exists_congr fun leaf => ?_
    rw [ht.nodeOfLeaf?_eq_some]
    exact ⟨fun ⟨hleaf, hlink⟩ => ⟨List.mem_map.2 ⟨_, hleaf, rfl⟩, hleaf,
      hlink⟩, And.right⟩
  leaves leaf := mem_leaves_iff ht
  leavesOnce := ht.nodup_leaves
  decls leaf n := ht.mem_decls.trans ht.nodeOfLeaf?_eq_some.symm
  declsOnce := ht.nodup_decls
  paths n hn := by
    obtain ⟨path, hpath⟩ := ht.exists_pathTo (mem_ids.1 hn)
    exact ⟨path, hpath, fun path' hpath' => hpath'.unique ht hpath⟩
  fails call e t' hrun := by
    cases call with
    | child parent => cases hrun
    | add n d =>
        rw [Building.Call.run, Building.run_adding] at hrun
        split at hrun
        · cases hrun
        · exact (congrArg Prod.snd hrun).symm
  accepts n d := by
    rw [← ht.addDeclaration_isOk_iff (n := n), Building.Call.run,
      Building.run_adding]
    split
    · rename_i t' hadd
      exact ⟨fun _ => ⟨t', hadd⟩, fun _ => rfl⟩
    · rename_i e hadd
      exact ⟨nofun, fun ⟨t', hok⟩ => by rw [hadd] at hok; cases hok⟩

/-- After any calls, in whatever order and whether they fail or not, the tree
is arranged. -/
theorem calls_arrange (s : Sources) (calls : List Building.Call)
    (hknown : Building.Known s calls {}) :
    Arranged s (Building.after s calls {}) :=
  (Building.formed_after Built.start.formed hknown).arranged

/-- Two leaves over one base, a leaf of its own, and a type that takes no
part. -/
def forkedSources : Sources :=
  let base := TypeDecl.participating "Base"
  let leaf (name : String) : TypeDecl :=
    { TypeDecl.participating name with superclass := some (.named "Base") }
  { decls := [base, leaf "Left", leaf "Right", .participating "Solo",
    { name := "Plain" }] }

/-- `Left` goes to a child, with its base. What comes later and is bound as
that leaf, as its base or by sharing its base is refused, and so is what takes
no part. -/
def forkedCalls : List Building.Call :=
  [.child root, .add ⟨1⟩ ⟨1⟩, .add root ⟨1⟩, .add root ⟨0⟩,
    .add root ⟨2⟩, .child ⟨1⟩, .add ⟨2⟩ ⟨4⟩, .add ⟨2⟩ ⟨3⟩]

/-- Of these calls four fail, and the tree is arranged after them. -/
theorem calls_arrange_forked : Building.Known forkedSources forkedCalls {}
    ∧ Arranged forkedSources (Building.after forkedSources forkedCalls {})
    ∧ (Building.after forkedSources forkedCalls {}).leaves = [⟨1⟩, ⟨3⟩]
    ∧ (Building.after forkedSources forkedCalls {}).nodeOf? ⟨0⟩
      = some ⟨1⟩ := by
  have hknown : Building.Known forkedSources forkedCalls {} := by
    simp only [forkedCalls, Building.Known]
    decide
  exact ⟨hknown, calls_arrange _ _ hknown, by decide, by decide⟩

end Composition

end Stagewise
