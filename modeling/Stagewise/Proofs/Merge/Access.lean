/-
Accesses can be followed in the merged types.

Once references are bound every node but the root has a parent access, and
this is a field of a link of the parent (`Navigable`). The passes after
that leave it so: they leave the tree and the fields of declarations, and
the resolution of references drops no parent access. When the tree is
merged the field is among those of the parent's type and becomes one of
the child's type, which is nested there. An access goes down parent
accesses, so it leads from type to type (`mergeTree_follows`).
-/
import Stagewise.Proofs.Analysis.Frames
import Stagewise.Proofs.Lifecycle.Evolving
import Stagewise.Proofs.Merge.References
import Stagewise.Proofs.Merge.Tree

namespace Stagewise

open Compilation Stagewise.Composition Step

variable {c c' c₀ c₁ c₂ : Compilation} {n m p : CompositionId}

-- ================================================================= the passes

/-- A run of a pass that comes before the merging, other than the binding
and the resolution of references. -/
inductive Pass (c c' : Compilation) : Prop
  | discover {r : Analysis.NodeReport} :
      Analysis.discoverNodes.runOn c = (.ok r, c') → Pass c c'
  | check {r : Nat} : checkWrites.runOn c = (.ok r, c') → Pass c c'
  | link {r : Nat} : Analysis.linkNodes.runOn c = (.ok r, c') → Pass c c'
  | place {r : List DependencyId} :
      Analysis.placeNodes.runOn c = (.ok r, c') → Pass c c'
  | guard {r : Lifecycle.GuardReport} :
      Lifecycle.guardNodes.runOn c = (.ok r, c') → Pass c c'
  | prepare {r : Lifecycle.LifecycleReport} :
      Lifecycle.prepareNodes.runOn c = (.ok r, c') → Pass c c'
  | close {r : Nat} :
      Lifecycle.addGlobalClose.runOn c = (.ok r, c') → Pass c c'

/-- Runs of such passes, one after the other. -/
abbrev Passes : Compilation → Compilation → Prop := Relation.ReflTransGen Pass

/-- What such passes leave. -/
structure Kept (c c' : Compilation) : Prop where
  tree : Reinterfaces c.tree c'.tree
  references : c'.bindings.references = c.bindings.references
  heads : Sources.SameHeads c.sources c'.sources
  fields : ∀ d, (c'.sources.get d).fields = (c.sources.get d).fields

namespace Kept

theorem refl (c : Compilation) : Kept c c :=
  ⟨.refl _, rfl, .refl _, fun _ => rfl⟩

theorem trans (h : Kept c c₁) (h' : Kept c₁ c₂) : Kept c c₂ :=
  ⟨h.tree.trans h'.tree, h'.references.trans h.references,
    h.heads.trans h'.heads,
    fun d => (h'.fields d).trans (h.fields d)⟩

theorem ofTraced (h : Analysis.Traced c c') (hs : c'.sources = c.sources) :
    Kept c c' :=
  ⟨h.tree, h.references, hs ▸ .refl _, fun _ => by rw [hs]⟩

theorem ofEvolves (h : Lifecycle.Evolves c c') : Kept c c' := by
  have hrest : ∀ {α : Type} (g : TypeDecl → α),
      (∀ d : TypeDecl, g { d with methods := [] } = g d) →
        ∀ d, g (c'.sources.get d) = g (c.sources.get d) := by
    intro α g hg d
    rw [← hg, h.sources.rest, hg]
  exact ⟨h.tree ▸ .refl _, h.references,
    ⟨h.sources.length, h.sources.name, hrest TypeDecl.superclass fun _ => rfl,
      hrest TypeDecl.markers fun _ => rfl⟩, hrest TypeDecl.fields fun _ => rfl⟩

end Kept

namespace Lifecycle

/-- The global close method and its interface are all that is added. -/
theorem addGlobalClose_kept :
    Ensures addGlobalClose c fun _ c' => Kept c c' := by
  unfold addGlobalClose
  rw [ensures_bind, ensures_get]
  dsimp only
  split
  · exact ensures_throw
  · rename_i d _
    rw [ensures_bind, ensures_modifySources, ensures_pure]
    have hrest : ∀ {α : Type} (g : TypeDecl → α),
        (∀ (d : TypeDecl) interfaces methods, g { d with interfaces, methods }
          = g d) →
        ∀ d', g ((c.sources.modify d fun t =>
          ((c.options.closeInterface.map (addInterface t)).getD t).addMethod
            (procedure "close" .void (globalCloseBody c))).get d')
            = g (c.sources.get d') := by
      intro α g hg d'
      refine Sources.get_modify_congr (fun t => ?_) d'
      cases c.options.closeInterface with
      | none => exact hg t t.interfaces _
      | some i =>
          simp only [Option.map_some, Option.getD_some, addInterface]
          split
          · exact hg t t.interfaces _
          · exact hg t _ _
    exact ⟨.refl _, rfl,
      ⟨Sources.length_modify d _, hrest TypeDecl.name fun _ _ _ => rfl,
        hrest TypeDecl.superclass fun _ _ _ => rfl,
        hrest TypeDecl.markers fun _ _ _ => rfl⟩,
      hrest TypeDecl.fields fun _ _ _ => rfl⟩

end Lifecycle

theorem Pass.kept (h : Pass c c') : Kept c c' := by
  cases h with
  | discover h =>
      exact .ofTraced (Analysis.discoverNodes_traced _ _ h)
        (Analysis.discoverNodes_sources _ _ h)
  | check h =>
      unfold checkWrites at h
      rw [runOn_bind, runOn_get] at h
      simp only [runOn_ofExcept, Prod.mk.injEq] at h
      obtain ⟨-, rfl⟩ := h
      exact .refl c
  | link h =>
      exact .ofTraced (Analysis.linkNodes_traced _ _ h)
        (Analysis.linkNodes_sameMembers _ _ h).sources
  | place h =>
      exact .ofTraced (Analysis.placeNodes_traced _ _ h)
        (Analysis.placeNodes_sameMembers _ _ h).sources
  | guard h => exact .ofEvolves (Lifecycle.guardNodes_evolves _ _ h)
  | prepare h => exact .ofEvolves (Lifecycle.prepareNodes_evolves _ _ h).1
  | close h => exact Lifecycle.addGlobalClose_kept _ _ h

theorem Passes.kept (h : Passes c c') : Kept c c' := by
  induction h with
  | refl => exact .refl _
  | tail _ h ih => exact ih.trans h.kept

-- ============================================================== the invariant

namespace Merge

/-- That the way down to every node is there: its parent access tells it
apart from its siblings, and is the parent access by its identity, which a
field of the parent's links has. -/
structure Navigable (c : Compilation) : Prop where
  formed : Formed c.sources c.tree
  pathed : Pathed c.tree
  separates : Separates c.tree
  anchored : ∀ n p f, (c.tree.get n).parent = some p →
    (c.tree.get n).parentAccess = some f →
    isParentAccess c f.identity = true
      ∧ f.identity ∈ gathered c p fun d => d.fields.map Field.id

/-- Where the links of a node hold the same, they hold it together. -/
theorem gathered_congr {α : Type} {g : TypeDecl → List α}
    (hdecls : (c'.tree.get n).decls = (c.tree.get n).decls)
    (hchain : ∀ d, c'.sources.extensionChain d = c.sources.extensionChain d)
    (hg : ∀ d, g (c'.sources.get d) = g (c.sources.get d)) :
    gathered c' n g = gathered c n g := by
  unfold gathered
  simp only [hdecls, hchain, hg]

theorem mem_gathered {α : Type} {g : TypeDecl → List α} {a : α} :
    a ∈ gathered c n g ↔
    ∃ leaf ∈ (c.tree.get n).decls, ∃ link ∈ c.sources.extensionChain leaf,
      a ∈ g (c.sources.get link) := by
  unfold gathered
  simp only [List.mem_flatMap]

/-- The binding of references makes the way. -/
theorem bindReferences_navigable (ht : Formed c.sources c.tree)
    (hfree : ∀ n, (c.tree.get n).parentAccess = none)
    (hs : Analysis.Referable c) :
    Ensures Analysis.bindReferences c fun _ c' => Navigable c' := by
  refine (Analysis.bindReferences_referenced ht).mono
    fun _ c' ⟨h, hpathed⟩ => ?_
  refine ⟨h.sources ▸ h.form.formed ht, hpathed, h.separates hs hfree,
    fun n p f hp hf => ?_⟩
  obtain ⟨leaf, link, field, hleaf, hlink, hfield, -, hid, haccess⟩ :=
    h.isParentAccess ht hs hfree hp hf
  rw [← hid]
  refine ⟨haccess, mem_gathered.2 ⟨leaf, hleaf, link, h.sources ▸ hlink, ?_⟩⟩
  rw [h.sources]
  exact List.mem_map.2 ⟨field, hfield, rfl⟩

/-- What is a parent access stays one. -/
theorem isParentAccess_congr
    (hrefs : c'.bindings.references = c.bindings.references)
    (ht : Reinterfaces c.tree c'.tree) (id : Identity) :
    isParentAccess c' id = isParentAccess c id := by
  have hnode : c'.tree.nodeOf? = c.tree.nodeOf? := funext ht.form.nodeOf?
  unfold isParentAccess Bindings.referenced?
  simp only [hrefs, hnode, ht.parentAccess]

/-- The passes leave the way. -/
theorem Navigable.kept (h : Navigable c) (hk : Kept c c') : Navigable c' where
  formed := hk.tree.form.formed (h.formed.sameHeads hk.heads)
  pathed := h.pathed.congr hk.tree.form hk.tree.parentAccess hk.tree.path
  separates := h.separates.congr hk.tree.form hk.tree.parentAccess
  anchored n p f hp hf := by
    rw [hk.tree.form.parent] at hp
    rw [hk.tree.parentAccess] at hf
    rw [isParentAccess_congr hk.references hk.tree,
      gathered_congr (hk.tree.form.decls p)
      hk.heads.extensionChain fun d => by rw [hk.fields]]
    exact h.anchored n p f hp hf

theorem Resolved.sameHeads {links : List DeclId} {s : Sources}
    (h : Resolved c links s) :
    Sources.SameHeads c.sources s where
  length := h.length
  name := h.name
  superclass := h.congr (g := TypeDecl.superclass) (fun hd => by
    simpa using TypeDecl.superclass_of_outline hd) fun _ _ => rfl
  markers := h.congr (g := TypeDecl.markers) TypeDecl.markers_of_outline
    fun _ _ => rfl

/-- Of a declaration's fields the parent accesses are never dropped. -/
theorem Resolved.mem_ids {links : List DeclId} {s : Sources}
    (h : Resolved c links s)
    {d : DeclId} {id : Identity} (haccess : isParentAccess c id = true)
    (hid : id ∈ (c.sources.get d).fields.map Field.id) :
    id ∈ (s.get d).fields.map Field.id := by
  have hids := map_eq_of_map_eq (f := fun f : Field => f.outline fun t => t)
    (k := Field.id) (p := Field.id) (fun _ => rfl)
    (TypeDecl.fields_of_outline (h.outline d))
  rw [hids]
  unfold resolved
  split
  · obtain ⟨field, hfield, rfl⟩ := List.mem_map.1 hid
    exact List.mem_map.2
      ⟨field, List.mem_filter.2 ⟨hfield, by rw [haccess, Bool.or_true]⟩, rfl⟩
  · exact hid

/-- The resolution of references leaves the way. -/
theorem Navigable.resolveReferences (h : Navigable c) :
    Ensures resolveReferences c fun _ c' => Navigable c' := by
  refine resolveReferences_resolved.mono ?_
  rintro _ _ ⟨s, rfl, hr⟩
  refine ⟨h.formed.sameHeads hr.sameHeads, h.pathed, h.separates,
    fun n p f hp hf => ?_⟩
  obtain ⟨haccess, hid⟩ := h.anchored n p f hp hf
  refine ⟨haccess, ?_⟩
  obtain ⟨leaf, hleaf, link, hlink, hid⟩ := mem_gathered.1 hid
  refine mem_gathered.2 ⟨leaf, hleaf, link, ?_, hr.mem_ids haccess hid⟩
  rw [hr.sameHeads.extensionChain]
  exact hlink

-- =============================================================== following it

/-- That a field reference leads from a type to one nested in it: the first
field of its identity is final and of this type. -/
structure LeadsInto (outer : TypeDecl) (f : FieldRef) (inner : TypeDecl) :
    Prop where
  nested : inner ∈ outer.nested
  field : ∃ field, outer.fields.find? (·.id == f.identity) = some field
    ∧ field.modifiers.isFinal = true ∧ field.type = .named inner.name

/-- That field references can be followed from the merged type of `n` to
that of another node, through the merged types of the nodes between. -/
inductive Follows (c : Compilation) (n : CompositionId) :
    List FieldRef → CompositionId → Prop
  | here {d : TypeDecl} : mergedType? c n = some d → Follows c n [] n
  | step {fs : List FieldRef} {f : FieldRef} {p m : CompositionId}
      {outer inner : TypeDecl} :
      Follows c n fs p → mergedType? c p = some outer →
        mergedType? c m = some inner →
      LeadsInto outer f inner → Follows c n (fs ++ [f]) m

/-- The fields that lead to the children of a node have different
identities. -/
theorem Navigable.pairwise (h : Navigable c) {s : Sources}
    {cs : List CompositionId} {children : List (TypeDecl × FieldRef)}
    (hchildren : List.Forall₂
      (fun child q => (c.tree.get child).parentAccess = some q.2
        ∧ Joins { c with sources := s } child q.1) cs children)
    (hcs : ∀ m ∈ cs, (c.tree.get m).parent = some p) (hnodup : cs.Nodup) :
    children.Pairwise fun q r => q.2.identity ≠ r.2.identity := by
  induction hchildren with
  | nil => exact .nil
  | @cons m q cs children hq hrest ih =>
      obtain ⟨hm, hcs⟩ := List.forall_mem_cons.1 hcs
      obtain ⟨hfresh, hnodup⟩ := List.nodup_cons.1 hnodup
      refine .cons (fun r hr hid => ?_) (ih hcs hnodup)
      obtain ⟨i, hi, rfl⟩ := List.mem_iff_getElem.1 hr
      have hi' : i < cs.length := hrest.length_eq ▸ hi
      have hmem : cs[i] ∈ cs := List.getElem_mem hi'
      have heq := h.separates m cs[i] p _ _ hm (hcs _ hmem) hq.1
        (hrest.get hi' hi).1 hid
      exact hfresh (heq ▸ hmem)

/-- Once the tree is merged, every parent access leads from the type of the
parent to that of the child. -/
theorem Navigable.leadsInto {s : Sources} {d : TypeDecl} {f : FieldRef}
    (h : Navigable c)
    (hmerged : MergedTree c s d c') (hp : (c.tree.get m).parent = some p)
    (hf : (c.tree.get m).parentAccess = some f) :
    ∃ outer inner, mergedType? c' p = some outer
      ∧ mergedType? c' m = some inner
      ∧ LeadsInto outer f inner := by
  have hchild : m ∈ c.tree.children p := mem_children.2 ⟨lt_of_parent hp, hp⟩
  obtain ⟨made, hmade⟩ :=
    hmerged.joins.all (c := { c with sources := s }) h.formed p.index
    (Nat.lt_trans (h.formed.parent_lt hp) (lt_of_parent hp))
  obtain ⟨inner, _, hinner, -⟩ := Joins.below hmade hchild
  have hne : m ≠ Composition.root := fun e => by
    rw [e, h.formed.root] at hp
    cases hp
  obtain ⟨outer, houter, hfields, hnested, -, -⟩ :=
    hmerged.exists_mergedType? h.formed hmade
  refine ⟨outer, inner, houter, hmerged.mergedType?_of_ne hne hinner, ?_⟩
  obtain ⟨own, children, hown, hchildren, rfl⟩ := hmade.eq_nestAll
  have hmem : (inner, f) ∈ children :=
    mem_of_forall₂ hchildren hchild hinner hf
  refine ⟨?_, ?_⟩
  · rw [hnested, (nestAll_rest own children).2.2]
    exact List.mem_append_right _ (List.mem_map.2 ⟨_, hmem, rfl⟩)
  · have hpairwise : children.Pairwise fun q r =>
        q.2.identity ≠ r.2.identity :=
      h.pairwise hchildren (fun m hm => (mem_children.1 hm).2)
        (nodup_ids.filter _)
    rw [hfields]
    refine find?_nestAll (p := (inner, f)) hpairwise hmem ?_
    -- the field that the links had is among the fields of the own type
    obtain ⟨-, hid⟩ := h.anchored m p f hp hf
    have hids : own.fields.map Field.id
        = (gathered c p TypeDecl.fields).map Field.id :=
      map_eq_of_map_eq (p := Field.id) (fun _ => by rfl)
        (hmerged.own_eq_ok h.formed hown).1
    rw [← map_gathered, ← hids] at hid
    exact List.mem_map.1 hid

/-- Once the tree is merged, an access leads from type to type to that of
its target. -/
theorem Navigable.follows {s : Sources} {d : TypeDecl} {fs : List FieldRef}
    (h : Navigable c)
    (hmerged : MergedTree c s d c') (hn : n.index < c.tree.nodes.length)
    (hdown : Descends c'.tree n fs m) : Follows c' n fs m := by
  induction hdown with
  | here =>
      obtain ⟨made, hmade⟩ :=
        hmerged.joins.all (c := { c with sources := s }) h.formed n.index hn
      obtain ⟨type, htype, -⟩ := hmerged.exists_mergedType? h.formed hmade
      exact .here htype
  | down _ hp hf ih =>
      rw [hmerged.form.parent] at hp
      rw [hmerged.parentAccess] at hf
      obtain ⟨outer, inner, houter, hinner, hleads⟩ :=
        h.leadsInto hmerged hp hf
      exact ih.step houter hinner hleads

/-- That an access is made of field references that can be followed from the
nearest node around both to its target. -/
def Followable (c : Compilation) (source target : CompositionId) : Prop :=
  ∃ fs, (∀ names : Sources, c.tree.access names source target
      = fs.foldl (fun e f => .field (some e) f)
          (.self (c.tree.declNames names
            (c.tree.nearestEnclosing source target)).head?))
    ∧ Follows c (c.tree.nearestEnclosing source target) fs target

/-- That merged types are nested like their nodes, and every access can be
followed in them. -/
structure Accessible (c : Compilation) : Prop where
  nested : ∀ n : CompositionId, n.index < c.tree.nodes.length →
    n ≠ Composition.root →
    ∃ p outer inner, (c.tree.get n).parent = some p
      ∧ mergedType? c p = some outer
      ∧ mergedType? c n = some inner ∧ inner ∈ outer.nested
  followable : ∀ source target : CompositionId,
    source.index < c.tree.nodes.length →
    target.index < c.tree.nodes.length → Followable c source target

/-- Merging the tree leads along the way. -/
theorem mergeTree_accessible (h : Navigable c) :
    Ensures mergeTree c fun _ c' => Accessible c' := by
  refine (mergeTree_merged h.formed).mono fun _ c' ⟨s, d, hmerged⟩ => ?_
  have ht := hmerged.form.formed h.formed
  refine ⟨fun n hn hne => ?_, fun source target hsource htarget => ?_⟩
  · obtain ⟨p, hp, -⟩ := ht.parent n hn hne
    have hp₀ : (c.tree.get n).parent = some p :=
      (hmerged.form.parent n).symm.trans hp
    obtain ⟨f, hf, -⟩ := h.pathed.child n p hp₀
    obtain ⟨outer, inner, houter, hinner, hleads⟩ := h.leadsInto hmerged hp₀ hf
    exact ⟨p, outer, inner, hp, houter, hinner, hleads.nested⟩
  · have hpathed :=
      h.pathed.congr hmerged.form hmerged.parentAccess hmerged.path
    have hseparates := h.separates.congr hmerged.form hmerged.parentAccess
    obtain ⟨fs, hdown, haccess⟩ :=
      hpathed.access_descends ht hseparates.branches hsource htarget
    obtain ⟨henclosing, -⟩ := hpathed.nearestEnclosing_spec ht hsource target
    rw [hmerged.form.length] at henclosing
    exact ⟨fs, haccess, h.follows hmerged henclosing hdown⟩

/-- Let no field be offered as a parent access beforehand, and let the
reference fields of links have the identities derived from their
declarations, no two the same one. If references are bound and resolved and
the tree is merged, with any other passes before, between and after, then
the merged type of every node but the root is nested in that of its parent,
and every access leads from type to type, from the merged type of the
nearest node around both to that of its target. -/
theorem mergeTree_follows {bound : Analysis.ReferenceReport}
    {references : ReferenceReport} {merged : MergeReport}
    {c₃ c₄ c₅ c₆ : Compilation}
    (htree : Built c₀.sources c₀.tree) (hbefore : Passes c₀ c₁)
    (hfree : ∀ n, (c₁.tree.get n).parentAccess = none)
    (hreferable : Analysis.Referable c₁)
    (hbind : Analysis.bindReferences.runOn c₁ = (.ok bound, c₂))
    (hbetween : Passes c₂ c₃)
    (hresolve : resolveReferences.runOn c₃ = (.ok references, c₄))
    (hafter : Passes c₄ c₅)
    (hmerge : mergeTree.runOn c₅ = (.ok merged, c₆)) : Accessible c₆ := by
  have hkept := Passes.kept hbefore
  have ht : Formed c₁.sources c₁.tree :=
    hkept.tree.form.formed (htree.formed.sameHeads hkept.heads)
  have h₂ := bindReferences_navigable ht hfree hreferable _ _ hbind
  have h₃ := h₂.kept (Passes.kept hbetween)
  have h₄ := h₃.resolveReferences _ _ hresolve
  exact mergeTree_accessible (h₄.kept (Passes.kept hafter)) _ _ hmerge

-- ==================================================================== a house

/-- A house with a room and, from the class above it, a cellar; the room has
a lamp that is lit after the cellar is dug. -/
def houseSources : Sources :=
  let reference (name type : String) : Field :=
    { name, type := .named type, markers := [.reference] }
  let state (name : String) : Field :=
    { name, type := .int, init := some (.literal (.int (-1))) }
  let dug : Expr :=
    .field (some (.field none ⟨"Site", "cellar"⟩)) ⟨"Cellar", "depth"⟩
  let initLight : Method :=
    { name := "initLight", returns := .void
      body := some [.expr (.assign none (.field none ⟨"Lamp", "light"⟩) dug)] }
  let above : TypeDecl :=
    { TypeDecl.participating "Site" with
      fields := [reference "cellar" "Cellar"] }
  let house : TypeDecl :=
    { TypeDecl.participating "House" with
      superclass := some (.named "Site"), fields := [reference "room" "Room"] }
  let room : TypeDecl :=
    { TypeDecl.participating "Room" with fields := [reference "lamp" "Lamp"] }
  let lamp : TypeDecl :=
    { TypeDecl.participating "Lamp" with
      fields := [state "light", reference "site" "Site"], methods :=
        [initLight] }
  let cellar : TypeDecl :=
    { TypeDecl.participating "Cellar" with fields := [state "depth"] }
  { decls := [above, house, room, lamp, cellar].map TypeDecl.assignIdentities }

/-- The house at the root, with the room and the cellar below it, and the
lamp below the room. -/
def houseTree : Composition :=
  { nodes := [{ decls := [⟨1⟩] }, { parent := some ⟨0⟩, decls := [⟨2⟩] },
      { parent := some ⟨1⟩, decls := [⟨3⟩] },
      { parent := some ⟨0⟩, decls := [⟨4⟩] }]
    leafNodes := [(⟨1⟩, ⟨0⟩), (⟨2⟩, ⟨1⟩), (⟨3⟩, ⟨2⟩), (⟨4⟩, ⟨3⟩)]
    linkNodes := [(⟨1⟩, ⟨0⟩), (⟨0⟩, ⟨0⟩), (⟨2⟩, ⟨1⟩), (⟨3⟩, ⟨2⟩), (⟨4⟩, ⟨3⟩)] }

theorem built_houseTree : Built houseSources houseTree := by
  have hstart : Built houseSources {} := .start
  have hroom := hstart.child (p := Composition.root) (by decide)
  have hlamp := hroom.child (p := ⟨1⟩) (by decide)
  have hcellar := hlamp.child (p := Composition.root) (by decide)
  exact (((hcellar.add (n := ⟨0⟩) (d := ⟨1⟩) (by decide) rfl).add
    (n := ⟨1⟩) (d := ⟨2⟩) (by decide) rfl).add (n := ⟨2⟩) (d := ⟨3⟩)
    (by decide) rfl).add (n := ⟨3⟩) (d := ⟨4⟩) (by decide) rfl

/-- The house before anything is known of it. -/
def house : Compilation := { sources := houseSources, tree := houseTree }

/-- The house with its references bound. -/
def boundHouse : Compilation := (Analysis.bindReferences.runOn house).2

/-- The house with guards and lifecycle. -/
def preparedHouse : Compilation :=
  let discovered := (Analysis.discoverNodes.runOn boundHouse).2
  (Lifecycle.prepareNodes.runOn (Lifecycle.guardNodes.runOn discovered).2).2

theorem parentAccess_house (n : CompositionId) :
    (house.tree.get n).parentAccess = none := by
  rcases n with ⟨_ | _ | _ | _ | i⟩ <;> rfl

theorem referable_house : Analysis.Referable house :=
  ⟨by decide +kernel, by decide +kernel⟩

theorem bindReferences_house :
    ∃ bound, Analysis.bindReferences.runOn house = (.ok bound, boundHouse) :=
  exists_runOn_eq (by decide +kernel)

theorem passes_house : Passes boundHouse preparedHouse := by
  obtain ⟨nodes, hnodes⟩ :=
    exists_runOn_eq (x := Analysis.discoverNodes) (c := boundHouse)
      (by decide +kernel)
  obtain ⟨guards, hguard⟩ := exists_runOn_eq (x := Lifecycle.guardNodes)
    (c := (Analysis.discoverNodes.runOn boundHouse).2) (by decide +kernel)
  obtain ⟨made, hprepare⟩ := exists_runOn_eq (x := Lifecycle.prepareNodes)
    (c := (Lifecycle.guardNodes.runOn
      (Analysis.discoverNodes.runOn boundHouse).2).2)
    (by decide +kernel)
  exact ((Relation.ReflTransGen.single (.discover hnodes)).tail
    (.guard hguard)).tail (.prepare hprepare)

/-- From the lamp the cellar can be accessed. -/
theorem mergeTree_follows_house : ∃ bound references merged c₁ c₂ c₃ c₄ c,
    Analysis.bindReferences.runOn
      { sources := houseSources, tree := houseTree } = (.ok bound, c₁)
      ∧ Passes c₁ c₂ ∧ resolveReferences.runOn c₂ = (.ok references, c₃)
      ∧ Passes c₃ c₄
      ∧ mergeTree.runOn c₄ = (.ok merged, c) ∧ Accessible c
      ∧ Followable c ⟨2⟩ ⟨3⟩ := by
  obtain ⟨bound, hbind⟩ := bindReferences_house
  obtain ⟨references, hresolve⟩ :=
    exists_runOn_eq (x := resolveReferences) (c := preparedHouse)
      (by decide +kernel)
  let c₅ := (resolveReferences.runOn preparedHouse).2
  let c₆ := (Lifecycle.addGlobalClose.runOn c₅).2
  obtain ⟨closed, hclose⟩ :=
    exists_runOn_eq (x := Lifecycle.addGlobalClose) (c := c₅)
      (by decide +kernel)
  obtain ⟨merged, hmerge⟩ :=
    exists_runOn_eq (x := mergeTree) (c := c₆) (by decide +kernel)
  have hafter : Passes c₅ c₆ := .single (.close hclose)
  have haccess :=
    mergeTree_follows built_houseTree .refl parentAccess_house
      referable_house hbind
    passes_house hresolve hafter hmerge
  exact ⟨bound, references, merged, boundHouse, preparedHouse, c₅, c₆, _,
    hbind, passes_house, hresolve, hafter, hmerge, haccess,
    haccess.followable ⟨2⟩ ⟨3⟩ (by decide +kernel) (by decide +kernel)⟩

-- ================================================================== lost ways

/-- An access tells which fields it goes through. -/
theorem foldl_field_injective {fs gs : List FieldRef} {q r : Option String}
    (h : fs.foldl (fun e f => Expr.field (some e) f) (.self q)
      = gs.foldl (fun e f => .field (some e) f) (.self r)) : fs = gs := by
  induction fs using List.reverseRecOn generalizing gs with
  | nil =>
      rcases List.eq_nil_or_concat gs with rfl | ⟨gs, g, rfl⟩
      · rfl
      · simp at h
  | append_singleton fs f ih =>
      rcases List.eq_nil_or_concat gs with rfl | ⟨gs, g, rfl⟩
      · simp at h
      · rw [List.concat_eq_append] at h ⊢
        rw [List.foldl_append, List.foldl_append] at h
        obtain ⟨he, rfl⟩ := Expr.field.inj h
        rw [ih (Option.some.inj he)]

theorem Follows.eq_of_nil (h : Follows c n [] m) : m = n := by
  generalize hfs : ([] : List FieldRef) = fs at h
  cases h with
  | here => rfl
  | step => exact absurd hfs.symm (List.append_ne_nil_of_right_ne_nil _
      (List.cons_ne_nil _ _))

/-- Following one reference ends at the type that the field has by then. -/
theorem Follows.type_eq {f : FieldRef} (h : Follows c n [f] m) :
    ((mergedType? c n).bind fun d => d.fields.find? (·.id == f.identity)).map
      Field.type
      = (mergedType? c m).map fun d => .named d.name := by
  generalize hfs : [f] = fs at h
  cases h with
  | here => cases hfs
  | step hbefore houter hinner hleads =>
      obtain ⟨rfl, hf⟩ :=
        List.append_inj' ((List.nil_append [f]).trans hfs) rfl
      obtain rfl := (List.cons.inj hf).1
      obtain rfl := hbefore.eq_of_nil
      obtain ⟨field, hfield, -, htype⟩ := hleads.field
      rw [houter, hinner, Option.bind_some, hfield, Option.map_some,
        Option.map_some, htype]

/-- That an access from the root to its first child cannot be followed,
though no field was offered beforehand. -/
def LosesWay (s : Sources) (t : Composition) : Prop :=
  Built s t ∧ (∀ n, (t.get n).parentAccess = none)
    ∧ ∃ bound references merged c₁ c₂ c,
      Analysis.bindReferences.runOn { sources := s, tree := t }
        = (.ok bound, c₁)
        ∧ resolveReferences.runOn c₁ = (.ok references, c₂)
        ∧ mergeTree.runOn c₂ = (.ok merged, c)
        ∧ ¬ Followable c Composition.root ⟨1⟩

/-- What the three passes leave. -/
def mergedOf (s : Sources) (t : Composition) : Compilation :=
  let c := (Analysis.bindReferences.runOn { sources := s, tree := t }).2
  (mergeTree.runOn (resolveReferences.runOn c).2).2

theorem losesWay_of_type_ne {s : Sources} {t : Composition} (f : FieldRef)
    (ht : Built s t) (hfree : ∀ n, (t.get n).parentAccess = none)
    (hruns : let c := Analysis.bindReferences.runOn { sources := s, tree := t }
      c.1.isOk = true ∧ (resolveReferences.runOn c.2).1.isOk = true
        ∧ (mergeTree.runOn (resolveReferences.runOn c.2).2).1.isOk = true)
    (hway : let tree := (mergedOf s t).tree
      tree.nearestEnclosing Composition.root ⟨1⟩ = Composition.root
        ∧ (tree.get Composition.root).path = [] ∧ (tree.get ⟨1⟩).path = [f])
    (htype : ((mergedType? (mergedOf s t) Composition.root).bind
        fun d => d.fields.find? (·.id == f.identity)).map Field.type
      ≠ (mergedType? (mergedOf s t) ⟨1⟩).map fun d => .named d.name) :
    LosesWay s t := by
  obtain ⟨bound, hbind⟩ := exists_runOn_eq hruns.1
  obtain ⟨references, hresolve⟩ := exists_runOn_eq hruns.2.1
  obtain ⟨merged, hmerge⟩ := exists_runOn_eq hruns.2.2
  refine ⟨ht, hfree, bound, references, merged, _, _, mergedOf s t, hbind,
    hresolve, hmerge, ?_⟩
  obtain ⟨hnearest, hroot, hpath⟩ := hway
  rintro ⟨fs, haccess, hfollows⟩
  have hfold := haccess {}
  unfold Composition.access at hfold
  dsimp only at hfold
  rw [hnearest, hpath, hroot, List.length_nil, List.drop_zero] at hfold
  rw [← foldl_field_injective hfold, hnearest] at hfollows
  exact htype hfollows.type_eq

/-- A type with two children, both of which it refers to by fields of one
name. -/
def sameNamedSources : Sources :=
  let reference (type : String) : Field :=
    { name := "part", type := .named type, markers := [.reference] }
  let whole : TypeDecl :=
    { TypeDecl.participating "Whole" with
      fields := [reference "A", reference "B"] }
  { decls := [whole, .participating "A",
    .participating "B"].map TypeDecl.assignIdentities }

def sameNamedTree : Composition :=
  { nodes := [{ decls := [⟨0⟩] }, { parent := some ⟨0⟩, decls := [⟨1⟩] },
      { parent := some ⟨0⟩, decls := [⟨2⟩] }]
    leafNodes := [(⟨0⟩, ⟨0⟩), (⟨1⟩, ⟨1⟩), (⟨2⟩, ⟨2⟩)]
    linkNodes := [(⟨0⟩, ⟨0⟩), (⟨1⟩, ⟨1⟩), (⟨2⟩, ⟨2⟩)] }

/-- A type with one child, which it refers to by a field that carries the
identity of another name. -/
def renamedSources : Sources :=
  let part : Field :=
    { name := "part", id := .ofField "Whole" "other", type := .named "A",
      markers := [.reference] }
  { decls := [{ TypeDecl.participating "Whole" with fields := [part] },
    .participating "A"] }

def renamedTree : Composition :=
  { nodes := [{ decls := [⟨0⟩] }, { parent := some ⟨0⟩, decls := [⟨1⟩] }]
    leafNodes := [(⟨0⟩, ⟨0⟩), (⟨1⟩, ⟨1⟩)]
    linkNodes := [(⟨0⟩, ⟨0⟩), (⟨1⟩, ⟨1⟩)] }

/-- Of two fields with one identity the first takes the type of each child
in turn. A field whose identity is not that of its name is dropped before
its child is nested. -/
theorem mergeTree_loses_way :
    LosesWay sameNamedSources sameNamedTree
      ∧ LosesWay renamedSources renamedTree := by
  have hwhole : ∀ {s : Sources},
      Built s (Composition.createChild {} Composition.root).2 :=
    Built.start.child (by decide)
  refine ⟨losesWay_of_type_ne ⟨"Whole", "part"⟩ ?_ ?_ (by decide +kernel)
      (by decide +kernel) (by decide +kernel),
    losesWay_of_type_ne ⟨"Whole", "part"⟩ ?_ ?_ (by decide +kernel)
    (by decide +kernel)
      (by decide +kernel)⟩
  · exact (((hwhole.child (p := Composition.root) (by decide)).add
      (n := ⟨0⟩) (d := ⟨0⟩) (by decide) rfl).add (n := ⟨1⟩) (d := ⟨1⟩)
      (by decide) rfl).add (n := ⟨2⟩) (d := ⟨2⟩) (by decide) rfl
  · rintro ⟨_ | _ | _ | i⟩ <;> rfl
  · exact (hwhole.add (n := ⟨0⟩) (d := ⟨0⟩) (by decide) rfl).add
      (n := ⟨1⟩) (d := ⟨1⟩) (by decide) rfl
  · rintro ⟨_ | _ | i⟩ <;> rfl

end Merge

end Stagewise
