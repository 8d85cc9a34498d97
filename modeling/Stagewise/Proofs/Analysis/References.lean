/-
Where reference fields lead, and which of them become parent accesses.

Every turn of the binding resolves one field: it leads to its only
candidate, and may become the parent access of the candidate's node
(`Referenced`). So once all fields are bound, each leads to a leaf, and a
parent access leads to the child that it was offered to. Where reference
fields have the identities derived from their declarations and no two have
the same one (`Referable`), a parent access is still known by its identity:
it tells the children of a node apart (`Referenced.separates`), and it is
what the later removal of reference fields spares
(`Referenced.isParentAccess`).
-/
import Stagewise.Merge.References
import Stagewise.Proofs.Analysis.Discovery
import Stagewise.Proofs.Composition.Paths

namespace Stagewise

namespace Analysis

open Compilation Step Stagewise.Composition

variable {c c' c₀ : Compilation} {site : ReferenceSite}
variable {sites : List ReferenceSite}
variable {leaf link : DeclId}

/-- A site is a reference field of a link, at the node of the leaf. -/
theorem mem_referenceSites : site ∈ referenceSites c ↔
    ∃ leaf ∈ c.tree.leaves, c.tree.nodeOfLeaf? leaf = some site.node
      ∧ ∃ link ∈ c.sources.extensionChain leaf,
      site.owner = c.sources.name link
        ∧ site.field ∈ (c.sources.get link).fields
        ∧ site.field.isReference = true := by
  unfold referenceSites chains referenceFields
  simp only [List.mem_flatMap, List.mem_map, Option.mem_toList,
    List.mem_filter]
  constructor
  · rintro ⟨_, ⟨leaf, hleaf, rfl⟩, n, hn, link, hlink, f,
      ⟨hf, hreference⟩, rfl⟩
    exact ⟨leaf, hleaf, hn, link, hlink, rfl, hf, hreference⟩
  · rintro ⟨leaf, hleaf, hn, link, hlink, howner, hf, hreference⟩
    refine ⟨_, ⟨leaf, hleaf, rfl⟩, _, hn, link, hlink, site.field,
      ⟨hf, hreference⟩, ?_⟩
    rw [← howner]

theorem referenceSites_congr (hs : c'.sources = c.sources)
    (ht : SameForm c.tree c'.tree) :
    referenceSites c' = referenceSites c := by
  have hnode : c'.tree.nodeOfLeaf? = c.tree.nodeOfLeaf? :=
    funext ht.nodeOfLeaf?
  unfold referenceSites chains referenceFields
  rw [hs, ht.leaves, hnode]

/-- That the reference fields of the links have the identities derived from
their declarations, and that no two have the same one. -/
structure Referable (c : Compilation) : Prop where
  derived : ∀ site ∈ referenceSites c,
    site.field.id = (site.field.ref site.owner).identity
  distinct : ((referenceSites c).map fun site => site.field.id).Nodup

/-- A reference field is known by its identity. -/
theorem Referable.eq_of_id (h : Referable c) {site site' : ReferenceSite}
    (hsite : site ∈ referenceSites c) (hsite' : site' ∈ referenceSites c)
    (hid : site.field.id = site'.field.id) : site = site' :=
  List.inj_on_of_nodup_map h.distinct hsite hsite' hid

-- ==================================================================== turns

/-- What holds in the binding of references over `c₀`, when the turns of
some sites have been. -/
structure Referenced (c₀ : Compilation) (sites : List ReferenceSite)
    (c : Compilation) :
    Prop where
  sources : c.sources = c₀.sources
  form : SameForm c₀.tree c.tree
  interfaces : ∀ n, (c.tree.get n).interfaceMethods
  = (c₀.tree.get n).interfaceMethods
  /-- A field leads to the only candidate of a field with its identity. -/
  bound : ∀ site ∈ sites, ∃ leaf,
    c.bindings.referenced? site.field.id = some leaf
    ∧ ∃ site' ∈ sites, site'.field.id = site.field.id
    ∧ candidates c₀ site'.field = [leaf]
  /-- A parent access leads from a child's parent to the child. -/
  access : ∀ n f, (c.tree.get n).parentAccess = some f →
    (c₀.tree.get n).parentAccess = some f
      ∨ ∃ site ∈ sites, f = site.field.ref site.owner
        ∧ (c₀.tree.get n).parent = some site.node
        ∧ ∃ leaf, candidates c₀ site.field = [leaf]
        ∧ c₀.tree.nodeOfLeaf? leaf = some n

theorem candidates_congr (hs : c'.sources = c.sources)
    (hl : c'.tree.leaves = c.tree.leaves)
    (f : Field) : candidates c' f = candidates c f := by
  unfold candidates
  rw [hs, hl]

/-- Binding one more field, wherever it leads, to its only candidate. -/
theorem Referenced.bindReference (h : Referenced c₀ sites c)
    (hleaf : candidates c₀ site.field = [leaf]) :
    Referenced c₀ (sites ++ [site])
      { c with bindings := c.bindings.bindReference site.field.id leaf } := by
  have hlast : site ∈ sites ++ [site] :=
    List.mem_append_right _ (List.mem_singleton_self _)
  refine ⟨h.sources, h.form, h.interfaces, ?_, fun n f hf => ?_⟩
  · refine List.forall_mem_append.2 ⟨fun site' hsite' => ?_,
      List.forall_mem_singleton.2 ?_⟩
    · rw [Bindings.referenced?_bindReference]
      split
      · rename_i he
        exact ⟨leaf, rfl, site, hlast, he.symm, hleaf⟩
      · obtain ⟨leaf', hbound, site'', hsite'', hrest⟩ := h.bound site' hsite'
        exact ⟨leaf', hbound, site'', List.mem_append_left _ hsite'', hrest⟩
    · rw [Bindings.referenced?_bindReference, if_pos rfl]
      exact ⟨leaf, rfl, site, hlast, rfl, hleaf⟩
  · exact (h.access n f hf).imp_right fun ⟨site', hsite', hrest⟩ =>
      ⟨site', List.mem_append_left _ hsite', hrest⟩

/-- Offering the last field bound to the child that it leads to. -/
theorem Referenced.offer (h : Referenced c₀ (sites ++ [site]) c)
    {child : CompositionId}
    (hleaf : candidates c₀ site.field = [leaf])
    (hchild : c₀.tree.nodeOfLeaf? leaf = some child)
    (hparent : (c₀.tree.get child).parent = some site.node) :
    Referenced c₀ (sites ++ [site]) { c with
      tree := (c.tree.offerParentAccess child
          (site.field.ref site.owner)).2 } := by
  unfold Composition.offerParentAccess
  split
  · exact h
  refine ⟨h.sources,
    h.form.trans (.modify child _ (fun _ => rfl) fun _ => rfl),
    fun n => ?_, h.bound, fun n f hf => ?_⟩
  · have hsame := get_modify_congr (t := c.tree) (n := child)
      (g := CompositionNode.interfaceMethods)
      (f := fun x => { x with
      parentAccess := some (site.field.ref site.owner) }) (fun _ => rfl) n
    exact Eq.trans hsame (h.interfaces n)
  · by_cases hn : n = child
    · subst hn
      rcases Nat.lt_or_ge n.index c.tree.nodes.length with hlt | hge
      · rw [get_modify_self hlt] at hf
        exact Or.inr
          ⟨site, List.mem_append_right _ (List.mem_singleton_self _),
            (Option.some.inj hf).symm, hparent, leaf, hleaf, hchild⟩
      · rw [get_of_length_le (by rwa [length_modify])] at hf
        cases hf
    · rw [get_modify_of_ne hn] at hf
      exact h.access n f hf

/-- A turn binds its field and may offer it. -/
theorem bindReference_referenced (h : Referenced c₀ sites c) :
    Ensures (bindReference site) c fun _ c' =>
      Referenced c₀ (sites ++ [site]) c' := by
  unfold Analysis.bindReference
  simp only [ensures_bind, ensures_get]
  rw [candidates_congr h.sources h.form.leaves]
  split
  · rename_i leaf hleaf
    simp only [ensures_bind, ensures_modifyBindings]
    have hbound := h.bindReference hleaf
    split
    · rename_i child hchild
      rw [h.form.nodeOfLeaf?] at hchild
      split
      · rename_i hparent
        rw [h.form.parent, beq_iff_eq] at hparent
        simp only [ensures_bind, ensures_modifyTree, ensures_pure]
        exact hbound.offer hleaf hchild hparent
      · exact ensures_pure.2 hbound
    · exact ensures_pure.2 hbound
  · exact ensures_throw

/-- Where references are bound, all of them are, and every node has its
path. -/
theorem bindReferences_referenced (ht : Formed c.sources c.tree) :
    Ensures bindReferences c fun _ c' =>
      Referenced c (referenceSites c) c' ∧ Pathed c'.tree := by
  have hstart : Referenced c [] c :=
    ⟨rfl, .refl _, fun _ => rfl, List.forall_mem_nil _, fun _ _ h => Or.inl h⟩
  unfold bindReferences
  simp only [ensures_bind, ensures_get]
  refine Ensures.mono (ensures_mapM (I := fun done c' => Referenced c done c')
    (fun _ _ _ _ h => bindReference_referenced h) hstart) fun _ c₁ h₁ => ?_
  unfold Analysis.computePaths
  simp only [ensures_bind, ensures_get, ensures_modifyTree, ensures_ofExcept,
    ensures_pure]
  intro _ hpaths
  have hrun : c₁.tree.computePaths c₁.sources
      = (.ok (), (c₁.tree.computePaths c₁.sources).2) := Prod.ext hpaths rfl
  obtain ⟨hre, hpathed⟩ := computePaths_pathed (h₁.form.formed ht) hrun
  refine ⟨⟨h₁.sources, h₁.form.trans hre.form, fun n => ?_, h₁.bound,
    fun n f hf => h₁.access n f ((hre.parentAccess n).symm.trans hf)⟩, hpathed⟩
  have hnode := congrArg CompositionNode.interfaceMethods (hre.node n)
  exact Eq.trans hnode (h₁.interfaces n)

/-- Each reference field leads to a leaf, and so to a node. -/
theorem Referenced.leads (h : Referenced c₀ (referenceSites c₀) c)
    (ht : Formed c₀.sources c₀.tree) (hsite : site ∈ referenceSites c₀) :
    ∃ leaf place, c.bindings.referenced? site.field.id = some leaf
      ∧ c.tree.nodeOf? leaf = some place := by
  obtain ⟨leaf, hbound, site', -, -, hcandidates⟩ := h.bound site hsite
  have hleaf : leaf ∈ candidates c₀ site'.field :=
    hcandidates ▸ List.mem_singleton_self _
  obtain ⟨place, hplace⟩ := Formed.exists_node (List.mem_filter.1 hleaf).1
  refine ⟨leaf, place, hbound, ?_⟩
  rw [h.form.nodeOf?]
  exact ht.nodeOf?_of_leaf hplace

-- ============================================================ parent accesses

section

variable (h : Referenced c₀ (referenceSites c₀) c)
variable (ht : Formed c₀.sources c₀.tree)
variable (hs : Referable c₀) (hfree : ∀ n, (c₀.tree.get n).parentAccess = none)

include h hs hfree in
/-- Parent accesses tell the children of a node apart. -/
theorem Referenced.separates : Separates c.tree := by
  intro n m p f g _ _ hf hg hid
  obtain hf | ⟨site, hsite, rfl, -, leaf, hleaf, hn⟩ := h.access n f hf
  · rw [hfree] at hf
    cases hf
  obtain hg | ⟨site', hsite', rfl, -, leaf', hleaf', hm⟩ := h.access m g hg
  · rw [hfree] at hg
    cases hg
  rw [← hs.derived site hsite, ← hs.derived site' hsite'] at hid
  rw [hs.eq_of_id hsite hsite' hid, hleaf'] at hleaf
  obtain rfl := (List.cons.inj hleaf).1
  exact Option.some.inj (hn.symm.trans hm)

include h ht hs hfree in
/-- A parent access leads to its node still: no other field has its
identity. -/
theorem Referenced.leads_parentAccess {n : CompositionId} {f : FieldRef}
    (hf : (c.tree.get n).parentAccess = some f) :
    ∃ site ∈ referenceSites c₀, f = site.field.ref site.owner
      ∧ (c.tree.get n).parent = some site.node
      ∧ (c.bindings.referenced? f.identity).bind c.tree.nodeOf? = some n := by
  obtain hf' | ⟨site, hsite, rfl, hparent, target, htarget, hn⟩ :=
    h.access n f hf
  · rw [hfree] at hf'
    cases hf'
  refine ⟨site, hsite, rfl, (h.form.parent n).trans hparent, ?_⟩
  obtain ⟨target', hbound, site', hsite', hid', hcandidates⟩ :=
    h.bound site hsite
  rw [hs.eq_of_id hsite' hsite hid', htarget] at hcandidates
  obtain rfl := (List.cons.inj hcandidates).1
  rw [← hs.derived site hsite, hbound, Option.bind_some, h.form.nodeOf?]
  exact ht.nodeOf?_of_leaf (ht.nodeOfLeaf?_eq_some.1 hn)

include h ht hs hfree in
/-- A parent access is a reference field of a link that belongs to the
child's parent, and it is known as a parent access. -/
theorem Referenced.isParentAccess {n p : CompositionId} {f : FieldRef}
    (hp : (c.tree.get n).parent = some p)
    (hf : (c.tree.get n).parentAccess = some f) :
    ∃ leaf link field, leaf ∈ (c.tree.get p).decls
      ∧ link ∈ c₀.sources.extensionChain leaf
      ∧ field ∈ (c₀.sources.get link).fields
      ∧ field.ref (c₀.sources.name link) = f
      ∧ field.id = f.identity ∧ Merge.isParentAccess c field.id = true := by
  obtain ⟨site, hsite, rfl, hparent, hleads⟩ :=
    h.leads_parentAccess ht hs hfree hf
  have hid := hs.derived site hsite
  obtain ⟨leaf, hleaf, hnode, link, hlink, howner, hfield, -⟩ :=
    mem_referenceSites.1 hsite
  obtain rfl : site.node = p := by
    rw [hparent] at hp
    exact Option.some.inj hp
  refine ⟨leaf, link, site.field, ?_, hlink, hfield, by rw [howner], hid, ?_⟩
  · rw [h.form.decls]
    exact ht.mem_decls.2 (ht.nodeOfLeaf?_eq_some.1 hnode)
  · unfold Merge.isParentAccess
    rw [hid, hleads, Option.any_some, hf, Option.any_some]
    exact beq_self_eq_true _

end

end Analysis

end Stagewise
