/-
A compilation loses no member and makes none twice.

Members are told apart by their identities. Adding guards and lifecycle
only adds methods, and drops reference fields (`addLifecycle_gains`). Every
link is folded into its leaf, and every leaf is merged into the type of its
composition node (`Merge.Joins.memberIds`), which is completed by getters
(`Output.memberIds_finished`). So what is in the result was declared or is
added (`Produces.memberIds_subperm`), and what is declared is in the type
of its node, unless the folding hides it (`compile_conserves`).
-/
import Mathlib.Data.List.Flatten
import Stagewise.Proofs.Lifecycle.Gains
import Stagewise.Proofs.Output.Members

namespace Stagewise

open Stagewise.Composition Merge Output Step

variable {sources : Sources} {tree : Composition} {options : Options}

-- ============================================================== what there is

/-- The identities of all declared members. -/
def Sources.memberIds (s : Sources) : List Identity :=
  s.decls.flatMap TypeDecl.memberIds

/-- The identities of the declared methods that are static or concrete. -/
def Sources.lastingIds (s : Sources) : List Identity :=
  s.decls.flatMap fun d => (d.methods.filter Method.isLasting).map Method.id

/-- The compilation of declarations when their merging starts. -/
def withLifecycle (sources : Sources) (tree : Composition)
    (options : Options) : Compilation :=
  (addLifecycle.runOn (analyse.runOn { sources, tree, options }).2).2

/-- The identities of the methods that a compilation adds: those that
declarations have when their merging starts, and the getters of the merged
types. -/
def addedIds (sources : Sources) (tree : Composition) (options : Options) :
    List Identity :=
  let c := withLifecycle sources tree options
  sources.ids.flatMap (fun n => gained (sources.get n) (c.sources.get n))
    ++ (placedType? c).toList.flatMap fun d => getterIds (orderFinals d).root

/-- That the members of a link are in a merged type once each: in `type`,
and its nested types in those of `type`. Abstract methods do not matter,
and dropped reference fields are nowhere. -/
structure Conserves (c : Compilation) (merged type link : TypeDecl) :
    Prop where
  fields : ∀ f ∈ link.fields, f.isReference = false
    ∨ isParentAccess c f.id = true →
    merged.memberIds.count f.id = 1 ∧ f.id ∈ type.fields.map Field.id
  methods : ∀ m ∈ link.methods, m.isLasting = true →
    merged.memberIds.count m.id = 1 ∧ m.id ∈ type.methods.map Method.id
  nested : ∀ inner ∈ link.nested, ∀ id ∈ inner.memberIds,
    merged.memberIds.count id = 1 ∧ id ∈ type.nested.flatMap TypeDecl.memberIds
  dropped : ∀ f ∈ link.fields, f.isReference = true →
    isParentAccess c f.id = false →
    f.id ∉ merged.memberIds

-- ================================================================= two bounds

theorem flatMap_subperm {α β : Type} {f g : α → List β} {as : List α}
    (h : ∀ a ∈ as, (f a).Subperm (g a)) :
    (as.flatMap f).Subperm (as.flatMap g) := by
  induction as with
  | nil => exact .refl _
  | cons a as ih =>
      obtain ⟨ha, has⟩ := List.forall_mem_cons.1 h
      rw [List.flatMap_cons, List.flatMap_cons]
      exact ha.append (ih has)

/-- A member belongs to one declaration. -/
theorem Sources.decl_unique {s : Sources} (h : s.memberIds.Nodup)
    {n m : DeclId} {id : Identity}
    (hn : n.index < s.decls.length) (hm : m.index < s.decls.length)
    (hid : id ∈ (s.get n).memberIds) (hid' : id ∈ (s.get m).memberIds) :
    n = m := by
  have hapart := List.pairwise_iff_getElem.1 (List.nodup_flatMap.1 h).2
  have hgetn : s.get n = s.decls[n.index] := List.getD_eq_getElem _ _ hn
  have hgetm : s.get m = s.decls[m.index] := List.getD_eq_getElem _ _ hm
  rw [hgetn] at hid
  rw [hgetm] at hid'
  rcases Nat.lt_trichotomy n.index m.index with hlt | heq | hgt
  · exact absurd hid' (hapart _ _ hn hm hlt hid)
  · exact congrArg DeclId.mk heq
  · exact absurd hid (hapart _ _ hm hn hgt hid')

/-- Different declarations have different members. -/
theorem Sources.nodup_flatMap_memberIds {s : Sources} (h : s.memberIds.Nodup)
    {ns : List DeclId}
    (hns : ns.Nodup) (hlt : ∀ n ∈ ns, n.index < s.decls.length) :
    (ns.flatMap fun n => (s.get n).memberIds).Nodup := by
  refine List.nodup_flatMap.2 ⟨fun n hn => ?_, hns.imp_of_mem ?_⟩
  · exact (List.nodup_flatMap.1 h).1 _ (get_mem (hlt n hn))
  · intro n m hn hm hne id hid hid'
    exact hne (decl_unique h (hlt n hn) (hlt m hm) hid hid')

theorem memberIds_dropReferences (c : Compilation) (d : TypeDecl) :
    (dropReferences c d).memberIds.Sublist d.memberIds := by
  rw [TypeDecl.memberIds_eq, TypeDecl.memberIds_eq d]
  exact ((List.filter_sublist.map Field.id).append_right _).append_right _

/-- A dropped field is gone, if no other member has its identity. -/
theorem not_mem_memberIds_dropReferences {c : Compilation}
    {d : TypeDecl} {f : Field}
    (h : d.memberIds.Nodup) (hf : f ∈ d.fields) (href : f.isReference = true)
    (haccess : isParentAccess c f.id = false) :
    f.id ∉ (dropReferences c d).memberIds := by
  have hperm : d.memberIds.Perm ((dropReferences c d).memberIds
      ++ (d.fields.filter fun f =>
        !(!f.isReference || isParentAccess c f.id)).map Field.id) := by
    have hfields := (List.filter_append_perm
      (fun f : Field => !f.isReference || isParentAccess c f.id)
      d.fields).symm.map Field.id
    rw [List.map_append] at hfields
    rw [TypeDecl.memberIds_eq, TypeDecl.memberIds_eq (dropReferences c d)]
    refine ((hfields.append_right _).append_right _).trans ?_
    rw [List.perm_iff_count]
    intro id
    simp only [dropReferences, List.count_append]
    omega
  have hdisjoint := (List.nodup_append'.1 (hperm.nodup_iff.1 h)).2.2
  refine fun hmem =>
    hdisjoint hmem (List.mem_map_of_mem (List.mem_filter.2 ⟨hf, ?_⟩))
  rw [href, haccess]
  rfl

-- =========================================================== what is produced

/-- What a successful compilation leaves: up to `c` guards and lifecycle are
added, in `s` the chains are folded into their leaves, and the types made
of them are placed and finished. -/
structure Produces (sources : Sources) (tree : Composition) (c : Compilation)
    (s : Sources) (d placed merged : TypeDecl) : Prop where
  form : SameForm tree c.tree
  heads : Sources.SameHeads sources c.sources
  gains : ∀ leaf ∈ tree.leaves, ∀ link ∈ sources.extensionChain leaf,
    Gains (dropReferences c (sources.get link)) (c.sources.get link)
  folded : ∀ leaf ∈ tree.leaves,
    mergeChain c.sources (sources.extensionChain leaf) = .ok (s.get leaf)
  joins : Joins { c with sources := s } Composition.root d
  placing : placedType? c = some placed
  members : placed.inventory = d.inventory
  finishing : merged = finished placed

/-- A compilation that succeeds does so in three parts: the analysis, the
adding of guards and lifecycle, and the production of the merged type. -/
theorem compile_runs {compiled : Compiled}
    (h : compile sources tree options = .ok compiled) :
    ∃ report c₁ c', analyse.runOn { sources, tree, options } = (.ok report, c₁)
      ∧ addLifecycle.runOn c₁ = (.ok (), withLifecycle sources tree options)
      ∧ produce.runOn (withLifecycle sources tree options)
        = (.ok compiled.merged, c') := by
  have hensures : Ensures compileSteps { sources, tree, options } fun out _ =>
      ∃ report c₁ c', analyse.runOn { sources, tree, options }
        = (.ok report, c₁)
        ∧ addLifecycle.runOn c₁ = (.ok (), withLifecycle sources tree options)
        ∧ produce.runOn (withLifecycle sources tree options)
          = (.ok out.merged, c') := by
    unfold compileSteps
    rw [ensures_bind]
    intro report c₁ hanalyse
    rw [ensures_bind]
    intro _ c₂ hlifecycle
    have hc₂ : withLifecycle sources tree options = c₂ := by
      unfold withLifecycle
      rw [hanalyse, hlifecycle]
    rw [ensures_bind]
    intro merged c' hproduce
    simp only [ensures_bind, ensures_get, ensures_pure]
    exact ⟨report, c₁, c', hanalyse, hc₂ ▸ hlifecycle, hc₂ ▸ hproduce⟩
  exact hensures compiled _ (Prod.ext h rfl)

theorem compile_produces {compiled : Compiled} (ht : Formed sources tree)
    (h : compile sources tree options = .ok compiled) : ∃ s d placed,
      Produces sources tree (withLifecycle sources tree options) s d placed
        compiled.merged := by
  obtain ⟨report, c₁, c', hanalyse, hlifecycle, hproduce⟩ := compile_runs h
  obtain ⟨-, hform, hsources, -⟩ :=
    Analysis.analyse_unmade ht rfl report c₁ hanalyse
  have ht₁ : Formed c₁.sources c₁.tree := hform.formed (hsources ▸ ht)
  obtain ⟨hform₂, hheads, hgains⟩ := addLifecycle_gains ht₁ _ _ hlifecycle
  have ht₂ := hform₂.formed (ht₁.sameHeads hheads)
  obtain ⟨s, d, c₃, placed, hmerged, hplaced, hmembers, hfinished⟩ :=
    produce_answers ht₂ _ c' hproduce
  rw [hsources] at hheads hgains
  rw [hform.leaves] at hgains
  have hleaf := hmerged.leaf
  rw [hform₂.leaves, hform.leaves] at hleaf
  simp only [hheads.extensionChain] at hleaf
  exact ⟨s, d, placed, hform.trans hform₂, hheads, hgains, hleaf,
    hmerged.joins, hplaced, hmembers, hfinished⟩

namespace Produces

variable {c : Compilation} {s : Sources} {d placed merged : TypeDecl}
variable {leaf link : DeclId}
variable (h : Produces sources tree c s d placed merged)
variable (ht : Formed sources tree)

include h ht

/-- All members of the result are those of links, less the dropped fields,
or added. -/
theorem memberIds_subperm : merged.memberIds.Subperm
    ((tree.leaves.flatMap sources.extensionChain).flatMap
        (fun n => (dropReferences c (sources.get n)).memberIds)
      ++ ((tree.leaves.flatMap sources.extensionChain).flatMap
          (fun n => gained (sources.get n) (c.sources.get n))
        ++ getterIds (orderFinals placed).root)) := by
  have hfinished :
      merged.memberIds.Perm
        (d.memberIds ++ getterIds (orderFinals placed).root) := by
    rw [h.finishing, ← TypeDecl.memberIds_of_inventory h.members]
    exact memberIds_finished placed
  have hjoined :=
    Joins.memberIds (c := { c with sources := s }) (h.form.formed ht) h.joins
  rw [show ({ c with sources := s } : Compilation).tree.leaves = tree.leaves
    from h.form.leaves]
    at hjoined
  -- link by link
  have hfolded :
      (tree.leaves.flatMap fun leaf => (s.get leaf).memberIds).Subperm
      ((tree.leaves.flatMap sources.extensionChain).flatMap fun n =>
        (dropReferences c (sources.get n)).memberIds
          ++ gained (sources.get n) (c.sources.get n)) := by
    rw [List.flatMap_assoc]
    refine flatMap_subperm fun leaf hleaf => ?_
    refine (mergeChain_memberIds (h.folded leaf hleaf)).trans
      (List.Perm.subperm ?_)
    exact List.Perm.flatMap_left _ fun link hlink =>
      (h.gains leaf hleaf link hlink).memberIds
  rw [← List.append_assoc]
  refine hfinished.subperm.trans (List.Subperm.append ?_ (.refl _))
  exact (hjoined.subperm.trans hfolded).trans
    (List.flatMap_append_perm ..).symm.subperm

/-- A declared member is in the result at most once, and only if it is not
dropped. -/
theorem count_le_one (hdistinct : sources.memberIds.Nodup)
    (hadded : ∀ id ∈ addedIds sources tree options, id ∉ sources.memberIds)
    (hc : c = withLifecycle sources tree options) {id : Identity}
    (hid : id ∈ sources.memberIds) :
    merged.memberIds.count id ≤ 1 ∧ (id ∈ merged.memberIds →
      ∃ leaf ∈ tree.leaves, ∃ link ∈ sources.extensionChain leaf,
        id ∈ (dropReferences c (sources.get link)).memberIds) := by
  let links := tree.leaves.flatMap sources.extensionChain
  have hlt : ∀ n ∈ links, n.index < sources.decls.length := by
    intro n hn
    obtain ⟨leaf, -, hlink⟩ := List.mem_flatMap.1 hn
    exact Sources.lt_of_link hlink
  have hlinks : links.Nodup := by
    have hapart := ht.apart
    rwa [ht.map_fst_linkNodes] at hapart
  have hkept :
      (links.flatMap fun n =>
        (dropReferences c (sources.get n)).memberIds).Nodup := by
    refine (List.Sublist.flatMap_right _ fun n _ => ?_).nodup
      (Sources.nodup_flatMap_memberIds hdistinct hlinks hlt)
    exact memberIds_dropReferences c _
  have hnew : id
      ∉ (links.flatMap fun n => gained (sources.get n) (c.sources.get n))
      ++ getterIds (orderFinals placed).root := by
    intro hmem
    refine hadded id ?_ hid
    unfold addedIds
    dsimp only
    rw [← hc, h.placing, Option.toList_some, List.flatMap_singleton]
    rw [List.mem_append] at hmem ⊢
    refine hmem.imp_left fun hgained => ?_
    obtain ⟨n, hn, hgained⟩ := List.mem_flatMap.1 hgained
    exact List.mem_flatMap.2
      ⟨n, List.mem_map.2 ⟨_, List.mem_range.2 (hlt n hn), rfl⟩, hgained⟩
  have hsubperm := h.memberIds_subperm ht
  refine ⟨?_, fun hmem => ?_⟩
  · refine (hsubperm.count_le id).trans ?_
    rw [List.count_append, List.count_eq_zero.2 hnew, Nat.add_zero]
    exact List.nodup_iff_count_le_one.1 hkept id
  · have hmem := (List.mem_append.1 (hsubperm.subset hmem)).resolve_right hnew
    obtain ⟨link, hlink, hid⟩ := List.mem_flatMap.1 hmem
    obtain ⟨leaf, hleaf, hlink⟩ := List.mem_flatMap.1 hlink
    exact ⟨leaf, hleaf, link, hlink, hid⟩

/-- In the result the type of the node of a leaf has the members that the
leaf has once its chain is folded. -/
theorem exists_type (hleaf : leaf ∈ tree.leaves) :
    ∃ n type, tree.nodeOfLeaf? leaf = some n
    ∧ IsTypeOf tree merged n type ∧ type.Includes (s.get leaf) := by
  obtain ⟨n, hn⟩ := Formed.exists_node hleaf
  have hlt : n.index < c.tree.nodes.length :=
    h.form.length.symm ▸ ht.place _ hn
  obtain ⟨hjoins, htype⟩ :=
    Joins.isTypeOf (c := { c with sources := s }) (h.form.formed ht)
      h.joins n.index hlt
  have hdecls : leaf ∈ (c.tree.get n).decls := by
    rw [h.form.decls]
    exact ht.mem_decls.2 hn
  have hincludes := hjoins.includes hdecls
  obtain ⟨type, htype, hsame⟩ :=
    finished_includes (htype.sameForm h.form) h.members
  exact ⟨n, type, ht.nodeOfLeaf?_eq_some.2 hn, h.finishing ▸ htype,
    hsame.trans hincludes⟩

omit ht

/-- A folded leaf has the fields of a link, less the dropped ones, and its
nested types. -/
theorem folded_parts (hleaf : leaf ∈ tree.leaves)
    (hlink : link ∈ sources.extensionChain leaf) :
    (dropReferences c (sources.get link)).fields.map Field.id
      ⊆ (s.get leaf).fields.map Field.id
      ∧ (sources.get link).nested.flatMap TypeDecl.memberIds
        ⊆ (s.get leaf).nested.flatMap TypeDecl.memberIds := by
  have hgains := h.gains leaf hleaf link hlink
  obtain ⟨hfields, hnested⟩ := mergeChain_parts (h.folded leaf hleaf)
  constructor
  · rw [hfields, List.map_flatMap, ← hgains.fieldIds]
    exact fun id hid => List.mem_flatMap.2 ⟨link, hlink, hid⟩
  · have hsame : (c.sources.get link).nested.flatMap TypeDecl.memberIds
        = (sources.get link).nested.flatMap TypeDecl.memberIds :=
      TypeDecl.flatMap_memberIds_congr hgains.inventories
    rw [TypeDecl.flatMap_memberIds_congr hnested, List.flatMap_assoc, ← hsame]
    exact fun id hid => List.mem_flatMap.2 ⟨link, hlink, hid⟩

/-- A folded leaf has the static and concrete methods of a link that are
not hidden. -/
theorem folded_methods {ids : List Identity} (hleaf : leaf ∈ tree.leaves)
    (hlink : link ∈ sources.extensionChain leaf)
    (hhides : KeepsMethods ids c.sources (sources.extensionChain leaf))
    {m : Method}
    (hm : m ∈ (sources.get link).methods) (hid : m.id ∈ ids)
    (hlasting : m.isLasting = true) :
    m.id ∈ (s.get leaf).methods.map Method.id := by
  obtain ⟨a, ha, hsame, hlasting'⟩ :=
    (h.gains leaf hleaf link hlink).lasts ⟨m, hm, rfl, hlasting⟩
  rw [← hsame] at hid ⊢
  obtain ⟨b, hb, hsame', -⟩ :=
    mergeChain_lasts (h.folded leaf hleaf) hhides link hlink a ha hid hlasting'
  exact List.mem_map.2 ⟨b, hb, hsame'⟩

end Produces

/-- Let all members of the declarations have different identities, let no
added method have one of them, and let no concrete method be hidden while
chains are folded. Then a successful compilation has every member of every
link once, in the type of the composition node of the leaf: all fields but
the reference fields that are no parent access, which are dropped, all
static and concrete methods, and all members of nested types. -/
theorem compile_conserves {compiled : Compiled} (htree : Built sources tree)
    (hcompile : compile sources tree options = .ok compiled)
    (hdistinct : sources.memberIds.Nodup)
    (hadded : ∀ id ∈ addedIds sources tree options, id ∉ sources.memberIds)
    (hhides : ∀ leaf ∈ tree.leaves, KeepsMethods sources.lastingIds
      (withLifecycle sources tree options).sources
      (sources.extensionChain leaf)) :
    ∀ leaf ∈ tree.leaves, ∃ n type, tree.nodeOfLeaf? leaf = some n
      ∧ IsTypeOf tree compiled.merged n type
      ∧ ∀ link ∈ sources.extensionChain leaf,
      Conserves (withLifecycle sources tree options)
        compiled.merged type (sources.get link) := by
  have ht := htree.formed
  obtain ⟨s, d, placed, h⟩ := compile_produces ht hcompile
  intro leaf hleaf
  obtain ⟨n, type, hnode, htype, hincludes⟩ := h.exists_type ht hleaf
  refine ⟨n, type, hnode, htype, fun link hlink => ?_⟩
  have hdecl : sources.get link ∈ sources.decls :=
    Sources.get_mem (Sources.lt_of_link hlink)
  obtain ⟨hfields, hnested⟩ := h.folded_parts hleaf hlink
  have hdeclared : ∀ id ∈ (sources.get link).memberIds,
      id ∈ sources.memberIds :=
    fun id hid => List.mem_flatMap.2 ⟨_, hdecl, hid⟩
  -- what is declared and in the type is there once
  have honce : ∀ id ∈ (sources.get link).memberIds, id ∈ type.memberIds →
      compiled.merged.memberIds.count id = 1 := by
    intro id hid hmem
    obtain ⟨hle, -⟩ :=
      h.count_le_one ht hdistinct hadded rfl (hdeclared id hid)
    exact Nat.le_antisymm hle
      (List.count_pos_iff.2 (htype.memberIds_subset hmem))
  refine ⟨fun f hf hkept => ?_, fun m hm hlasting => ?_,
    fun inner hinner id hid => ?_,
    fun f hf href haccess hmem => ?_⟩
  · have hin : f.id ∈ type.fields.map Field.id := by
      refine hincludes.fields
        (hfields (List.mem_map_of_mem (List.mem_filter.2 ⟨hf, ?_⟩)))
      rw [Bool.or_eq_true, Bool.not_eq_true']
      exact hkept
    exact ⟨honce _ (TypeDecl.mem_memberIds.2 (Or.inl (List.mem_map_of_mem hf)))
      (TypeDecl.mem_memberIds.2 (Or.inl hin)), hin⟩
  · have hlasts : m.id ∈ sources.lastingIds := List.mem_flatMap.2
      ⟨_, hdecl, List.mem_map_of_mem (List.mem_filter.2 ⟨hm, hlasting⟩)⟩
    have hin : m.id ∈ type.methods.map Method.id :=
      hincludes.methods
        (h.folded_methods hleaf hlink (hhides leaf hleaf) hm hlasts hlasting)
    exact ⟨honce _
      (TypeDecl.mem_memberIds.2 (Or.inr (Or.inl (List.mem_map_of_mem hm))))
      (TypeDecl.mem_memberIds.2 (Or.inr (Or.inl hin))), hin⟩
  · have hin : id ∈ type.nested.flatMap TypeDecl.memberIds :=
      hincludes.nested (hnested (List.mem_flatMap.2 ⟨inner, hinner, hid⟩))
    exact ⟨honce _
      (TypeDecl.mem_memberIds.2 (Or.inr (Or.inr ⟨inner, hinner, hid⟩)))
      (TypeDecl.mem_memberIds.2 (Or.inr (Or.inr (List.mem_flatMap.1 hin)))),
      hin⟩
  · have hid : f.id ∈ (sources.get link).memberIds :=
      TypeDecl.mem_memberIds.2 (Or.inl (List.mem_map_of_mem hf))
    obtain ⟨-, hkept⟩ :=
      h.count_le_one ht hdistinct hadded rfl (hdeclared _ hid)
    obtain ⟨leaf', -, link', hlink', hid'⟩ := hkept hmem
    obtain rfl := Sources.decl_unique hdistinct (Sources.lt_of_link hlink)
      (Sources.lt_of_link hlink') hid
      ((memberIds_dropReferences _ _).subset hid')
    have hnodup := (List.nodup_flatMap.1 hdistinct).1 _ hdecl
    exact not_mem_memberIds_dropReferences hnodup hf href haccess hid'

-- =============================================================== three layers

theorem exists_compiled {s : Sources} {t : Composition} {o : Options}
    {p : Compiled → Bool} (h : (compile s t o).toOption.any p = true) :
    ∃ compiled, compile s t o = .ok compiled ∧ p compiled = true := by
  cases hcompile : compile s t o with
  | ok compiled =>
      rw [hcompile] at h
      exact ⟨compiled, rfl, h⟩
  | error _ =>
      rw [hcompile] at h
      cases h

/-- A type in three layers with a part. Its lowest layer has the methods
given. -/
def layeredSources (methods : List Method) : Sources :=
  let reference (name type : String) : Field :=
    { name, type := .named type, markers := [.reference] }
  let state (name : String) : Field :=
    { name, type := .int, init := some (.literal (.int (-1))) }
  let run : Method := { name := "run", returns := .void, body := some [] }
  let base : TypeDecl :=
    { TypeDecl.participating "Base" with
      fields := [state "x"], methods := [run] }
  let middle : TypeDecl :=
    { TypeDecl.participating "Middle" with
      superclass := some (.named "Base"), methods := [run] }
  let leaf : TypeDecl :=
    { TypeDecl.participating "Leaf" with
      superclass := some (.named "Middle"), fields :=
        [reference "part" "Part"], methods }
  let part : TypeDecl :=
    { TypeDecl.participating "Part" with
      fields := [state "count", reference "whole" "Leaf"] }
  { decls := [base, middle, leaf, part].map TypeDecl.assignIdentities }

def layeredTree : Composition :=
  { nodes := [{ decls := [⟨2⟩] }, { parent := some ⟨0⟩, decls := [⟨3⟩] }]
    leafNodes := [(⟨2⟩, ⟨0⟩), (⟨3⟩, ⟨1⟩)]
    linkNodes := [(⟨2⟩, ⟨0⟩), (⟨1⟩, ⟨0⟩), (⟨0⟩, ⟨0⟩), (⟨3⟩, ⟨1⟩)] }

theorem built_layeredTree (methods : List Method) :
    Built (layeredSources methods) layeredTree := by
  have hstart : Built (layeredSources methods) {} := .start
  have hpart := hstart.child (p := Composition.root) (by decide)
  exact (hpart.add (n := ⟨0⟩) (d := ⟨2⟩) (by decide) rfl).add
    (n := ⟨1⟩) (d := ⟨3⟩) Nat.one_lt_two rfl

/-- The middle layer overrides the method of the base, and both methods are
kept. The reference to the part is kept, and the one back is dropped. -/
theorem compile_conserves_layers : ∃ compiled outer inner,
    compile (layeredSources []) layeredTree {} = .ok compiled
      ∧ IsTypeOf layeredTree compiled.merged ⟨0⟩ outer
      ∧ IsTypeOf layeredTree compiled.merged ⟨1⟩ inner
      ∧ (∀ link ∈ [⟨2⟩, ⟨1⟩, ⟨0⟩],
        Conserves (withLifecycle (layeredSources []) layeredTree {})
        compiled.merged outer ((layeredSources []).get link))
      ∧ Conserves (withLifecycle (layeredSources []) layeredTree {})
        compiled.merged inner ((layeredSources []).get ⟨3⟩) := by
  obtain ⟨compiled, hcompile, -⟩ := exists_compiled (p := fun _ => true)
    (s := layeredSources []) (t := layeredTree) (o := {}) (by decide +kernel)
  have hconserves :=
    compile_conserves (built_layeredTree []) hcompile (by decide +kernel)
    (by decide +kernel) (by decide +kernel)
  obtain ⟨n, outer, hn, houter, hlinks⟩ := hconserves ⟨2⟩ (by decide)
  obtain ⟨m, inner, hm, hinner, hpart⟩ := hconserves ⟨3⟩ (by decide)
  obtain rfl : n = ⟨0⟩ := (Option.some.inj hn).symm
  obtain rfl : m = ⟨1⟩ := (Option.some.inj hm).symm
  refine ⟨compiled, outer, inner, hcompile, houter, hinner,
    fun link hlink => ?_, ?_⟩
  · exact hlinks link (by revert link; decide +kernel)
  · exact hpart ⟨3⟩ (by decide +kernel)

-- ============================================================= hidden methods

/-- That no link of the chain of a leaf has an abstract method with the
signature of a concrete one of a link above it. -/
def NeverRedeclares (s : Sources) (leaf : DeclId) : Prop :=
  (s.extensionChain leaf).Pairwise fun derived base =>
    ∀ m ∈ (s.get base).methods, m.isAbstract = false →
      ¬ IsHidden (s.get derived).methods m

instance (s : Sources) (leaf : DeclId) : Decidable (NeverRedeclares s leaf) :=
  inferInstanceAs (Decidable (List.Pairwise _ _))

/-- That a concrete method is lost, though members have different
identities, none is added with one of them, and no abstract method stands
below a concrete one of its signature. -/
def LosesMethod (s : Sources) (t : Composition) : Prop :=
  Built s t ∧ s.memberIds.Nodup ∧ (∀ id ∈ addedIds s t {}, id ∉ s.memberIds)
    ∧ (∀ leaf ∈ t.leaves, NeverRedeclares s leaf)
    ∧ ∃ compiled, compile s t {} = .ok compiled
      ∧ ∃ leaf ∈ t.leaves, ∃ link ∈ s.extensionChain leaf,
      ∃ m ∈ (s.get link).methods,
        m.isAbstract = false ∧ m.id ∉ compiled.merged.memberIds

theorem losesMethod_of_missing {s : Sources} {t : Composition} (ht : Built s t)
    (hdistinct : s.memberIds.Nodup)
    (hadded : ∀ id ∈ addedIds s t {}, id ∉ s.memberIds)
    (hredeclares : ∀ leaf ∈ t.leaves, NeverRedeclares s leaf)
    (hmissing : (compile s t {}).toOption.any (fun compiled => decide
      (∃ leaf ∈ t.leaves, ∃ link ∈ s.extensionChain leaf,
        ∃ m ∈ (s.get link).methods, m.isAbstract = false
        ∧ m.id ∉ compiled.merged.memberIds)) = true) : LosesMethod s t := by
  obtain ⟨compiled, hcompile, hlost⟩ := exists_compiled hmissing
  exact ⟨ht, hdistinct, hadded, hredeclares, compiled, hcompile,
    of_decide_eq_true hlost⟩

/-- A generic type with a static method that has no body, and a concrete
one; the type below it fixes the parameter so that their signatures become
the same. -/
def genericSources : Sources :=
  let marked (t : TypeRef) (modifiers : Modifiers) (body : Option Block) :
      Method :=
    { name := "mark", returns := .void, params := [⟨"by", t⟩],
      modifiers, body }
  let base : TypeDecl :=
    { TypeDecl.participating "Base" with
      typeParams := ["T"]
      fields :=
        [{ name := "x", type := .int, init := some (.literal (.int (-1))) }]
      methods := [marked (.named "String") { isStatic := true } none,
        marked (.param "T") {} (some [])] }
  let leaf : TypeDecl :=
    { TypeDecl.participating "Leaf" with
      superclass := some (.generic "Base" [.named "String"]) }
  { decls := [base, leaf].map TypeDecl.assignIdentities }

def genericTree : Composition :=
  { nodes := [{ decls := [⟨1⟩] }]
    leafNodes := [(⟨1⟩, ⟨0⟩)]
    linkNodes := [(⟨1⟩, ⟨0⟩), (⟨0⟩, ⟨0⟩)] }

/-- An abstract method can have the name under which an overridden one is
kept. Of a generic type a static method without a body can have the
signature of a concrete one once the parameter is replaced. Either hides
the concrete method. -/
theorem compile_loses_method :
    LosesMethod (layeredSources
      [{ name := "_Base_run", returns := .void, body := none }])
        layeredTree
      ∧ LosesMethod genericSources genericTree := by
  refine ⟨losesMethod_of_missing (built_layeredTree _) ?_ ?_ ?_ ?_,
    losesMethod_of_missing (.add (n := ⟨0⟩) (d := ⟨1⟩) .start (by decide) rfl)
    ?_ ?_ ?_ ?_⟩
  all_goals decide +kernel

end Stagewise
