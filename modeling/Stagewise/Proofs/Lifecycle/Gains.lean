/-
Which members guards and lifecycle add.

Until the merging a declaration gains methods behind its own and loses no
member (`Gains`), apart from the reference fields that are dropped from
links on the way (`addLifecycle_gains`).
-/
import Stagewise.Compile
import Stagewise.Proofs.Merge.Access
import Stagewise.Proofs.Merge.Members
import Stagewise.Proofs.Program.Signatures

namespace Stagewise

open Compilation Stagewise.Composition Merge Step

variable {c c' c₁ c₂ : Compilation} {d d' d₁ : TypeDecl} {link leaf : DeclId}

-- ==================================================================== methods

/-- That a method is what it was but for its body and its markers. A concrete
one is still concrete. -/
structure Method.Stays (m m' : Method) : Prop where
  id : m'.id = m.id
  signature : m'.signature = m.signature
  isStatic : m'.modifiers.isStatic = m.modifiers.isStatic
  concrete : m.isAbstract = false → m'.isAbstract = false

namespace Method.Stays

variable {m m₁ m' : Method}

theorem refl (m : Method) : Stays m m := ⟨rfl, rfl, rfl, fun h => h⟩

theorem trans (h : Stays m m₁) (h' : Stays m₁ m') : Stays m m' :=
  ⟨h'.id.trans h.id, h'.signature.trans h.signature,
    h'.isStatic.trans h.isStatic,
    fun hm => h'.concrete (h.concrete hm)⟩

theorem isLasting (h : Stays m m') (hm : m.isLasting = true) :
    m'.isLasting = true := by
  unfold Method.isLasting at hm ⊢
  rw [Bool.or_eq_true, Bool.not_eq_true'] at hm ⊢
  exact hm.imp (fun hs => h.isStatic.trans hs) h.concrete

end Method.Stays

/-- Code is not what is looked at. -/
theorem stays_of_outline {m m' : Method} (h : m'.outline id = m.outline id) :
    m.Stays m' := by
  have hprofile :=
    (profile_outline m').symm.trans
    ((congrArg profile h).trans (profile_outline m))
  obtain ⟨hid, hstatic, habstract, hname, hparams⟩ := Profile.mk.inj hprofile
  exact ⟨hid, Prod.ext hname hparams, hstatic, fun hm => habstract.trans hm⟩

-- =============================================================== declarations

/-- That a declaration has gained methods: its own come first, and are what
they were. -/
structure Gains (d d' : TypeDecl) : Prop where
  fields : d'.fields.map (·.outline id) = d.fields.map (·.outline id)
  nested : d'.nested.map (·.outline id) = d.nested.map (·.outline id)
  methods : ∀ (i : Nat) (m : Method), d.methods[i]? = some m →
    ∃ m', d'.methods[i]? = some m' ∧ m.Stays m'

/-- The identities of the methods that a declaration has gained. -/
def gained (d d' : TypeDecl) : List Identity :=
  (d'.methods.map Method.id).drop d.methods.length

namespace Gains

theorem refl (d : TypeDecl) : Gains d d :=
  ⟨rfl, rfl, fun _ m hm => ⟨m, hm, .refl m⟩⟩

theorem trans (h : Gains d d₁) (h' : Gains d₁ d') : Gains d d' where
  fields := h'.fields.trans h.fields
  nested := h'.nested.trans h.nested
  methods i m hm := by
    obtain ⟨m₁, hm₁, hstays⟩ := h.methods i m hm
    obtain ⟨m', hm', hstays'⟩ := h'.methods i m₁ hm₁
    exact ⟨m', hm', hstays.trans hstays'⟩

/-- Code does not matter. -/
theorem ofOutlines
    (hfields : d'.fields.map (·.outline id) = d.fields.map (·.outline id))
    (hnested : d'.nested.map (·.outline id) = d.nested.map (·.outline id))
    (hmethods : d'.methods.map (·.outline id) = d.methods.map (·.outline id)) :
    Gains d d' := by
  refine ⟨hfields, hnested, fun i m hm => ?_⟩
  have hget := congrArg (·[i]?) hmethods
  simp only [List.getElem?_map, hm, Option.map_some] at hget
  obtain ⟨m', hm', houtline⟩ := Option.map_eq_some_iff.1 hget
  exact ⟨m', hm', stays_of_outline houtline⟩

theorem fieldIds (h : Gains d d') :
    d'.fields.map Field.id = d.fields.map Field.id :=
  map_eq_of_map_eq (TypeDecl.id_field_outline id) h.fields

theorem inventories (h : Gains d d') :
    d'.nested.map TypeDecl.inventory = d.nested.map TypeDecl.inventory :=
  map_eq_of_map_eq (TypeDecl.inventory_outline id) h.nested

/-- What stays of the methods is that of the first ones. -/
theorem map_prefix {α : Type} {g : Method → α} (h : Gains d d')
    (hg : ∀ m m' : Method, m.Stays m' → g m' = g m) :
    d.methods.map g <+: d'.methods.map g := by
  rw [List.prefix_iff_getElem?]
  intro i hi
  rw [List.length_map] at hi
  obtain ⟨m', hm', hstays⟩ := h.methods i _ (List.getElem?_eq_getElem hi)
  rw [List.getElem?_map, hm', Option.map_some, List.getElem_map, hg _ _ hstays]

theorem methodIds (h : Gains d d') :
    d.methods.map Method.id <+: d'.methods.map Method.id :=
  h.map_prefix fun _ _ hm => hm.id

theorem lasts (h : Gains d d') {id : Identity} (hid : Lasts d.methods id) :
    Lasts d'.methods id := by
  obtain ⟨m, hm, rfl, hlasting⟩ := hid
  obtain ⟨i, hi⟩ := List.mem_iff_getElem?.1 hm
  obtain ⟨m', hm', hstays⟩ := h.methods i m hi
  exact ⟨m', List.mem_of_getElem? hm', hstays.id, hstays.isLasting hlasting⟩

/-- The members are the former ones and those gained. -/
theorem memberIds (h : Gains d d') :
    d'.memberIds.Perm (d.memberIds ++ gained d d') := by
  obtain ⟨new, hnew⟩ := h.methodIds
  have hgained : gained d d' = new := by
    unfold gained
    rw [← hnew, ← List.length_map (f := Method.id), List.drop_left]
  rw [TypeDecl.memberIds_eq, TypeDecl.memberIds_eq,
    h.fieldIds, ← hnew, hgained,
    TypeDecl.flatMap_memberIds_congr h.inventories, List.perm_iff_count]
  intro id
  simp only [List.count_append]
  omega

/-- Dropping reference fields keeps to the rest. -/
theorem dropReferences (h : Gains d d') (hfields : d'.fields = d.fields) :
    Gains (dropReferences c d) (dropReferences c d') := by
  refine ⟨?_, h.nested, h.methods⟩
  unfold Merge.dropReferences
  dsimp only
  rw [hfields]

/-- Where one declaration is changed, all gain methods. -/
theorem modify {f : TypeDecl → TypeDecl} {s : Sources}
    (hf : ∀ d, Gains d (f d)) (n m : DeclId) :
    Gains (s.get m) ((s.modify n f).get m) := by
  by_cases hn : n.index < s.decls.length
  · rw [Sources.get_modify hn]
    split
    · rename_i h
      exact h ▸ hf _
    · exact refl _
  · rw [Sources.modify_of_not_lt hn]
    exact refl _

end Gains

-- ================================================================= the passes

/-- Guards and lifecycle add methods. -/
theorem Lifecycle.Evolves.gains (h : Evolves c c') (n : DeclId) :
    Gains (c.sources.get n) (c'.sources.get n) := by
  have hrest := h.sources.rest n
  refine ⟨congrArg (fun d => d.fields.map (·.outline id)) hrest,
    congrArg (fun d => d.nested.map (·.outline id)) hrest, fun i m hm => ?_⟩
  obtain ⟨hi, rfl⟩ := List.getElem?_eq_some_iff.1 hm
  have hhas : c.sources.Has ⟨n, i⟩ := hi
  have hi' : i < (c'.sources.get n).methods.length := h.sources.has _ hhas
  have hm : c.sources.method ⟨n, i⟩ = (c.sources.get n).methods[i] :=
    List.getD_eq_getElem _ _ hi
  have hm' : c'.sources.method ⟨n, i⟩ = (c'.sources.get n).methods[i] :=
    List.getD_eq_getElem _ _ hi'
  have hsurface := h.sources.surface _ hhas
  have hconcrete := h.isAbstract hhas
  rw [hm, hm'] at hsurface hconcrete
  have hid := congrArg Method.id hsurface
  have hsignature := congrArg Method.signature hsurface
  have hstatic := congrArg (fun m => m.modifiers.isStatic) hsurface
  exact ⟨_, List.getElem?_eq_getElem hi', hid, hsignature, hstatic, hconcrete⟩

/-- Resolving references drops fields of links. -/
theorem Merge.Resolved.gains {links : List DeclId} {s : Sources}
    (h : Resolved c links s)
    (hlink : link ∈ links) :
    Gains (dropReferences c (c.sources.get link)) (s.get link) := by
  have houtline := h.outline link
  unfold resolved at houtline
  rw [if_pos hlink] at houtline
  exact .ofOutlines (TypeDecl.fields_of_outline houtline)
    (TypeDecl.nested_of_outline houtline)
    (TypeDecl.methods_of_outline houtline)

/-- A method is added behind the others. -/
theorem gains_addMethod (d : TypeDecl) (m : Method) :
    Gains d (d.addMethod m) := by
  refine ⟨rfl, rfl, fun i a ha => ⟨a, ?_, .refl a⟩⟩
  obtain ⟨hi, -⟩ := List.getElem?_eq_some_iff.1 ha
  exact (List.getElem?_append_left hi).trans ha

/-- The global close method is all that is added. -/
theorem Lifecycle.addGlobalClose_gains : Ensures addGlobalClose c fun _ c' =>
    ∀ n, Gains (c.sources.get n) (c'.sources.get n) := by
  unfold addGlobalClose
  rw [ensures_bind, ensures_get]
  dsimp only
  split
  · exact ensures_throw
  · rw [ensures_bind, ensures_modifySources, ensures_pure]
    refine Gains.modify (fun d => ?_) _
    refine Gains.trans ?_ (gains_addMethod _ _)
    cases c.options.closeInterface with
    | none => exact .refl d
    | some i =>
        simp only [Option.map_some, Option.getD_some, addInterface]
        split <;> exact ⟨rfl, rfl, fun _ m hm => ⟨m, hm, .refl m⟩⟩

-- =================================================================== together

/-- The links are those of the chains of all leaves. -/
theorem Merge.mem_links (ht : Formed c.sources c.tree)
    (hleaf : leaf ∈ c.tree.leaves)
    (hlink : link ∈ c.sources.extensionChain leaf) : link ∈ links c := by
  obtain ⟨n, hn⟩ := Formed.exists_node hleaf
  unfold links linksWithNodes chains
  simp only [List.mem_map, List.mem_flatMap]
  refine ⟨(n, link), ⟨_, ⟨leaf, hleaf, rfl⟩, n, ?_, link, hlink, rfl⟩, rfl⟩
  rw [ht.nodeOfLeaf?_eq_some.2 hn]
  exact Option.mem_toList.2 rfl

theorem Merge.dropReferences_congr (hk : Kept c c') (d : TypeDecl) :
    dropReferences c' d = dropReferences c d := by
  unfold dropReferences
  simp only [isParentAccess_congr hk.references hk.tree]

/-- The global close method is added once guards and lifecycle have been and
references are resolved. -/
theorem ensures_addLifecycle {Q : Unit → Compilation → Prop}
    (h : ∀ c₁ s, Lifecycle.Evolves c c₁ → Resolved c₁ (links c₁) s →
      Ensures Lifecycle.addGlobalClose { c₁ with sources := s } fun _ c' =>
        Q () c') :
    Ensures addLifecycle c Q := by
  unfold addLifecycle
  rw [ensures_bind]
  refine Lifecycle.guardNodes_evolves.mono fun _ c₁ h₁ => ?_
  rw [ensures_bind]
  refine Lifecycle.prepareNodes_evolves.mono fun _ c₂ ⟨h₂, _⟩ => ?_
  rw [ensures_bind]
  refine resolveReferences_resolved.mono ?_
  rintro _ _ ⟨s, rfl, hresolved⟩
  rw [ensures_bind]
  exact (h c₂ s (h₁.trans h₂) hresolved).mono fun _ _ hQ => ensures_pure.2 hQ

/-- Adding guards and lifecycle leaves the tree and the chains. A link loses
the reference fields that are no parent access, and only gains methods. -/
theorem addLifecycle_gains (ht : Formed c.sources c.tree) :
    Ensures addLifecycle c fun _ c' =>
    SameForm c.tree c'.tree ∧ Sources.SameHeads c.sources c'.sources
      ∧ ∀ leaf ∈ c.tree.leaves, ∀ link ∈ c.sources.extensionChain leaf,
        Gains (dropReferences c' (c.sources.get link))
          (c'.sources.get link) := by
  refine ensures_addLifecycle fun c₂ s hevolves hresolved => ?_
  have hkept := Kept.ofEvolves hevolves
  refine (Lifecycle.addGlobalClose_kept.and
    Lifecycle.addGlobalClose_gains).mono ?_
  rintro _ c₄ ⟨hkept₄, hgains₄⟩
  have hheads := (hkept.heads.trans hresolved.sameHeads).trans hkept₄.heads
  refine ⟨hkept.tree.form.trans hkept₄.tree.form, hheads,
    fun leaf hleaf link hlink => ?_⟩
  have hmem : link ∈ links c₂ := by
    rw [← hkept.heads.extensionChain] at hlink
    rw [← hkept.tree.form.leaves] at hleaf
    exact mem_links (hkept.tree.form.formed (ht.sameHeads hkept.heads))
      hleaf hlink
  rw [dropReferences_congr hkept₄]
  have hdropped :=
    (hevolves.gains link).dropReferences (c := c₂) (hkept.fields link)
  exact (hdropped.trans (hresolved.gains hmem)).trans (hgains₄ link)

end Stagewise
