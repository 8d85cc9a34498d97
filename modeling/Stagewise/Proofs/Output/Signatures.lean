/-
What the finishing of the merged type does to names and signatures.

Placing, the ordering of final fields and stripping leave them, and sorting
puts them in another order. A getter is only added for a field that no
method is named after, so two getters are alike only if two fields are.
What is left is the renaming: the finished types have distinct members
exactly if the merged ones have, as the renaming shows them
(`forall_distinct_finished`).
-/
import Stagewise.Proofs.Output.Keys
import Stagewise.Proofs.Program.Signatures

namespace Stagewise

namespace TypeDecl

variable {d d' : TypeDecl}

/-- The names of a type's fields and the signatures of its methods. -/
def labels (d : TypeDecl) : List String × List Signature :=
  (d.fieldNames, d.signatures)

/-- Types with the same labels are distinct in the same places. -/
theorem forall_distinct_of_labels (h : d'.all.map labels = d.all.map labels) :
    (∀ t ∈ d'.all, t.Distinct) ↔ ∀ t ∈ d.all, t.Distinct := by
  have hiff : ∀ d : TypeDecl, (∀ t ∈ d.all, t.Distinct)
      ↔ ∀ l ∈ d.all.map labels, l.1.Nodup ∧ l.2.Nodup := by
    intro d
    rw [List.forall_mem_map]
    exact forall₂_congr fun t _ =>
      ⟨fun h => ⟨h.fields, h.methods⟩, fun h => ⟨h.1, h.2⟩⟩
  rw [hiff, hiff, h]

end TypeDecl

namespace Output

open Step TypeDecl

variable {c c' : Compilation} {d d' : TypeDecl}

-- =================================================================== renaming

mutual

/-- What a type reference is renamed to. -/
def renamed (names : List (String × MergedName)) : TypeRef → TypeRef
  | ⟨name, args, isParam⟩ =>
      if isParam then ⟨name, args, isParam⟩
      else
        match names.lookup name with
        | some m => m.typeRef ⟨name, args, isParam⟩
        | none => ⟨name, renamedAll names args, isParam⟩

def renamedAll (names : List (String × MergedName)) :
    List TypeRef → List TypeRef
  | [] => []
  | t :: ts => renamed names t :: renamedAll names ts

end

/-- A type reference is replaced on entry, or its arguments are renamed. -/
theorem enterType_holds (names : List (String × MergedName)) (t : TypeRef) :
    (Transformer.fromAnyState NameReport).holds
      ((rename names).enterType t) fun _ found =>
      found = if t.isParam then some t else (names.lookup t.name).map
          (·.typeRef t) := by
  intro r _
  unfold rename
  dsimp only
  cases t.isParam with
  | true => rfl
  | false => cases names.lookup t.name <;> rfl

mutual

theorem typeRef_renames (names : List (String × MergedName)) : ∀ t : TypeRef,
    (Transformer.fromAnyState NameReport).holds
    ((rename names).typeRef t) fun _ t' =>
      t' = renamed names t
  | ⟨name, args, isParam⟩ => by
      rw [Transformer.typeRef, renamed]
      refine Transformer.Reasoning.ofBind _ (enterType_holds names _)
        fun found => ?_
      cases found with
      | some t =>
          refine Transformer.Reasoning.ofPure _ fun _ hfound => ?_
          dsimp only at hfound
          split at hfound
          · rename_i h
            rw [if_pos h]
            exact Option.some.inj hfound
          · rename_i h
            obtain ⟨m, hm, hmt⟩ := Option.map_eq_some_iff.1 hfound.symm
            rw [if_neg h, hm]
            exact hmt.symm
      | none =>
          refine Transformer.Reasoning.ofBind _ (typeRefs_renames names args)
            fun args' => ?_
          refine Transformer.Reasoning.ofPure _ fun _ hargs hfound => ?_
          dsimp only at hfound
          split at hfound
          · cases hfound
          · rename_i h
            rw [if_neg h, Option.map_eq_none_iff.1 hfound.symm, hargs]

theorem typeRefs_renames (names : List (String × MergedName)) :
    ∀ ts : List TypeRef,
      (Transformer.fromAnyState NameReport).holds
      ((rename names).typeRefs ts) fun _ ts' =>
      ts' = renamedAll names ts
  | [] => Transformer.Reasoning.ofPure _ fun _ => rfl
  | t :: ts => by
      rw [Transformer.typeRefs, renamedAll]
      refine Transformer.Reasoning.ofBind _ (typeRef_renames names t)
        fun t' => ?_
      refine Transformer.Reasoning.ofBind _ (typeRefs_renames names ts)
        fun ts' => ?_
      exact Transformer.Reasoning.ofPure _ fun _ hts ht => by rw [ht, hts]

end

/-- A renamed declaration looks as the former one does in the view of the
renaming. -/
theorem outline_rename (names : List (String × MergedName)) (d : TypeDecl)
    (r : NameReport) :
    ((((rename names).typeDecl d).run r).1).outline id
      = d.outline (renamed names) :=
  (Transformer.fromAnyState NameReport).typeDecl_outline (g := id) _
    (fun _ _ _ => trivial) (typeRef_renames names) d r ()

-- ============================================================ the other steps

theorem labels_placeMembers (b : Bindings) (d : TypeDecl) :
    (placeMembers b d).all.map labels = d.all.map labels := by
  rw [all_map nested_placeMembers, List.map_map]
  refine List.map_congr_left fun t _ => ?_
  cases t
  simp [labels, fieldNames, signatures, placeMembers, Function.comp_def,
    Method.signature, Method.paramTypes]

theorem labels_stripMarkers (d : TypeDecl) :
    (stripMarkers d).all.map labels = d.all.map labels := by
  rw [all_map nested_stripMarkers, List.map_map]
  refine List.map_congr_left fun t _ => ?_
  cases t
  simp [labels, fieldNames, signatures, stripMarkers, Function.comp_def,
    Method.signature, Method.paramTypes]

/-- One type may be changed, where its labels stay. -/
theorem labels_modifyTypeAt {f : TypeDecl → TypeDecl}
    (hnested : ∀ d, (f d).nested = d.nested)
    (hlabels : ∀ d, (f d).labels = d.labels) (path : TypePath) (d : TypeDecl) :
    (modifyTypeAt f path d).all.map labels = d.all.map labels := by
  induction path generalizing d with
  | nil => rw [modifyTypeAt, all_eq, all_eq, List.map_cons, List.map_cons,
      hnested, hlabels]
  | cons i path ih =>
      have hinner : (d.nested.modify i (modifyTypeAt f path)).map
          (fun t => t.all.map labels)
          = d.nested.map fun t => t.all.map labels := map_modify_eq_map ih
      have hflat := congrArg List.flatten hinner
      rw [← List.flatMap_def, ← List.flatMap_def, ← List.map_flatMap,
        ← List.map_flatMap] at hflat
      rw [modifyTypeAt, all_eq, all_eq d, List.map_cons, List.map_cons]
      exact congrArg (_ :: ·) hflat

theorem labels_placeField (index : Nat) (layout : Int) (d : TypeDecl) :
    (placeField index layout d).labels = d.labels :=
  congrArg (·, _) (map_modify_eq_map fun _ => rfl)

theorem labels_moveInit (index : Nat) (d : TypeDecl) :
    (moveInit index d).labels = d.labels := by
  unfold moveInit
  dsimp only
  split
  · rfl
  · exact congrArg (·, _) (map_modify_eq_map fun _ => rfl)

theorem labels_orderFinals (root : TypeDecl) :
    (orderFinals root).root.all.map labels = root.all.map labels := by
  unfold orderFinals
  refine List.foldlRecOn
    (motive := fun o : FinalOrdering => o.root.all.map labels = root.all.map
      labels) _ _ rfl ?_
  rintro o ho ⟨key, isDependent⟩ _
  refine (labels_modifyTypeAt
    (fun d => (Touches.turn _ _ isDependent d).nested)
    (fun d => (labels_placeField ..).trans ?_) _ _).trans ho
  split
  · exact labels_moveInit _ d
  · rfl

-- ==================================================================== getters

/-- With its getters a type has distinct members if it has without. A getter
is made for the name of one field, and only if no method has it. -/
theorem distinct_addGetters (d : TypeDecl) :
    (addGetters d).Distinct ↔ d.Distinct := by
  have hfields : (addGetters d).fieldNames = d.fieldNames := by
    rw [addGetters_eq]
    rfl
  have hmethods : (addGetters d).signatures
      = d.signatures ++ (missingGetters d).map Method.signature := by
    rw [addGetters_eq]
    unfold signatures
    rw [List.map_append, List.map_map]
    congr 1
    exact List.map_congr_left fun m _ => m.signature_withIdentity d.name
  constructor
  · refine fun h => ⟨hfields ▸ h.fields, ?_⟩
    exact (hmethods ▸ h.methods).sublist (List.sublist_append_left _ _)
  · refine fun h => ⟨hfields ▸ h.fields, ?_⟩
    rw [hmethods]
    refine List.nodup_append'.2 ⟨h.methods, ?_, ?_⟩
    · have hnames : ((missingGetters d).map Method.signature).map Prod.fst
          = ((d.fields.filter fun f => f.modifiers.isFinal && !d.hasMethodNamed
            f.name)).map Field.name := by
        unfold missingGetters
        rw [List.map_map, List.map_map]
        rfl
      refine List.Nodup.of_map Prod.fst ?_
      rw [hnames]
      exact h.fields.sublist (List.filter_sublist.map Field.name)
    · -- no method has the name of a getter that is missing
      intro s hs hs'
      obtain ⟨m, hm, rfl⟩ := List.mem_map.1 hs
      obtain ⟨getter, hgetter, he⟩ := List.mem_map.1 hs'
      obtain ⟨f, hf, rfl⟩ := List.mem_map.1 hgetter
      have hmissing := (Bool.and_eq_true_iff.1 (List.mem_filter.1 hf).2).2
      rw [Bool.not_eq_true', hasMethodNamed, List.any_eq_false] at hmissing
      exact hmissing m hm (beq_iff_eq.2 (congrArg Prod.fst he).symm)

theorem distinct_sortMembers (d : TypeDecl) :
    d.sortMembers.Distinct ↔ d.Distinct := by
  cases d
  exact distinct_congr ((sortBy_perm Field.layout _).map Field.name)
    ((sortBy_perm Method.layout _).map Method.signature)

/-- A finished type has distinct members if it has before, and so have the
types nested in it. -/
theorem forall_distinct_finished (d : TypeDecl) :
    (∀ t ∈ (finished d).all, t.Distinct) ↔ ∀ t ∈ d.all, t.Distinct := by
  unfold finished
  rw [forall_mem_all_map nested_sortMembers distinct_sortMembers,
    forall_distinct_of_labels (labels_stripMarkers _),
    forall_mem_all_map nested_addGetters distinct_addGetters,
    forall_distinct_of_labels (labels_orderFinals d)]

-- ================================================================= the passes

/-- The merged type before it is renamed, with what type references are
renamed to. -/
def unrenamed? (c : Compilation) : Option (TypeDecl × (TypeRef → TypeRef)) :=
  let c' := (Merge.mergeTree.runOn c).2
  (c'.tree.get Composition.root).merged.map fun d =>
    (d, renamed (mergedNames c' d))

theorem renameMerged_outline (h : Records c d) :
    Ensures renameMerged c fun _ c' =>
    ∃ d', Records c' d'
        ∧ d'.outline id = d.outline (renamed (mergedNames c d)) := by
  unfold renameMerged
  rw [ensures_bind, ensures_merged h, ensures_bind, ensures_get]
  split
  rename_i d' report hrun
  have houtline := outline_rename (mergedNames c d) d {}
  rw [hrun] at houtline
  rw [ensures_bind]
  exact (ensures_setMerged h).mono fun _ c' ⟨hc', _⟩ =>
    ensures_pure.2 ⟨d', hc', houtline⟩

/-- What is produced is the merged type, renamed, placed and finished. -/
theorem produce_finishes (ht : Composition.Formed c.sources c.tree) :
    Ensures produce c fun out _ => ∃ s d c₁ d' b, Merge.MergedTree c s d c₁
      ∧ unrenamed? c
        = some (Merge.titled c.options d,
          renamed (mergedNames c₁ (Merge.titled c.options d)))
      ∧ d'.outline id = (Merge.titled c.options d).outline
        (renamed (mergedNames c₁ (Merge.titled c.options d)))
      ∧ out = finished (placeMembers b d') := by
  unfold produce
  rw [ensures_bind]
  intro _ c₁ hmerge
  obtain ⟨s, d, hmerged⟩ := Merge.mergeTree_merged ht _ c₁ hmerge
  have hrecords := records_of_mergedTree ht.nonempty hmerged
  rw [ensures_bind]
  refine (renameMerged_outline hrecords).mono ?_
  rintro _ c₂ ⟨d', hrecords₂, houtline⟩
  rw [ensures_bind]
  refine (placeMerged_records hrecords₂).mono fun _ c₃ hrecords₃ => ?_
  rw [ensures_bind]
  refine (completeFinals_records hrecords₃).mono fun _ c₄ hrecords₄ => ?_
  refine (emit_answers hrecords₄).mono ?_
  rintro _ _ rfl
  refine ⟨s, d, c₁, d', c₂.bindings, hmerged, ?_, houtline, rfl⟩
  unfold unrenamed?
  rw [hmerge]
  dsimp only
  rw [hrecords.merged, Option.map_some]

/-- All types that are produced have distinct members exactly if the merged
ones have, as their signatures are renamed. -/
theorem produce_distinct (ht : Composition.Formed c.sources c.tree) :
    Ensures produce c fun out _ => ∃ s d c₁ g, Merge.MergedTree c s d c₁
      ∧ unrenamed? c = some (Merge.titled c.options d, g)
      ∧ ((∀ t ∈ out.all, t.Distinct)
        ↔ ∀ t ∈ (Merge.titled c.options d).all, t.DistinctIn g) := by
  refine (produce_finishes ht).mono ?_
  rintro _ _ ⟨s, d, c₁, d', b, hmerged, hunrenamed, houtline, rfl⟩
  refine ⟨s, d, c₁, _, hmerged, hunrenamed, ?_⟩
  have hplaced := forall_distinct_of_labels (labels_placeMembers b d')
  refine (forall_distinct_finished _).trans (hplaced.trans ?_)
  rw [← forall_distinct_of_outline houtline]
  exact forall₂_congr fun t _ => distinctIn_id.symm

end Output

end Stagewise
