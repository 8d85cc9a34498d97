/-
What the finishing of the merged type does to its members.

Renaming, placing and the ordering of final fields leave them as they are,
stripping removes only markers, and sorting puts them in another order. So
the finished type has the members of the merged one, and getters besides
(`memberIds_finished`).
-/
import Stagewise.Compile
import Stagewise.Proofs.Merge.Members

namespace Stagewise.Output

open Step

variable {c c' : Compilation} {d d' : TypeDecl}

-- ===================================================== layout, markers, order

mutual

theorem inventory_placeMembers (b : Bindings) :
    ∀ d : TypeDecl, (placeMembers b d).inventory = d.inventory
  | ⟨_, _, _, _, _, _, _, _, fields, methods, _, nested, _⟩ => by
      rw [placeMembers, TypeDecl.inventory, TypeDecl.inventory, List.map_map,
        List.map_map, inventories_placeAll b nested]
      rfl

theorem inventories_placeAll (b : Bindings) :
    ∀ ds : List TypeDecl, TypeDecl.inventories (placeAll b ds)
      = TypeDecl.inventories ds
  | [] => rfl
  | d :: ds => by
      rw [placeAll, TypeDecl.inventories, TypeDecl.inventories,
        inventory_placeMembers b d, inventories_placeAll b ds]

end

mutual

theorem inventory_stripMarkers :
    ∀ d : TypeDecl, (stripMarkers d).inventory = d.inventory
  | ⟨_, _, _, _, _, _, _, _, fields, methods, _, nested, _⟩ => by
      rw [stripMarkers, TypeDecl.inventory, TypeDecl.inventory, List.map_map,
        List.map_map, inventories_stripAll nested]
      rfl

theorem inventories_stripAll :
    ∀ ds : List TypeDecl, TypeDecl.inventories (stripAll ds)
      = TypeDecl.inventories ds
  | [] => rfl
  | d :: ds => by
      rw [stripAll, TypeDecl.inventories, TypeDecl.inventories,
        inventory_stripMarkers d, inventories_stripAll ds]

end

theorem nested_stripMarkers (d : TypeDecl) :
    (stripMarkers d).nested = d.nested.map stripMarkers := by
  have hall : ∀ ds : List TypeDecl, stripAll ds = ds.map stripMarkers := by
    intro ds
    induction ds with
    | nil => rfl
    | cons d ds ih => rw [stripAll, ih, List.map_cons]
  cases d
  exact hall _

theorem nested_sortMembers (d : TypeDecl) :
    d.sortMembers.nested = d.nested.map TypeDecl.sortMembers := by
  have hall : ∀ ds : List TypeDecl,
      TypeDecl.sortAll ds = ds.map TypeDecl.sortMembers := by
    intro ds
    induction ds with
    | nil => rfl
    | cons d ds ih => rw [TypeDecl.sortAll, ih, List.map_cons]
  cases d
  exact hall _

/-- What becomes of the members of a type itself as markers are stripped. -/
theorem own_stripMarkers (d : TypeDecl) : (stripMarkers d).name = d.name
    ∧ (stripMarkers d).fields
      = d.fields.map (fun f => { f with markers := Marker.strip f.markers })
    ∧ (stripMarkers d).methods
      = d.methods.map fun m =>
        { m with markers := Marker.strip m.markers } := by
  cases d
  exact ⟨rfl, rfl, rfl⟩

/-- What becomes of them as they are sorted. -/
theorem own_sortMembers (d : TypeDecl) : d.sortMembers.name = d.name
    ∧ d.sortMembers.fields = sortBy Field.layout d.fields
    ∧ d.sortMembers.methods = sortBy Method.layout d.methods := by
  cases d
  exact ⟨rfl, rfl, rfl⟩

mutual

theorem memberIds_sortMembers :
    ∀ d : TypeDecl, d.sortMembers.memberIds.Perm d.memberIds
  | ⟨kind, name, package, typeParams, superclass, interfaces, modifiers,
      markers, fields, methods, constructors, nested, position⟩ => by
      rw [TypeDecl.memberIds_eq, TypeDecl.memberIds_eq]
      refine .append (.append ?_ ?_) (memberIds_sortAll nested)
      · exact (sortBy_perm Field.layout fields).map Field.id
      · exact (sortBy_perm Method.layout methods).map Method.id

theorem memberIds_sortAll : ∀ ds : List TypeDecl,
    ((TypeDecl.sortAll ds).flatMap TypeDecl.memberIds).Perm
    (ds.flatMap TypeDecl.memberIds)
  | [] => .refl _
  | d :: ds => by
      rw [TypeDecl.sortAll, List.flatMap_cons, List.flatMap_cons]
      exact (memberIds_sortMembers d).append (memberIds_sortAll ds)

end

-- =============================================================== final fields

/-- A change of one type that leaves its members leaves all members. -/
theorem inventory_modifyTypeAt {f : TypeDecl → TypeDecl}
    (hf : ∀ d, (f d).inventory = d.inventory)
    (path : TypePath) (d : TypeDecl) :
    (modifyTypeAt f path d).inventory = d.inventory := by
  induction path generalizing d with
  | nil => exact hf d
  | cons i path ih =>
      refine TypeDecl.inventory_congr rfl rfl ?_
      exact map_modify_eq_map ih

theorem inventory_placeField (index : Nat) (layout : Int) (d : TypeDecl) :
    (placeField index layout d).inventory = d.inventory :=
  TypeDecl.inventory_congr (map_modify_eq_map fun _ => rfl) rfl rfl

theorem inventory_moveInit (index : Nat) (d : TypeDecl) :
    (moveInit index d).inventory = d.inventory := by
  unfold moveInit
  dsimp only
  split
  · rfl
  · exact TypeDecl.inventory_congr (map_modify_eq_map fun _ => rfl) rfl rfl

/-- Putting final fields in order changes no members. -/
theorem inventory_orderFinals (root : TypeDecl) :
    (orderFinals root).root.inventory = root.inventory := by
  have hturn : ∀ (o : FinalOrdering) field, (orderFinal o field).root.inventory
      = o.root.inventory := by
    intro o field
    refine inventory_modifyTypeAt (fun d => ?_) _ _
    refine (inventory_placeField ..).trans ?_
    split
    · exact inventory_moveInit _ d
    · rfl
  have hall : ∀ (fields : List (FinalField × Bool)) (o : FinalOrdering),
      (fields.foldl orderFinal o).root.inventory = o.root.inventory := by
    intro fields
    induction fields with
    | nil => exact fun _ => rfl
    | cons field fields ih => exact fun o => (ih _).trans (hturn o field)
  exact hall _ _

-- ==================================================================== getters

/-- The identities of the getters that a type itself lacks. -/
def ownGetterIds (d : TypeDecl) : List Identity :=
  (missingGetters d).map fun m => (m.withIdentity d.name).id

/-- The identities of all getters that a type lacks, nested types included. -/
def getterIds (root : TypeDecl) : List Identity :=
  (typesAt [] root).flatMap fun p => ownGetterIds p.2

theorem foldl_addMethod (ms : List Method) (d : TypeDecl) :
    ms.foldl TypeDecl.addMethod d
    = { d with methods := d.methods ++ ms.map (·.withIdentity d.name) } := by
  induction ms generalizing d with
  | nil => cases d; simp
  | cons m ms ih => simp [ih, TypeDecl.addMethod]

theorem addGettersAll_eq_map (ds : List TypeDecl) :
    addGettersAll ds = ds.map addGetters := by
  induction ds with
  | nil => rfl
  | cons d ds ih => rw [addGettersAll, ih, List.map_cons]

/-- The getters are added to what a type has. -/
theorem addGetters_eq (d : TypeDecl) : addGetters d = { d with
    methods := d.methods ++ (missingGetters d).map (·.withIdentity d.name)
    nested := d.nested.map addGetters } := by
  cases d
  rw [addGetters, addOwnGetters, foldl_addMethod, addGettersAll_eq_map]
  rfl

theorem nested_addGetters (d : TypeDecl) :
    (addGetters d).nested = d.nested.map addGetters := by
  rw [addGetters_eq]

/-- A type gets its getters behind its own methods. -/
theorem own_addGetters (d : TypeDecl) :
    (addGetters d).fields = d.fields
      ∧ (addGetters d).methods.map Method.id = d.methods.map Method.id
        ++ ownGetterIds d := by
  rw [addGetters_eq]
  refine ⟨rfl, ?_⟩
  rw [List.map_append, List.map_map]
  rfl

mutual

/-- With its getters a type has their identities besides. -/
theorem memberIds_addGetters (path : TypePath) :
    ∀ d : TypeDecl, (addGetters d).memberIds.Perm
    (d.memberIds ++ (typesAt path d).flatMap fun p => ownGetterIds p.2)
  | ⟨kind, name, package, typeParams, superclass, interfaces, modifiers,
      markers, fields, methods, constructors, nested, position⟩ => by
      let d : TypeDecl :=
        ⟨kind, name, package, typeParams, superclass, interfaces, modifiers,
          markers, fields, methods, constructors, nested, position⟩
      obtain ⟨hfields, hmethods⟩ := own_addGetters d
      have hnested := memberIds_addGettersAll path 0 nested
      rw [addGettersAll_eq_map] at hnested
      rw [show nested = d.nested from rfl] at hnested
      have htypes : typesAt path d = (path, d) :: typesAtAll path 0 d.nested :=
        rfl
      show ((addGetters d).memberIds).Perm
        (d.memberIds ++ (typesAt path d).flatMap fun p => ownGetterIds p.2)
      rw [TypeDecl.memberIds_eq, TypeDecl.memberIds_eq d, hfields, hmethods,
        nested_addGetters, htypes, List.flatMap_cons]
      refine (hnested.append_left _).trans ?_
      rw [List.perm_iff_count]
      intro id
      simp only [List.count_append]
      omega

theorem memberIds_addGettersAll (path : TypePath) (i : Nat) :
    ∀ ds : List TypeDecl, ((addGettersAll ds).flatMap TypeDecl.memberIds).Perm
      (ds.flatMap TypeDecl.memberIds
        ++ (typesAtAll path i ds).flatMap fun p => ownGetterIds p.2)
  | [] => .refl _
  | d :: ds => by
      rw [addGettersAll, typesAtAll, List.flatMap_cons, List.flatMap_cons,
        List.flatMap_append]
      have hd := memberIds_addGetters (path ++ [i]) d
      refine (hd.append (memberIds_addGettersAll path (i + 1) ds)).trans ?_
      rw [List.perm_iff_count]
      intro id
      simp only [List.count_append]
      omega

end

-- =============================================================== all together

/-- A type finished: with its final fields in order, getters added, markers
stripped and members sorted. -/
def finished (d : TypeDecl) : TypeDecl :=
  (stripMarkers (addGetters (orderFinals d).root)).sortMembers

/-- A finished type has its members and the getters that it lacked. -/
theorem memberIds_finished (d : TypeDecl) : (finished d).memberIds.Perm
    (d.memberIds ++ getterIds (orderFinals d).root) := by
  unfold finished
  refine (memberIds_sortMembers _).trans ?_
  rw [TypeDecl.memberIds_of_inventory (inventory_stripMarkers _),
    ← TypeDecl.memberIds_of_inventory (inventory_orderFinals d)]
  exact memberIds_addGetters [] _

theorem includes_addGetters (d : TypeDecl) : (addGetters d).Includes d := by
  obtain ⟨hfields, hmethods⟩ := own_addGetters d
  refine ⟨hfields ▸ List.Subset.refl _,
    hmethods ▸ List.subset_append_left _ _, ?_⟩
  rw [nested_addGetters, List.flatMap_map]
  intro id hid
  obtain ⟨inner, hinner, hid⟩ := List.mem_flatMap.1 hid
  refine List.mem_flatMap.2 ⟨inner, hinner, ?_⟩
  exact (memberIds_addGetters [] inner).mem_iff.2 (List.mem_append_left _ hid)

theorem includes_sortMembers (d : TypeDecl) : d.sortMembers.Includes d := by
  have hnested := memberIds_sortAll d.nested
  cases d
  exact ⟨((sortBy_perm Field.layout _).map Field.id).symm.subset,
    ((sortBy_perm Method.layout _).map Method.id).symm.subset,
    hnested.symm.subset⟩

/-- In a finished type that of a node has the members that it had. -/
theorem finished_includes {t : Composition} {n : CompositionId}
    {type : TypeDecl}
    (h : Merge.IsTypeOf t d n type) (hd : d'.inventory = d.inventory) :
    ∃ type', Merge.IsTypeOf t (finished d') n type' ∧ type'.Includes type := by
  have hnested : ∀ d d' : TypeDecl, d'.inventory = d.inventory →
      d'.nested.map TypeDecl.inventory = d.nested.map TypeDecl.inventory :=
    fun _ _ => TypeDecl.nested_of_inventory
  obtain ⟨ordered, hordered, hsame⟩ :=
    h.congr hnested ((inventory_orderFinals d').trans hd)
  obtain ⟨stripped, hstripped, hsame'⟩ :=
    (hordered.map nested_addGetters).congr hnested (inventory_stripMarkers _)
  have hsorted := hstripped.map (f := TypeDecl.sortMembers) nested_sortMembers
  refine ⟨_, hsorted, (includes_sortMembers _).trans ?_⟩
  exact ((TypeDecl.Includes.ofInventory hsame').trans
    (includes_addGetters _)).trans (.ofInventory hsame)

-- ================================================================= the passes

/-- That a merged type is recorded at the root. -/
structure Records (c : Compilation) (d : TypeDecl) : Prop where
  nonempty : 0 < c.tree.nodes.length
  merged : (c.tree.get Composition.root).merged = some d

theorem runOn_merged (h : Records c d) : merged.runOn c = (.ok d, c) := by
  unfold Step.merged
  rw [runOn_bind, runOn_get]
  simp only [h.merged]
  rfl

theorem ensures_merged (h : Records c d) {Q : TypeDecl → Compilation → Prop} :
    Ensures merged c Q ↔ Q d c := by
  constructor
  · exact fun hQ => hQ d c (runOn_merged h)
  · intro hQ a c' hrun
    rw [runOn_merged h] at hrun
    obtain ⟨he, rfl⟩ := Prod.mk.inj hrun
    exact Except.ok.inj he ▸ hQ

theorem ensures_setMerged (h : Records c d) :
    Ensures (setMerged (some d')) c fun _ c' =>
    Records c' d' ∧ c'.bindings = c.bindings := by
  unfold Step.setMerged
  rw [ensures_modifyTree]
  refine ⟨⟨(Composition.length_modify ..).symm ▸ h.nonempty, ?_⟩, rfl⟩
  exact congrArg CompositionNode.merged
    (Composition.get_modify_self (n := Composition.root) h.nonempty _)

/-- The merged type once it is renamed and its members are placed. Its
final fields are still to be completed. -/
def placedType? (c : Compilation) : Option TypeDecl :=
  let placed : Step TypeDecl := do
    let _ ← Merge.mergeTree
    let _ ← renameMerged
    let _ ← placeMerged
    merged
  (placed.runOn c).1.toOption

theorem renameMerged_records (h : Records c d) :
    Ensures renameMerged c fun _ c' =>
    c'.bindings = c.bindings ∧ ∃ d', Records c' d'
        ∧ d'.inventory = d.inventory := by
  unfold renameMerged
  rw [ensures_bind, ensures_merged h, ensures_bind, ensures_get]
  split
  rename_i d' report hrun
  have houtline := Transformer.outline_runState (rename (mergedNames c d)) d {}
  rw [hrun] at houtline
  rw [ensures_bind]
  refine (ensures_setMerged h).mono fun _ c' ⟨hc', hbindings⟩ =>
    ensures_pure.2 ⟨hbindings, d', hc', ?_⟩
  exact TypeDecl.inventory_of_outline houtline

theorem placeMerged_records (h : Records c d) :
    Ensures placeMerged c fun _ c' =>
    Records c' (placeMembers c.bindings d) := by
  unfold placeMerged
  simp only [ensures_bind, ensures_get, ensures_merged h, ensures_pure]
  exact (ensures_setMerged h).mono fun _ _ hc' => hc'.1

theorem completeFinals_records (h : Records c d) :
    Ensures completeFinals c fun _ c' =>
    Records c' (addGetters (orderFinals d).root) := by
  unfold completeFinals
  simp only [ensures_bind, ensures_merged h, ensures_pure]
  exact (ensures_setMerged h).mono fun _ _ hc' => hc'.1

theorem emit_answers (h : Records c d) : Ensures emit c fun out _ =>
    out = (stripMarkers d).sortMembers := by
  unfold emit setMerged
  simp only [ensures_bind, ensures_merged h, ensures_modifyTree, ensures_pure]

/-- A merged tree records its type. -/
theorem records_of_mergedTree {s : Sources} (ht : 0 < c.tree.nodes.length)
    (h : Merge.MergedTree c s d c') :
    Records c' (Merge.titled c.options d) := by
  have htitled := h.mergedType?_root ht
  unfold Merge.mergedType? at htitled
  rw [if_pos rfl] at htitled
  exact ⟨h.form.length.symm ▸ ht, htitled⟩

/-- A type is placed by the bindings that there are when the merging
starts. -/
theorem placedType?_places (ht : Composition.Formed c.sources c.tree)
    (h : placedType? c = some d) : ∃ d', d = placeMembers c.bindings d' := by
  have hensures : Ensures (do
      let _ ← Merge.mergeTree
      let _ ← renameMerged
      let _ ← placeMerged
      merged) c fun d _ => ∃ d', d = placeMembers c.bindings d' := by
    rw [ensures_bind]
    refine (Merge.mergeTree_merged ht).mono ?_
    rintro _ c₁ ⟨s, d₁, hmerged⟩
    have hrecords := records_of_mergedTree ht.nonempty hmerged
    rw [ensures_bind]
    refine (renameMerged_records hrecords).mono ?_
    rintro _ c₂ ⟨hbindings, d₂, hrecords₂, -⟩
    rw [hmerged.state] at hbindings
    rw [ensures_bind]
    refine (placeMerged_records hrecords₂).mono fun _ c₃ hrecords₃ => ?_
    rw [ensures_merged hrecords₃]
    exact ⟨d₂, congrArg (placeMembers · d₂) hbindings⟩
  exact hensures d _ (Prod.ext (eq_ok_of_toOption h) rfl)

/-- The finished type is the merged one with its getters, in other order. -/
theorem produce_answers (ht : Composition.Formed c.sources c.tree) :
    Ensures produce c fun out _ =>
    ∃ s d c₁ d', Merge.MergedTree c s d c₁ ∧ placedType? c = some d'
      ∧ d'.inventory = d.inventory
      ∧ out = finished d' := by
  unfold produce
  rw [ensures_bind]
  intro _ c₁ hmerge
  obtain ⟨s, d, hmerged⟩ := Merge.mergeTree_merged ht _ c₁ hmerge
  have hrecords := records_of_mergedTree ht.nonempty hmerged
  rw [ensures_bind]
  intro _ c₂ hrename
  obtain ⟨-, d₂, hrecords₂, hinventory₂⟩ :=
    renameMerged_records hrecords _ c₂ hrename
  rw [ensures_bind]
  intro _ c₃ hplace
  have hrecords₃ := placeMerged_records hrecords₂ _ c₃ hplace
  have hinventory₃ := inventory_placeMembers c₂.bindings d₂
  rw [ensures_bind]
  refine (completeFinals_records hrecords₃).mono fun _ c₄ hrecords₄ => ?_
  refine (emit_answers hrecords₄).mono fun out _ hout => ?_
  have htitle : (Merge.titled c.options d).inventory = d.inventory :=
    TypeDecl.inventory_congr rfl rfl rfl
  refine ⟨s, d, c₁, _, hmerged, ?_,
    (hinventory₃.trans hinventory₂).trans htitle, hout⟩
  unfold placedType?
  simp only [runOn_bind, hmerge, hrename, hplace, runOn_merged hrecords₃]
  rfl

end Stagewise.Output
