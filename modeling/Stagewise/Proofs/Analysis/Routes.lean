/-
The binding of references makes routes.

A parent access is written with the name of the declaration that the
reference field stands in and with the field's own name. Where no two
declarations have one name, and no two fields of a declaration, there is one
field that is written so. It leads to one leaf, so no two children of a node
have the same parent access (`Referenced.branches`), and the paths made of
parent accesses lead everywhere (`bindReferences_routed`). Identities play
no part in this.
-/
import Stagewise.Proofs.Composition.Ancestors
import Stagewise.Proofs.Merge.Access

namespace Stagewise

-- ====================================================================== names

namespace Sources

variable {s s' : Sources} {ds : List TypeDecl} {d d' : DeclId}

/-- That no two declarations have one name, and no two fields of a
declaration. -/
structure Named (s : Sources) : Prop where
  decls : (s.decls.map TypeDecl.name).Nodup
  fields : ∀ d, ((s.get d).fields.map Field.name).Nodup

theorem map_name_assignIdentities (d : TypeDecl) :
    d.assignIdentities.fields.map Field.name = d.fields.map Field.name := by
  unfold TypeDecl.assignIdentities
  rw [List.map_map]
  refine List.map_congr_left fun f _ => ?_
  rw [Function.comp_apply, Field.withIdentity]
  split <;> rfl

/-- A declaration is not added under a name that is taken. -/
theorem nodup_names_add {d : TypeDecl} {added : DeclId × Sources}
    (h : (s.decls.map TypeDecl.name).Nodup) (hadd : s.add d = .ok added) :
    (added.2.decls.map TypeDecl.name).Nodup := by
  unfold Sources.add at hadd
  split at hadd
  · cases hadd
  · rename_i hfind
    obtain rfl := Except.ok.inj hadd
    have hfresh := find?_eq_none_iff.1 hfind
    rw [List.map_append, List.nodup_append]
    refine ⟨h, List.nodup_singleton _, fun a ha b hb hab => ?_⟩
    obtain ⟨d', hd', rfl⟩ := List.mem_map.1 ha
    exact hfresh d' hd' (hab.trans (List.mem_singleton.1 hb))

theorem Named.add {d : TypeDecl} {added : DeclId × Sources} (h : s.Named)
    (hd : (d.fields.map Field.name).Nodup) (hadd : s.add d = .ok added) :
    added.2.Named := by
  refine ⟨nodup_names_add h.decls hadd, fun d' => ?_⟩
  unfold Sources.add at hadd
  split at hadd
  · cases hadd
  · obtain rfl := Except.ok.inj hadd
    unfold get
    dsimp only
    rcases Nat.lt_or_ge d'.index s.decls.length with hlt | hge
    · rw [List.getD_append _ _ _ _ hlt]
      exact h.fields d'
    · rw [List.getD_append_right _ _ _ _ hge]
      cases d'.index - s.decls.length with
      | zero =>
          rw [List.getD_cons_zero, map_name_assignIdentities]
          exact hd
      | succ i => exact List.nodup_nil

/-- What no addition breaks holds of declarations that were added one by
one. -/
theorem ofList_keeps {P : Sources → Prop} (hempty : P {})
    (hadd : ∀ s, ∀ d ∈ ds, ∀ added, P s → s.add d = .ok added → P added.2)
    (h : ofList ds = .ok s) : P s := by
  have hfold : ∀ s₀ : Sources, P s₀ →
      ds.foldlM (fun s d => return (← s.add d).2) s₀ = .ok s → P s := by
    clear h
    induction ds with
    | nil =>
        intro s₀ h₀ hrun
        obtain rfl := Except.ok.inj hrun
        exact h₀
    | cons d ds ih =>
        intro s₀ h₀ hrun
        rw [List.foldlM_cons] at hrun
        obtain ⟨s₁, hstep, hrest⟩ := bind_eq_ok hrun
        obtain ⟨added, hadded, hs⟩ := bind_eq_ok hstep
        obtain rfl := Except.ok.inj hs
        exact ih (fun s d hd => hadd s d (List.mem_cons_of_mem _ hd)) added.2
          (hadd s₀ d List.mem_cons_self added h₀ hadded) hrest
  exact hfold {} hempty h

theorem nodup_names_ofList (h : ofList ds = .ok s) :
    (s.decls.map TypeDecl.name).Nodup :=
  ofList_keeps List.nodup_nil (fun _ _ _ _ => nodup_names_add) h

/-- Declarations that were added have different names. -/
theorem ofList_named (hds : ∀ d ∈ ds, (d.fields.map Field.name).Nodup)
    (h : ofList ds = .ok s) :
    s.Named :=
  ofList_keeps ⟨List.nodup_nil, fun _ => List.nodup_nil⟩
    (fun _ d hd _ hnamed => hnamed.add (hds d hd)) h

theorem map_name_ids (s : Sources) :
    s.ids.map s.name = s.decls.map TypeDecl.name := by
  refine List.ext_getElem (by simp [ids]) fun i hi _ => ?_
  have hlt : i < s.decls.length := by simpa [ids] using hi
  simp [ids, Sources.name, get, hlt]

theorem mem_ids : d ∈ s.ids ↔ d.index < s.decls.length := by
  rcases d with ⟨i⟩
  simp [ids]

theorem eq_of_name_eq (h : (s.decls.map TypeDecl.name).Nodup)
    (hd : d.index < s.decls.length)
    (hd' : d'.index < s.decls.length) (hname : s.name d = s.name d') :
    d = d' := by
  rw [← map_name_ids] at h
  exact List.inj_on_of_nodup_map h (mem_ids.2 hd) (mem_ids.2 hd') hname

/-- Where no two declarations have one name, each is found by its own. -/
theorem find?_eq_some_iff {name : String}
    (h : (s.decls.map TypeDecl.name).Nodup) :
    s.find? name = some d ↔ d.index < s.decls.length ∧ s.name d = name := by
  constructor
  · exact name_of_find?
  · intro ⟨hd, hname⟩
    cases hfind : s.find? name with
    | none => exact absurd hname (find?_eq_none_iff.1 hfind _ (get_mem hd))
    | some d' =>
        obtain ⟨hd', hname'⟩ := name_of_find? hfind
        rw [eq_of_name_eq h hd' hd (hname'.trans hname.symm)]

theorem Named.eq_of_name (h : s.Named) (hd : d.index < s.decls.length)
    (hd' : d'.index < s.decls.length) (hname : s.name d = s.name d') :
    d = d' :=
  eq_of_name_eq h.decls hd hd' hname

/-- A change of methods leaves the names. -/
theorem Named.sameHeads (h : s.Named) (hs : s.SameHeads s')
    (hfields : ∀ d, (s'.get d).fields = (s.get d).fields) : s'.Named := by
  refine ⟨?_, fun d => hfields d ▸ h.fields d⟩
  rw [hs.map_name]
  exact h.decls

end Sources

namespace Analysis

open Stagewise.Composition Step

variable {c c' c₀ : Compilation} {site site' : ReferenceSite}

-- ============================================================ parent accesses

/-- A reference field is known by how it is written. -/
theorem eq_of_ref (hs : c.sources.Named) (hsite : site ∈ referenceSites c)
    (hsite' : site' ∈ referenceSites c)
    (href : site.field.ref site.owner = site'.field.ref site'.owner) :
    site.field = site'.field := by
  obtain ⟨_, _, _, link, hlink, howner, hfield, -⟩ :=
    mem_referenceSites.1 hsite
  obtain ⟨_, _, _, link', hlink', howner', hfield', -⟩ :=
    mem_referenceSites.1 hsite'
  obtain ⟨howners, hnames⟩ := FieldRef.mk.inj href
  rw [howner, howner'] at howners
  obtain rfl :=
    hs.eq_of_name (Sources.lt_of_link hlink)
      (Sources.lt_of_link hlink') howners
  exact List.inj_on_of_nodup_map (hs.fields link) hfield hfield' hnames

/-- No two children have the same parent access. -/
theorem Referenced.branches (h : Referenced c₀ (referenceSites c₀) c)
    (hs : c₀.sources.Named)
    (hfree : ∀ n, (c₀.tree.get n).parentAccess = none) : Branches c.tree := by
  intro n m p f _ _ hf hg
  obtain hf | ⟨site, hsite, rfl, -, leaf, hleaf, hn⟩ := h.access n f hf
  · rw [hfree] at hf
    cases hf
  obtain hg | ⟨site', hsite', href, -, leaf', hleaf', hm⟩ := h.access m _ hg
  · rw [hfree] at hg
    cases hg
  rw [eq_of_ref hs hsite hsite' href, hleaf'] at hleaf
  obtain rfl := (List.cons.inj hleaf).1
  exact Option.some.inj (hn.symm.trans hm)

/-- Let no two declarations have one name, nor two fields of a declaration,
and let no field be offered as a parent access beforehand. If references are
bound, the nodes have different paths, each that of its parent with its own
parent access behind, and between any two nodes there is a route by way of
the lowest node around both. -/
theorem bindReferences_routed {report : ReferenceReport}
    (htree : Built c₀.sources c₀.tree)
    (hnamed : c₀.sources.Named)
    (hfree : ∀ n, (c₀.tree.get n).parentAccess = none)
    (hbefore : Passes c₀ c)
    (hbind : bindReferences.runOn c = (.ok report, c')) :
    Routed c'.tree := by
  have hkept := Passes.kept hbefore
  have ht : Formed c.sources c.tree :=
    hkept.tree.form.formed (htree.formed.sameHeads hkept.heads)
  obtain ⟨h, hpathed⟩ := bindReferences_referenced ht _ _ hbind
  have hbranches :=
      h.branches (hnamed.sameHeads hkept.heads hkept.fields) fun n =>
    (hkept.tree.parentAccess n).trans (hfree n)
  exact hpathed.routed (h.form.formed ht) hbranches

/-- From the lamp in the room the way to the cellar goes by the house. -/
theorem bindReferences_routed_house : ∃ report c',
    bindReferences.runOn
      { sources := Merge.houseSources, tree := Merge.houseTree }
      = (.ok report, c') ∧ Routed c'.tree
      ∧ IsLowest c'.tree ⟨0⟩ ⟨2⟩ ⟨3⟩
      ∧ c'.tree.accessPath ⟨2⟩ ⟨3⟩ = [⟨"Site", "cellar"⟩] := by
  let c₀ : Compilation :=
    { sources := Merge.houseSources, tree := Merge.houseTree }
  obtain ⟨report, hbind⟩ :=
    exists_runOn_eq (x := bindReferences) (c := c₀) (by decide +kernel)
  have hbuilt : Sources.ofList c₀.sources.decls = .ok c₀.sources := rfl
  have hnamed := Sources.ofList_named (by decide +kernel) hbuilt
  have hfree : ∀ n, (c₀.tree.get n).parentAccess = none := by
    rintro ⟨_ | _ | _ | _ | i⟩ <;> rfl
  have hrouted :=
    bindReferences_routed Merge.built_houseTree hnamed hfree .refl hbind
  have hroute := hrouted.route ⟨2⟩ ⟨3⟩ (by decide +kernel) (by decide +kernel)
  refine ⟨report, _, hbind, hrouted, ?_, by decide +kernel⟩
  have hnearest : (bindReferences.runOn c₀).2.tree.nearestEnclosing ⟨2⟩ ⟨3⟩
      = ⟨0⟩ := by
    decide +kernel
  exact hnearest ▸ hroute.lowest

end Analysis

end Stagewise
