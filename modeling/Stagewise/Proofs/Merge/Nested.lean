/-
What becomes of the code of nested types when a chain is folded.

A nested type comes in before the methods of its base are merged, as a field
does. So its code is converted as that of a field is: at its own link by all
that is redirected there, and at each link below once more
(`innerScripts_mergeLink`). None of it is dropped (`mergeChain_conveysInner`).
-/
import Stagewise.Proofs.Merge.SuperCalls

namespace Stagewise

namespace TypeDecl

/-- The code of some types and of all types nested in them. -/
def scriptsOfAll (ds : List TypeDecl) : List Script :=
  (ds.flatMap all).flatMap scripts

/-- The code of the types nested in a type, at any depth. -/
def innerScripts (d : TypeDecl) : List Script := scriptsOfAll d.nested

theorem scriptsOfAll_append (ds es : List TypeDecl) :
    scriptsOfAll (ds ++ es) = scriptsOfAll ds ++ scriptsOfAll es := by
  unfold scriptsOfAll
  rw [List.flatMap_append, List.flatMap_append]

/-- What converts the code of every type converts that of nested types. -/
theorem scriptsOfAll_map {f : TypeDecl → TypeDecl} {κ : Conversion}
    (hnested : ∀ d, (f d).nested = d.nested.map f)
    (hscripts : ∀ d, (f d).scripts = d.scripts.map (Script.convert κ))
    (ds : List TypeDecl) :
    scriptsOfAll (ds.map f) = (scriptsOfAll ds).map (Script.convert κ) := by
  unfold scriptsOfAll
  rw [flatMap_all_map hnested, List.flatMap_map, List.map_flatMap]
  exact congrArg ((ds.flatMap all).flatMap ·) (funext hscripts)

theorem innerScripts_of_map {f : TypeDecl → TypeDecl} {κ : Conversion}
    (hnested : ∀ d, (f d).nested = d.nested.map f)
    (hscripts : ∀ d, (f d).scripts = d.scripts.map (Script.convert κ))
    (d : TypeDecl) :
    (f d).innerScripts = d.innerScripts.map (Script.convert κ) := by
  unfold innerScripts
  rw [hnested, scriptsOfAll_map hnested hscripts]

theorem innerScripts_rewrite (κ : Conversion) (d : TypeDecl) :
    (d.rewrite (Expr.convertTop κ)).innerScripts
      = d.innerScripts.map (Script.convert κ) := by
  refine innerScripts_of_map (fun d => ?_) (scripts_rewrite κ) d
  have hall : ∀ ds : List TypeDecl, rewriteAll (Expr.convertTop κ) ds
      = ds.map (rewrite (Expr.convertTop κ)) := by
    intro ds
    induction ds with
    | nil => rfl
    | cons d ds ih => rw [rewriteAll, ih, List.map_cons]
  cases d
  exact hall _

theorem innerScripts_mapNames (τ : TypeRef → TypeRef) (d : TypeDecl) :
    (d.mapNames (NameMap.ofTypes τ)).innerScripts
      = d.innerScripts.map (Script.convert { type := τ }) := by
  refine innerScripts_of_map (fun d => ?_) (scripts_mapNames τ) d
  have hall : ∀ ds : List TypeDecl, mapNamesAll (NameMap.ofTypes τ) ds
      = ds.map (mapNames (NameMap.ofTypes τ)) := by
    intro ds
    induction ds with
    | nil => rfl
    | cons d ds ih => rw [mapNamesAll, ih, List.map_cons]
  cases d
  exact hall _

end TypeDecl

namespace Merge

open Convention

variable {s : Sources} {chain lower above : List DeclId} {link leaf : DeclId}
variable {base derived d : TypeDecl} {x : Script}

-- =================================================================== one link

/-- Merging a method redirects calls of it in nested types too. -/
theorem innerScripts_mergeMethod (owner : String) (derived : TypeDecl)
    (m : Method) :
    (mergeMethod owner derived m).innerScripts
      = derived.innerScripts.map (Script.convert (redirections owner
          (if isRedirected (profiles derived) (profile m) then [profile m]
            else []))) := by
  have hkept : derived.innerScripts.map (Script.convert {})
      = derived.innerScripts := by
    rw [funext Script.convert_empty]
    exact List.map_id _
  have hstatic : (profile m).isStatic = m.modifiers.isStatic := rfl
  have habstract : (profile m).isAbstract = m.isAbstract := rfl
  refine (mergeMethod_congr (fun _ _ => rfl) owner derived m).trans ?_
  unfold takeMethod isRedirected
  rw [hstatic, habstract, find?_profiles]
  by_cases hobject : m.modifiers.isStatic = true
  · simp only [hobject, Bool.not_true, Bool.false_and,
      Bool.false_eq_true, if_false, redirections_nil, hkept]
    rfl
  · cases derived.methods.find? (·.overrides m) with
    | none =>
        simp only [hobject, Option.map_none, Option.any_none, Bool.and_false,
          Bool.false_eq_true, if_false, redirections_nil, hkept]
        split <;> rfl
    | some o =>
        have hsame : (profile o).isAbstract = o.isAbstract := rfl
        by_cases hdropped : m.isAbstract = true ∨ o.isAbstract = true
        · have hnot : (!m.isAbstract && !o.isAbstract) = false := by
            rw [← Bool.not_or, Bool.not_eq_false', Bool.or_eq_true]
            exact hdropped
          rw [Option.map_some, Option.any_some, hsame, Bool.and_assoc, hnot]
          simp [hobject, hdropped, hkept]
        · obtain ⟨hm, ho⟩ := not_or.1 hdropped
          have hmerged : (mergeOverridden owner derived m).innerScripts
              = derived.innerScripts.map
                (Script.convert (redirections owner [profile m])) := by
            rw [← TypeDecl.innerScripts_rewrite, ← redirectSuper_eq]
            rfl
          simpa [hobject, hm, ho, hsame] using hmerged

/-- Merging methods redirects calls of all that are overridden. -/
theorem innerScripts_foldl (owner : String) (ms : List Method)
    (derived : TypeDecl) :
    (ms.foldl (mergeMethod owner) derived).innerScripts
      = derived.innerScripts.map (Script.convert (redirections owner
        (overriddenIn owner (profiles derived) (ms.map profile)))) := by
  induction ms generalizing derived with
  | nil =>
      rw [List.map_nil, overriddenIn, redirections_nil,
        funext Script.convert_empty]
      exact (List.map_id _).symm
  | cons m ms ih =>
      rw [List.foldl_cons, ih, innerScripts_mergeMethod, List.map_map,
        profiles_mergeMethod, List.map_cons,
        overriddenIn, ← redirections_append]
      exact List.map_congr_left fun y _ => Script.convert_convert _ _ y

/-- The nested types of a link are its own, with their calls redirected, and
those of its base, with formal parameters replaced as well. -/
theorem innerScripts_mergeLink (h : mergeLink base derived = .ok d) :
    d.innerScripts = derived.innerScripts.map
      (Script.convert (redirectionsAt base derived))
      ++ base.innerScripts.map (Script.convert
        ((redirectionsAt base derived).after
          { type := instantiated base derived })) := by
  obtain ⟨typeParams, constructors, -, rfl⟩ := mergeLink_eq_merged h
  have hbase : (instantiate base derived).1.innerScripts
      = base.innerScripts.map
        (Script.convert { type := instantiated base derived }) := by
    rw [instantiate_eq_mapNames, TypeDecl.innerScripts_mapNames]
  have htaken :
      (takeOver (instantiate base derived).1
        { derived with typeParams }).innerScripts
      = derived.innerScripts ++ (instantiate base derived).1.innerScripts :=
    TypeDecl.scriptsOfAll_append _ _
  show (mergeMembers _ _).innerScripts = _
  rw [mergeMembers, innerScripts_foldl, htaken, List.map_append,
    name_instantiate, hbase, List.map_map]
  refine congrArg₂ (· ++ ·) rfl (List.map_congr_left fun y _ => ?_)
  exact Script.convert_convert _ _ y

-- =============================================================== whole chains

/-- That the code of the types nested in a folded chain is that of the types
nested in its links, converted in a way that `P` holds of. -/
structure ConveysInner (s : Sources) (chain : List DeclId) (d : TypeDecl)
    (P : List DeclId → DeclId → List DeclId → Conversion → Prop) : Prop where
  origin : ∀ x ∈ d.innerScripts, ∃ lower link above,
    chain = lower ++ link :: above
    ∧ ∃ y ∈ (s.get link).innerScripts, ∃ κ, P lower link above κ
    ∧ x = y.convert κ
  arrival : ∀ lower link above, chain = lower ++ link :: above →
    ∃ κ, P lower link above κ ∧ ∀ y ∈ (s.get link).innerScripts,
      y.convert κ ∈ d.innerScripts

theorem ConveysInner.imp
    {P Q : List DeclId → DeclId → List DeclId → Conversion → Prop}
    (h : ConveysInner s chain d P)
    (hPQ : ∀ lower link above κ, chain = lower ++ link :: above →
      P lower link above κ → Q lower link above κ) :
    ConveysInner s chain d Q where
  origin x hx := by
    obtain ⟨lower, link, above, hchain, y, hy, κ, hκ, hx⟩ := h.origin x hx
    exact ⟨lower, link, above, hchain, y, hy, κ, hPQ _ _ _ _ hchain hκ, hx⟩
  arrival lower link above hchain := by
    obtain ⟨κ, hκ, hmem⟩ := h.arrival lower link above hchain
    exact ⟨κ, hPQ _ _ _ _ hchain hκ, hmem⟩

/-- All code of nested types comes from those of a link. -/
theorem exists_descends_inner (h : mergeChain s chain = .ok d)
    (hx : x ∈ d.innerScripts) :
    ∃ lower link above, chain = lower ++ link :: above
      ∧ ∃ y ∈ (s.get link).innerScripts,
      ∃ κ, (∀ id, Descends s (link :: above) (.field id) lower κ)
        ∧ x = y.convert κ := by
  induction chain generalizing d x with
  | nil => cases h
  | cons leaf above ih =>
      rcases mergeChain_cases h with ⟨rfl, rfl⟩ | ⟨base, hbase, hlink⟩
      · exact ⟨[], leaf, [], rfl, x, hx, {}, fun _ => .own,
          (Script.convert_empty x).symm⟩
      · rw [innerScripts_mergeLink hlink, List.mem_append, List.mem_map,
          List.mem_map] at hx
        rcases hx with ⟨y, hy, rfl⟩ | ⟨y, hy, rfl⟩
        · exact ⟨[], leaf, above, rfl, y, hy, _, fun _ => .own,
            redirectionsAmong_cons hbase ▸ rfl⟩
        · obtain ⟨lower, link, above', rfl, z, hz, κ, hdescends, rfl⟩ :=
            ih hbase hy
          refine ⟨leaf :: lower, link, above', rfl, z, hz, _, fun id => ?_,
            Script.convert_convert κ _ z⟩
          exact (hdescends id).cross hbase (.field id)

/-- The code of nested types descends. -/
theorem descends_inner (h : mergeChain s (lower ++ link :: above) = .ok d) :
    ∃ κ, (∀ id, Descends s (link :: above) (.field id) lower κ)
      ∧ ∀ y ∈ (s.get link).innerScripts, y.convert κ ∈ d.innerScripts := by
  induction lower generalizing d with
  | nil =>
      refine ⟨_, fun _ => .own, fun y hy => ?_⟩
      rcases mergeChain_cases h with ⟨rfl, rfl⟩ | ⟨base, hbase, hlink⟩
      · exact (Script.convert_empty y).symm ▸ hy
      · rw [redirectionsAmong_cons hbase, innerScripts_mergeLink hlink]
        exact List.mem_append_left _ (List.mem_map_of_mem hy)
  | cons leaf lower ih =>
      obtain ⟨base, hbase, hlink⟩ := exists_mergeLink h (by simp)
      obtain ⟨κ, hdescends, hmem⟩ := ih hbase
      refine ⟨_, fun id => (hdescends id).cross hbase (.field id),
        fun y hy => ?_⟩
      rw [innerScripts_mergeLink hlink, ← Script.convert_convert]
      exact List.mem_append_right _ (List.mem_map_of_mem (hmem y hy))

/-- The nested types of all links come down, and no others. -/
theorem mergeChain_conveysInner (h : mergeChain s chain = .ok d) :
    ConveysInner s chain d fun lower link above κ =>
      ∀ id, Descends s (link :: above) (.field id) lower κ where
  origin _ hx := exists_descends_inner h hx
  arrival lower link above hchain := by
    subst hchain
    exact descends_inner h

end Merge

end Stagewise
