/-
What the merged type is called wherever it is named.

Renaming is a change of names (`rename_run`): a name that a declaration of
a composition node has becomes that of the node's merged type, and every
other name stays. The table that says so is read off the merged types, and
every node has one (`exists_mergedType?`).

As long as no declaration is named like the merged type of a node that is
not its own, the new names are names that stay (`settled_mergedNames`). So
afterwards none of the old names is left, and renaming once more changes
nothing (`renameMerged_renames`).
-/
import Stagewise.Proofs.Analysis.Routes
import Stagewise.Proofs.Output.Signatures
import Stagewise.Proofs.Program.Names

namespace Stagewise

namespace TypeDecl

mutual

/-- A nested type is found by its name, and is there if it is found. -/
theorem findNested?_spec (name : String) : ∀ d : TypeDecl,
    ((d.findNested? name).isSome = true ↔ ∃ t ∈ d.nested.flatMap all,
      t.name = name)
      ∧ ∀ t, d.findNested? name = some t → t.name = name
  | ⟨_, _, _, _, _, _, _, _, _, _, _, nested, _⟩ => findAmong?_spec name nested

theorem findAmong?_spec (name : String) : ∀ ds : List TypeDecl,
    ((findAmong? name ds).isSome = true ↔ ∃ t ∈ ds.flatMap all, t.name = name)
      ∧ ∀ t, findAmong? name ds = some t → t.name = name
  | [] => ⟨by simp [findAmong?], fun _ ht => nomatch ht⟩
  | d :: ds => by
      obtain ⟨hinner, hinnerName⟩ := findNested?_spec name d
      obtain ⟨hrest, hrestName⟩ := findAmong?_spec name ds
      rw [findAmong?, List.flatMap_cons, all_eq]
      split
      · rename_i hd
        have hname : d.name = name := beq_iff_eq.1 hd
        refine ⟨⟨fun _ => ⟨d, by simp, hname⟩, fun _ => rfl⟩, fun t ht => ?_⟩
        rw [← Option.some.inj ht, hname]
      · rename_i hd
        have hname : d.name ≠ name := fun h => hd (beq_iff_eq.2 h)
        constructor
        · simp only [List.cons_append, List.mem_cons, List.mem_append,
            Option.orElse_eq_or, Option.isSome_or, Bool.or_eq_true,
            hinner, hrest]
          constructor
          · intro h
            rcases h with ⟨t, ht, hname⟩ | ⟨t, ht, hname⟩
            · exact ⟨t, Or.inr (Or.inl ht), hname⟩
            · exact ⟨t, Or.inr (Or.inr ht), hname⟩
          · intro ⟨t, ht, htname⟩
            rcases ht with rfl | ht | ht
            · exact absurd htname hname
            · exact Or.inl ⟨t, ht, htname⟩
            · exact Or.inr ⟨t, ht, htname⟩
        · intro t ht
          rw [Option.orElse_eq_or, Option.or_eq_some_iff] at ht
          rcases ht with ht | ⟨-, ht⟩
          · exact hinnerName t ht
          · exact hrestName t ht

end

theorem mem_all_self (d : TypeDecl) : d ∈ d.all := by
  rw [all_eq]
  exact List.mem_cons_self

mutual

/-- What is nested in a nested type is nested. -/
theorem all_subset {t : TypeDecl} : ∀ d : TypeDecl, t ∈ d.all → t.all ⊆ d.all
  | ⟨_, _, _, _, _, _, _, _, _, _, _, nested, _⟩, h => by
      rw [all_eq, List.mem_cons] at h
      rcases h with rfl | h
      · exact List.Subset.refl _
      · rw [all_eq ⟨_, _, _, _, _, _, _, _, _, _, _, nested, _⟩]
        exact List.subset_cons_of_subset _ (flatMap_all_subset nested h)

theorem flatMap_all_subset {t : TypeDecl} : ∀ ds : List TypeDecl,
    t ∈ ds.flatMap all → t.all ⊆ ds.flatMap all
  | [], h => nomatch h
  | d :: ds, h => by
      rw [List.flatMap_cons, List.mem_append] at h
      rw [List.flatMap_cons]
      rcases h with h | h
      · exact List.subset_append_of_subset_left _ (all_subset d h)
      · exact List.subset_append_of_subset_right _ (flatMap_all_subset ds h)

end

end TypeDecl

namespace Merge

open Stagewise.Composition Step

variable {c : Compilation} {d : TypeDecl} {n : CompositionId}

-- =========================================================== the merged types

theorem name_set {s : Sources} {leaf : DeclId} (h : d.name = s.name leaf)
    (decl : DeclId) :
    (s.set leaf d).name decl = s.name decl := by
  by_cases hdecl : decl = leaf
  · subst hdecl
    by_cases hlt : decl.index < s.decls.length
    · unfold Sources.name
      rw [Sources.get_set_self hlt]
      exact h
    · have hsame : s.set decl d = s := by
        unfold Sources.set
        rw [List.set_eq_of_length_le (by omega)]
      rw [hsame]
  · unfold Sources.name
    rw [Sources.get_set_of_ne hdecl]

/-- A leaf that takes in its chain keeps its name. -/
theorem mergeTree_keeps_names (hform : Formed c.sources c.tree) :
    Ensures mergeTree c fun _ c' =>
      c'.sources.decls.length = c.sources.decls.length
      ∧ ∀ decl, c'.sources.name decl = c.sources.name decl := by
  unfold mergeTree setMerged
  simp only [ensures_bind, ensures_get]
  refine (ensures_mapM
    (I := fun _ c' => c'.sources.decls.length = c.sources.decls.length
      ∧ ∀ decl, c'.sources.name decl = c.sources.name decl) ?_ ⟨rfl,
      fun _ => rfl⟩).mono ?_
  · intro _ p hp c' hkept
    obtain ⟨hlength, hname⟩ := hkept
    obtain ⟨leaf, hleaf, rfl⟩ := List.mem_map.1 hp
    obtain ⟨above, habove⟩ :=
      Sources.extensionChain_eq_cons (hform.participating leaf hleaf)
    unfold mergeLeaf
    simp only [ensures_bind, ensures_get, ensures_ofExcept,
      ensures_modifySources, ensures_pure]
    intro folded hfolded
    rw [habove] at hfolded
    have hset := (mergeChain_eq_ok hfolded).1
    exact ⟨(Sources.length_set ..).trans hlength,
      fun decl => (name_set hset decl).trans (hname decl)⟩
  · intro _ c' hc'
    simp only [ensures_ofExcept, ensures_modifyTree, ensures_pure]
    exact fun _ _ => hc'

/-- The type of several declarations is named by their names joined; that of
one has its name. -/
theorem name_mergeDeclarations {ds : List TypeDecl} {erases : Bool}
    (h : mergeDeclarations ds erases = .ok d) :
    d.name = "_".intercalate (ds.map TypeDecl.name) := by
  have habsorb : ∀ (ds : List TypeDecl) (own : TypeDecl),
      (ds.foldl absorb own).name = own.name := by
    intro ds
    induction ds with
    | nil => exact fun _ => rfl
    | cons d ds ih => exact fun own => ih (absorb own d)
  match ds, h with
  | [], h => cases h
  | [own], h =>
      rw [← Except.ok.inj h, List.map_singleton]
      simp [String.intercalate_singleton]
  | first :: second :: rest, h =>
      rw [← Except.ok.inj h]
      exact habsorb _ _

theorem name_of_joins (h : Joins c n d) :
    d.name = "_".intercalate (c.tree.declNames c.sources n) := by
  obtain ⟨own, children, hown, -, rfl⟩ := h.eq_nestAll
  obtain ⟨hname, -⟩ := nestAll_rest own children
  rw [hname, name_mergeDeclarations hown, List.map_map]
  rfl

theorem IsTypeOf.mem_all {t : Composition} {type : TypeDecl}
    (h : IsTypeOf t d n type) : type ∈ d.all := by
  induction h with
  | root => exact d.mem_all_self
  | @child p n outer inner _ hinner ih =>
      have hmem : inner ∈ outer.nested :=
        List.mem_reverse.1 (List.of_mem_zip hinner).2
      apply TypeDecl.all_subset d ih
      rw [TypeDecl.all_eq]
      exact List.mem_cons_of_mem _
        (List.mem_flatMap.2 ⟨inner, hmem, inner.mem_all_self⟩)

/-- The type of every node but the root is nested in that of the root. -/
theorem IsTypeOf.mem_nested {t : Composition} {type : TypeDecl}
    (h : IsTypeOf t d n type) (hn : n ≠ Composition.root) :
    type ∈ d.nested.flatMap TypeDecl.all := by
  cases h with
  | root => exact absurd rfl hn
  | @child p _ outer _ houter hinner =>
      have hmem : type ∈ outer.nested :=
        List.mem_reverse.1 (List.of_mem_zip hinner).2
      have houter := houter.mem_all
      rw [TypeDecl.all_eq, List.mem_cons] at houter
      rcases houter with rfl | houter
      · exact List.mem_flatMap.2 ⟨type, hmem, type.mem_all_self⟩
      · apply TypeDecl.flatMap_all_subset d.nested houter
        rw [TypeDecl.all_eq]
        exact List.mem_cons_of_mem _
          (List.mem_flatMap.2 ⟨type, hmem, type.mem_all_self⟩)

end Merge

namespace Output

open Stagewise.Composition Merge Step

variable {c c₁ : Compilation} {d d₀ : TypeDecl}
variable {names : List (String × MergedName)}

-- ================================================================= the change

/-- What a name of a member's owner or of an enclosing object becomes. -/
def retitled (names : List (String × MergedName)) (name : String) : String :=
  ((names.lookup name).map MergedName.name).getD name

/-- The change of names that renaming makes. -/
def nameMap (names : List (String × MergedName)) : NameMap :=
  ⟨renamed names, retitled names⟩

theorem retitled_of_lookup {name : String} {m : MergedName}
    (h : names.lookup name = some m) :
    retitled names name = m.name := by
  unfold retitled
  rw [h]
  rfl

theorem retitled_of_not_lookup {name : String} (h : names.lookup name = none) :
    retitled names name = name := by
  unfold retitled
  rw [h]
  rfl

theorem renameOwner_holds (names : List (String × MergedName))
    (owner : String) :
    (Transformer.fromAnyState NameReport).holds
      (renameOwner names owner) fun _ owner' =>
      owner' = retitled names owner := by
  intro r _
  unfold renameOwner
  cases h : names.lookup owner with
  | none => exact (retitled_of_not_lookup h).symm
  | some m =>
      rw [retitled_of_lookup h]
      dsimp only
      split <;> rfl

/-- Renaming changes names and nothing else. -/
theorem rename_renames (names : List (String × MergedName)) :
    (Transformer.fromAnyState NameReport).Renames (rename names)
      (nameMap names) where
  look := rfl
  enter := rfl
  leave e := by
    cases e with
    | field t f =>
        refine Transformer.Reasoning.ofBind _ (renameOwner_holds names f.owner)
          fun owner => ?_
        refine Transformer.Reasoning.ofPure _ fun _ howner => ?_
        rw [howner]
        rfl
    | call t m args =>
        refine Transformer.Reasoning.ofBind _ (renameOwner_holds names m.owner)
          fun owner => ?_
        refine Transformer.Reasoning.ofPure _ fun _ howner => ?_
        rw [howner, Expr.mapTopNames, List.map_id]
        rfl
    | self q =>
        cases q with
        | none => exact Transformer.Reasoning.ofPure _ fun _ => rfl
        | some q =>
            refine Transformer.Reasoning.ofBind _ (renameOwner_holds names q)
              fun owner => ?_
            refine Transformer.Reasoning.ofPure _ fun _ howner => ?_
            rw [howner]
            rfl
    | _ => exact Transformer.Reasoning.ofPure _ fun _ => rfl
  types := typeRef_renames names

theorem rename_run (names : List (String × MergedName)) (d : TypeDecl)
    (r : NameReport) :
    (((rename names).typeDecl d).run r).1 = d.mapNames (nameMap names) :=
  (rename_renames names).typeDecl_holds d r ()

/-- What is recorded once the merged type is renamed. -/
theorem renameMerged_runOn (h : Records c d) : ∃ report, renameMerged.runOn c
    = (.ok report, { c with tree := c.tree.modify Composition.root fun x =>
        { x with
          merged := some (d.mapNames (nameMap (mergedNames c d))) } }) := by
  refine ⟨(((rename (mergedNames c d)).typeDecl d).run {}).2, ?_⟩
  unfold renameMerged
  rw [runOn_bind, runOn_merged h]
  dsimp only
  rw [runOn_bind, runOn_get]
  dsimp only
  rw [← rename_run (mergedNames c d) d {}]
  rfl

-- ------------------------------------------------------------ type references

/-- The type arguments that a merged type is given are formal parameters. -/
theorem namesOfAll_param (stop : String → Bool) (params : List String) :
    TypeRef.namesOfAll stop (params.map TypeRef.param) = [] := by
  induction params with
  | nil => rfl
  | cons p ps ih => exact ih

theorem renamedAll_param (params : List String) :
    renamedAll names (params.map TypeRef.param)
      = params.map TypeRef.param := by
  induction params with
  | nil => rfl
  | cons p ps ih =>
      rw [List.map_cons, renamedAll, ih]
      rfl

/-- The arguments of a merged type are its formal parameters, or there are
none. -/
theorem args_typeRef (m : MergedName) (t : TypeRef) :
    (m.typeRef t).args = []
      ∨ (m.typeRef t).args = m.typeParams.map TypeRef.param := by
  unfold MergedName.typeRef
  dsimp only
  split
  · exact Or.inl rfl
  · split
    · exact Or.inl rfl
    · exact Or.inr rfl

mutual

/-- Of a type reference the names are renamed. The arguments of a renamed
name are discarded. -/
theorem names_renamed (names : List (String × MergedName)) : ∀ t : TypeRef,
    (renamed names t).names (fun _ => false)
      = (t.names fun name => (names.lookup name).isSome).map (retitled names)
  | ⟨name, args, isParam⟩ => by
      rw [renamed, TypeRef.names]
      cases isParam with
      | true => rfl
      | false =>
          cases hlookup : names.lookup name with
          | none =>
              have hargs := namesOfAll_renamedAll names args
              simp only [Bool.false_eq_true, if_false, TypeRef.names, hargs,
                Option.isSome_none, List.map_cons,
                retitled_of_not_lookup hlookup]
          | some m =>
              have hnone : TypeRef.namesOfAll (fun _ => false)
                  (m.typeRef ⟨name, args, false⟩).args = [] := by
                rcases args_typeRef m ⟨name, args, false⟩ with hargs | hargs
                · rw [hargs]
                  rfl
                · rw [hargs, namesOfAll_param]
              have hnames : (m.typeRef ⟨name, args, false⟩).names
                  (fun _ => false)
                  = m.name :: TypeRef.namesOfAll (fun _ => false)
                    (m.typeRef ⟨name, args, false⟩).args := rfl
              simp only [Bool.false_eq_true, if_false, hnames, hnone,
                Option.isSome_some, if_true, List.map_cons, List.map_nil,
                retitled_of_lookup hlookup]

theorem namesOfAll_renamedAll (names : List (String × MergedName)) :
    ∀ ts : List TypeRef,
      TypeRef.namesOfAll (fun _ => false) (renamedAll names ts)
      = (TypeRef.namesOfAll (fun name => (names.lookup name).isSome) ts).map
        (retitled names)
  | [] => rfl
  | t :: ts => by
      rw [renamedAll, TypeRef.namesOfAll, TypeRef.namesOfAll,
        names_renamed names t, namesOfAll_renamedAll names ts, List.map_append]

end

-- ------------------------------------------------------------ names that stay

/-- That a name given is one that stays: if it is replaced at all, then by
the same. -/
def Settled (names : List (String × MergedName)) : Prop :=
  ∀ name m m', names.lookup name = some m →
    names.lookup m.name = some m' → m' = m

theorem retitled_retitled (h : Settled names) (name : String) :
    retitled names (retitled names name) = retitled names name := by
  cases hlookup : names.lookup name with
  | none => rw [retitled_of_not_lookup hlookup, retitled_of_not_lookup hlookup]
  | some m =>
      rw [retitled_of_lookup hlookup]
      cases hagain : names.lookup m.name with
      | none => exact retitled_of_not_lookup hagain
      | some m' => rw [retitled_of_lookup hagain, h name m m' hlookup hagain]

/-- A reference to a merged type stays as it is. -/
theorem renamed_typeRef (h : Settled names) {t : TypeRef} {m : MergedName}
    (hm : names.lookup t.name = some m) (hparam : t.isParam = false) :
    renamed names (m.typeRef t) = m.typeRef t := by
  have hargs := args_typeRef m t
  have hshape : m.typeRef t = ⟨m.name, (m.typeRef t).args, false⟩ := by
    rw [← hparam]
    rfl
  rw [hshape, renamed, if_neg Bool.false_ne_true]
  cases hagain : names.lookup m.name with
  | none =>
      dsimp only
      rcases hargs with hargs | hargs
      · rw [hargs]
        rfl
      · rw [hargs, renamedAll_param]
  | some m' =>
      obtain rfl := h _ _ _ hm hagain
      unfold MergedName.typeRef
      dsimp only
      cases m'.erases with
      | true => rfl
      | false =>
          cases t.args with
          | nil => rfl
          | cons a as => cases m'.typeParams <;> rfl

mutual

theorem renamed_renamed (h : Settled names) : ∀ t : TypeRef,
    renamed names (renamed names t) = renamed names t
  | ⟨name, args, isParam⟩ => by
      rw [renamed]
      cases isParam with
      | true => rfl
      | false =>
          rw [if_neg Bool.false_ne_true]
          cases hlookup : names.lookup name with
          | none =>
              have hargs := renamedAll_renamedAll h args
              dsimp only
              rw [renamed, if_neg Bool.false_ne_true, hlookup]
              dsimp only
              rw [hargs]
          | some m => exact renamed_typeRef h hlookup rfl

theorem renamedAll_renamedAll (h : Settled names) : ∀ ts : List TypeRef,
    renamedAll names (renamedAll names ts) = renamedAll names ts
  | [] => rfl
  | t :: ts => congrArg₂ List.cons (renamed_renamed h t)
      (renamedAll_renamedAll h ts)

end

/-- Where names given are names that stay, renaming twice is renaming
once. -/
theorem nameMap_after_self (h : Settled names) :
    (nameMap names).after (nameMap names)
    = nameMap names :=
  congrArg₂ NameMap.mk (funext (renamed_renamed h))
    (funext (retitled_retitled h))

-- ================================================================== the table

theorem map_fst_filterMap {α β γ : Type} {k : α → β} {o : α → Option γ}
    (as : List α) :
    (as.filterMap fun a => (o a).map (k a, ·)).map Prod.fst
      = (as.filter fun a => (o a).isSome).map k := by
  induction as with
  | nil => rfl
  | cons a as ih => cases h : o a <;> simp [h, ih]

/-- Which names are replaced, where no two declarations have one name: those
of declarations of a node whose merged type is found. -/
theorem lookup_mergedNames (hnames : (c.sources.decls.map TypeDecl.name).Nodup)
    {name : String} {m : MergedName} : (mergedNames c d).lookup name = some m ↔
      ∃ decl, c.sources.find? name = some decl
        ∧ mergedNameOf? c d decl = some m := by
  have hkeys : ((mergedNames c d).map Prod.fst).Nodup := by
    unfold mergedNames
    rw [map_fst_filterMap]
    rw [← Sources.map_name_ids] at hnames
    exact hnames.sublist (List.filter_sublist.map _)
  rw [lookup_eq_some_iff_mem hkeys, mergedNames, List.mem_filterMap]
  constructor
  · intro ⟨decl, hdecl, hmap⟩
    obtain ⟨m', hm', hpair⟩ := Option.map_eq_some_iff.1 hmap
    obtain ⟨rfl, rfl⟩ := Prod.mk.inj hpair
    exact ⟨decl, (Sources.find?_eq_some_iff hnames).2
      ⟨Sources.mem_ids.1 hdecl, rfl⟩, hm'⟩
  · intro ⟨decl, hfind, hm⟩
    obtain ⟨hdecl, rfl⟩ := Sources.name_of_find? hfind
    exact ⟨decl, Sources.mem_ids.2 hdecl, Option.map_eq_some_iff.2
      ⟨m, hm, rfl⟩⟩

/-- The composition node that a name leads to, if it is the name of a
declaration of one. -/
def namedNode? (c : Compilation) (name : String) : Option CompositionId :=
  (c.sources.find? name).bind c.tree.nodeOf?

/-- What a name should become: the name of the merged type of its node, if
it leads to one. -/
def newName (c : Compilation) (name : String) : String :=
  ((namedNode? c name).map (c.tree.mergedName c.sources)).getD name

/-- That no declaration of a node is named like the merged type of another
node. -/
def TitlesApart (c : Compilation) : Prop :=
  ∀ decl n m, c.tree.nodeOf? decl = some n → m.index < c.tree.nodes.length →
    c.sources.name decl = c.tree.mergedName c.sources m → m = n

theorem mem_of_nodeOf? {t : Composition} {decl : DeclId} {n : CompositionId}
    (h : t.nodeOf? decl = some n) : (decl, n) ∈ t.linkNodes := by
  unfold Composition.nodeOf? at h
  generalize t.linkNodes = links at h
  induction links with
  | nil => cases h
  | cons p links ih =>
      rw [List.lookup_cons] at h
      split at h
      · rename_i hp
        rw [beq_iff_eq.1 hp, ← Option.some.inj h]
        exact List.mem_cons_self
      · exact List.mem_cons_of_mem _ (ih h)

instance (c : Compilation) : Decidable (TitlesApart c) :=
  decidable_of_iff (∀ p ∈ c.tree.linkNodes, c.tree.nodeOf? p.1 = some p.2 →
      ∀ m ∈ c.tree.ids, c.sources.name p.1 = c.tree.mergedName c.sources m →
        m = p.2)
    ⟨fun h decl n m hn hm => h (decl, n) (mem_of_nodeOf? hn) hn m
      (mem_ids.2 hm),
      fun h p _ hp m hm => h p.1 p.2 m hp (mem_ids.1 hm)⟩

/-- That the tree binds declarations that there are to nodes that there
are. -/
def Bound (c : Compilation) : Prop :=
  ∀ decl n, c.tree.nodeOf? decl = some n →
    decl.index < c.sources.decls.length ∧ n.index < c.tree.nodes.length

/-- That the merged type of every node is found in the type `d` of the root,
with the name that the tree has for it. -/
def Titled (c : Compilation) (d : TypeDecl) : Prop :=
  ∀ n : CompositionId, n.index < c.tree.nodes.length →
    ∃ type, mergedTypeOf? c d n = some type
      ∧ type.name = c.tree.mergedName c.sources n

section

variable (hbound : Bound c)
variable (hnames : (c.sources.decls.map TypeDecl.name).Nodup)
  (htitled : Titled c d)

include hbound htitled

/-- Every declaration of a node has a new name, that of the node's merged
type. -/
theorem mergedNameOf?_of_node {decl : DeclId} {n : CompositionId}
    (hn : c.tree.nodeOf? decl = some n) : ∃ m, mergedNameOf? c d decl = some m
      ∧ m.name = c.tree.mergedName c.sources n := by
  obtain ⟨type, htype, hname⟩ := htitled n (hbound decl n hn).2
  refine ⟨⟨type.name, (c.tree.get n).erasesTypeParams, type.typeParams⟩,
    ?_, hname⟩
  unfold mergedNameOf?
  rw [hn]
  show (mergedTypeOf? c d n >>= _) = _
  rw [htype]
  rfl

include hnames

/-- A name is replaced exactly if it leads to a node, and then by the name of
the node's merged type. -/
theorem lookup_eq_none_or (name : String) :
    (namedNode? c name = none ∧ (mergedNames c d).lookup name = none)
      ∨ ∃ decl n m, c.sources.find? name = some decl
      ∧ c.tree.nodeOf? decl = some n
        ∧ (mergedNames c d).lookup name = some m
        ∧ mergedNameOf? c d decl = some m
        ∧ m.name = c.tree.mergedName c.sources n := by
  cases hfind : c.sources.find? name with
  | none =>
      refine Or.inl ⟨by rw [namedNode?, hfind]; rfl, ?_⟩
      refine Option.eq_none_iff_forall_ne_some.2 fun m hm => ?_
      obtain ⟨decl, hdecl, -⟩ := (lookup_mergedNames hnames).1 hm
      rw [hfind] at hdecl
      cases hdecl
  | some decl =>
      cases hn : c.tree.nodeOf? decl with
      | none =>
          refine Or.inl ⟨by rw [namedNode?, hfind]; exact hn, ?_⟩
          refine Option.eq_none_iff_forall_ne_some.2 fun m hm => ?_
          obtain ⟨decl', hdecl', hm⟩ := (lookup_mergedNames hnames).1 hm
          obtain rfl := Option.some.inj (hfind.symm.trans hdecl')
          unfold mergedNameOf? at hm
          rw [hn] at hm
          cases hm
      | some n =>
          obtain ⟨m, hm, hname⟩ := mergedNameOf?_of_node hbound htitled hn
          exact Or.inr ⟨decl, n, m, rfl, hn, (lookup_mergedNames hnames).2
            ⟨decl, hfind, hm⟩, hm, hname⟩

theorem retitled_mergedNames (name : String) :
    retitled (mergedNames c d) name = newName c name := by
  rcases lookup_eq_none_or hbound hnames htitled name with ⟨hnode, hlookup⟩ | h
  · rw [retitled_of_not_lookup hlookup, newName, hnode]
    rfl
  · obtain ⟨decl, n, m, hfind, hn, hlookup, -, hname⟩ := h
    rw [retitled_of_lookup hlookup, newName, namedNode?, hfind,
      Option.bind_some, hn, hname]
    rfl

theorem isSome_lookup_mergedNames (name : String) :
    ((mergedNames c d).lookup name).isSome = (namedNode? c name).isSome := by
  rcases lookup_eq_none_or hbound hnames htitled name with ⟨hnode, hlookup⟩ | h
  · rw [hnode, hlookup]
    rfl
  · obtain ⟨decl, n, m, hfind, hn, hlookup, -⟩ := h
    rw [hlookup, namedNode?, hfind, Option.bind_some, hn]
    rfl

/-- Where only a node's own declarations may be named like its merged type,
new names are names that stay. -/
theorem settled_mergedNames (hapart : TitlesApart c) :
    Settled (mergedNames c d) := by
  intro name m m' hm hm'
  obtain ⟨decl, hdecl, hof⟩ := (lookup_mergedNames hnames).1 hm
  obtain ⟨decl', hdecl', hof'⟩ := (lookup_mergedNames hnames).1 hm'
  rcases lookup_eq_none_or hbound hnames htitled name with ⟨-, hnone⟩ | h
  · rw [hm] at hnone
    cases hnone
  rcases lookup_eq_none_or hbound hnames htitled m.name with ⟨-, hnone⟩ | h'
  · rw [hm'] at hnone
    cases hnone
  obtain ⟨e, n, k, he, hn, hk, -, hname⟩ := h
  obtain ⟨e', n', k', he', hn', hk', -, hname'⟩ := h'
  obtain rfl := Option.some.inj (hdecl.symm.trans he)
  obtain rfl := Option.some.inj (hdecl'.symm.trans he')
  obtain rfl := Option.some.inj (hm.symm.trans hk)
  -- the declaration named like the merged type belongs to the same node
  have hsame : n = n' := by
    refine hapart decl' n' n hn' (hbound decl n hn).2 ?_
    rw [← hname]
    exact (Sources.name_of_find? hdecl').2
  unfold mergedNameOf? at hof hof'
  rw [hn, hsame] at hof
  rw [hn'] at hof'
  exact Option.some.inj (hof'.symm.trans hof)

end

-- ========================================================== after the merging

/-- What the merging of a tree starts from: a tree that was made, for
declarations of different names, with no merged type in it yet. -/
structure Unmerged (c : Compilation) : Prop where
  formed : Formed c.sources c.tree
  names : (c.sources.decls.map TypeDecl.name).Nodup
  merged : ∀ n, (c.tree.get n).merged = none

theorem Unmerged.ofBuilt {s : Sources} {t : Composition} (h : Built s t)
    (hnames : (s.decls.map TypeDecl.name).Nodup) (options : Options) :
    Unmerged { sources := s, tree := t, options } :=
  ⟨h.formed, hnames, h.merged⟩

/-- When the tree is merged, the type of every node is found by its name. -/
theorem titled_of_mergedTree {s : Sources} (hc : Unmerged c)
    (h : MergedTree c s d c₁) :
    Titled c₁ (titled c.options d) := by
  have hnode : ∀ n ≠ Composition.root, c₁.tree.get n = c.tree.get n := by
    intro n hn
    rw [h.state]
    exact get_modify_of_ne hn _
  intro n hn
  by_cases hroot : n = Composition.root
  · subst hroot
    refine ⟨titled c.options d, if_pos rfl, ?_⟩
    unfold Composition.mergedName
    rw [(records_of_mergedTree hc.formed.nonempty h).merged]
  · have hname : c₁.tree.mergedName c₁.sources n
        = "_".intercalate (c.tree.declNames s n) := by
      unfold Composition.mergedName Composition.declNames
      rw [hnode n hroot, hc.merged n, h.state]
    obtain ⟨hjoins, htype⟩ :=
      Joins.isTypeOf (c := { c with sources := s }) hc.formed h.joins
      n.index (h.form.length ▸ hn)
    have hjoined := name_of_joins hjoins
    have hmem : joined { c with sources := s } n
        ∈ d.nested.flatMap TypeDecl.all :=
      htype.mem_nested hroot
    have hfound := (TypeDecl.findNested?_spec (c₁.tree.mergedName c₁.sources n)
      (titled c.options d)).1.2 ⟨_, hmem, hjoined.trans hname.symm⟩
    obtain ⟨type, hfind⟩ := Option.isSome_iff_exists.1 hfound
    refine ⟨type, ?_, (TypeDecl.findNested?_spec _ _).2 type hfind⟩
    unfold mergedTypeOf?
    rw [if_neg hroot]
    exact hfind

-- ========================================================= renaming once more

/-- The compilation with another type recorded at the root. -/
def recording (c : Compilation) (d : TypeDecl) : Compilation :=
  { c with tree := c.tree.modify Composition.root fun x => { x with
    merged := some d } }

theorem records_recording (h : Records c d₀) (d : TypeDecl) :
    Records (recording c d) d :=
  ⟨(length_modify ..).symm ▸ h.nonempty, congrArg CompositionNode.merged
    (get_modify_self (n := Composition.root) h.nonempty _)⟩

/-- Recording what is recorded changes nothing. -/
theorem recording_eq_self (h : Records c d) : recording c d = c := by
  have hnodes : c.tree.nodes.modify Composition.root.index
      (fun x => { x with merged := some d })
      = c.tree.nodes := by
    refine modify_eq_self fun x hx => ?_
    have hget : c.tree.get Composition.root = x := by
      unfold Composition.get
      rw [List.getD_eq_getElem?_getD, hx]
      rfl
    rw [← h.merged, hget]
  unfold recording Composition.modify
  rw [hnodes]

/-- A change of names leaves what the table of new names reads. -/
theorem mergedNames_recording (c : Compilation) (d : TypeDecl) (ν : NameMap) :
    mergedNames (recording c (d.mapNames ν)) (d.mapNames ν)
      = mergedNames c d := by
  have hget : ∀ n ≠ Composition.root, (recording c (d.mapNames ν)).tree.get n
      = c.tree.get n :=
    fun n hn => get_modify_of_ne hn _
  have herases : ∀ n,
      ((recording c (d.mapNames ν)).tree.get n).erasesTypeParams
      = (c.tree.get n).erasesTypeParams :=
    get_modify_congr (g := CompositionNode.erasesTypeParams)
      (f := fun x => { x with merged := some (d.mapNames ν) }) fun _ => rfl
  have htype : ∀ n, mergedTypeOf? (recording c (d.mapNames ν)) (d.mapNames ν) n
      = (mergedTypeOf? c d n).map (TypeDecl.mapNames ν) := by
    intro n
    unfold mergedTypeOf?
    by_cases hroot : n = Composition.root
    · rw [if_pos hroot, if_pos hroot]
      rfl
    · have hname : (recording c (d.mapNames ν)).tree.mergedName
          (recording c (d.mapNames ν)).sources n
          = c.tree.mergedName c.sources n := by
        unfold Composition.mergedName Composition.declNames
        rw [hget n hroot]
        rfl
      rw [if_neg hroot, if_neg hroot, hname, TypeDecl.findNested?_mapNames]
  have hof : ∀ decl,
      mergedNameOf? (recording c (d.mapNames ν)) (d.mapNames ν) decl
      = mergedNameOf? c d decl := by
    intro decl
    unfold mergedNameOf?
    show ((c.tree.nodeOf? decl).bind _) = (c.tree.nodeOf? decl).bind _
    congr 1
    funext n
    rw [htype, herases]
    cases mergedTypeOf? c d n with
    | none => rfl
    | some type =>
        show some _ = some _
        rw [TypeDecl.name_mapNames, TypeDecl.typeParams_mapNames]
  unfold mergedNames
  simp only [hof]
  rfl

-- ============================================================ what is renamed

/-- What renaming makes of the merged type `d`. Nothing but names is
changed. Every name in the type becomes what it should; the type arguments
of a name that is replaced are discarded. No declaration of a node is named
any more, unless the name is that of the merged type of the same node. -/
structure RenamesTo (c : Compilation) (d d' : TypeDecl) : Prop where
  change : ∃ ν : NameMap, d' = d.mapNames ν
  names : d'.names (fun _ => false)
    = (d.names fun name => (namedNode? c name).isSome).map (newName c)
  gone : ∀ name ∈ d'.names fun _ => false, ∀ decl n,
    c.tree.nodeOf? decl = some n →
    c.sources.name decl = name → name = c.tree.mergedName c.sources n

/-- New names are not old ones. -/
theorem newName_gone (hbound : Bound c)
    (hnames : (c.sources.decls.map TypeDecl.name).Nodup)
    (hapart : TitlesApart c) {name : String} {decl : DeclId}
    {n : CompositionId}
    (hn : c.tree.nodeOf? decl = some n)
    (hname : c.sources.name decl = newName c name) :
    newName c name = c.tree.mergedName c.sources n := by
  cases hnode : namedNode? c name with
  | none =>
      have hkept : newName c name = name := by
        rw [newName, hnode]
        rfl
      rw [hkept] at hname
      have hfind : c.sources.find? name = some decl :=
        (Sources.find?_eq_some_iff hnames).2 ⟨(hbound decl n hn).1, hname⟩
      rw [namedNode?, hfind, Option.bind_some, hn] at hnode
      cases hnode
  | some m =>
      have hnew : newName c name = c.tree.mergedName c.sources m := by
        rw [newName, hnode]
        rfl
      rw [hnew] at hname ⊢
      have hm : m.index < c.tree.nodes.length := by
        obtain ⟨decl', -, hm⟩ := Option.bind_eq_some_iff.1 hnode
        exact (hbound decl' m hm).2
      rw [hapart decl n m hn hm hname]

/-- Where no declaration of a node is named like the merged type of another
one, every name in the merged tree becomes what it should, outside of what
stands in the arguments of a formal type parameter, and renaming once more
leaves everything as it is. -/
theorem renameMerged_renames {r : MergeReport} (hc : Unmerged c)
    (hmerge : mergeTree.runOn c = (.ok r, c₁)) (hapart : TitlesApart c₁) :
    ∃ d d' report report', Records c₁ d ∧ RenamesTo c₁ d d'
      ∧ renameMerged.runOn c₁ = (.ok report, recording c₁ d')
      ∧ renameMerged.runOn (recording c₁ d')
        = (.ok report', recording c₁ d') := by
  obtain ⟨s, d, hmerged⟩ := mergeTree_merged hc.formed _ _ hmerge
  obtain ⟨hlength, hname⟩ := mergeTree_keeps_names hc.formed _ _ hmerge
  have hrecords := records_of_mergedTree hc.formed.nonempty hmerged
  have htitled := titled_of_mergedTree hc hmerged
  have hnames : (c₁.sources.decls.map TypeDecl.name).Nodup := by
    have hids : c₁.sources.ids = c.sources.ids := by
      unfold Sources.ids
      rw [hlength]
    rw [← Sources.map_name_ids, hids, List.map_congr_left
      fun decl _ => hname decl, Sources.map_name_ids]
    exact hc.names
  have hbound : Bound c₁ := by
    intro decl n hn
    rw [hmerged.form.nodeOf?] at hn
    obtain ⟨leaf, hleaf, hlink⟩ := hc.formed.nodeOf?_eq_some.1 hn
    rw [hlength, hmerged.form.length]
    exact ⟨Sources.lt_of_link hlink, hc.formed.place _ hleaf⟩
  generalize titled c.options d = d at hrecords htitled
  have hsettled := settled_mergedNames hbound hnames htitled hapart
  obtain ⟨report, hrun⟩ := renameMerged_runOn hrecords
  obtain ⟨report', hagain⟩ := renameMerged_runOn (records_recording hrecords
    (d.mapNames (nameMap (mergedNames c₁ d))))
  refine ⟨d, d.mapNames (nameMap (mergedNames c₁ d)), report, report',
    hrecords, ?_, hrun, ?_⟩
  · have hstop : (fun name => ((mergedNames c₁ d).lookup name).isSome)
        = fun name => (namedNode? c₁ name).isSome :=
      funext (isSome_lookup_mergedNames hbound hnames htitled)
    have hnew : retitled (mergedNames c₁ d) = newName c₁ :=
      funext (retitled_mergedNames hbound hnames htitled)
    have hlisting := TypeDecl.names_mapNames (ν := nameMap (mergedNames c₁ d))
      (names_renamed (mergedNames c₁ d)) d
    rw [hstop, show (nameMap (mergedNames c₁ d)).owner = newName c₁
      from hnew] at hlisting
    refine ⟨⟨_, rfl⟩, hlisting, ?_⟩
    intro name hmem decl n hn hdecl
    rw [hlisting] at hmem
    obtain ⟨old, -, rfl⟩ := List.mem_map.1 hmem
    exact newName_gone hbound hnames hapart hn hdecl
  · rw [hagain, mergedNames_recording, TypeDecl.mapNames_mapNames,
      nameMap_after_self hsettled]
    exact congrArg (_, ·) (recording_eq_self (records_recording hrecords _))

/-- The house when its tree is made and the way to every node is given. -/
def house : Compilation where
  sources := houseSources
  tree :=
    (((houseTree.offerParentAccess
      ⟨1⟩ ⟨"House", "room"⟩).2.offerParentAccess
      ⟨2⟩ ⟨"Room", "lamp"⟩).2.offerParentAccess
      ⟨3⟩ ⟨"Site", "cellar"⟩).2

/-- In the house the lamp no longer names the site, which has become a part
of the house. -/
theorem renameMerged_renames_house : ∃ r c₁ d d' report report',
    mergeTree.runOn house = (.ok r, c₁) ∧ Records c₁ d ∧ RenamesTo c₁ d d'
      ∧ renameMerged.runOn c₁ = (.ok report, recording c₁ d')
      ∧ renameMerged.runOn (recording c₁ d') = (.ok report', recording c₁ d')
      ∧ "Site" ∈ d.names (fun _ => false)
      ∧ "Site" ∉ d'.names fun _ => false := by
  have hc : Unmerged house :=
    .ofBuilt (((built_houseTree.offer ⟨1⟩ _).offer ⟨2⟩ _).offer ⟨3⟩ _)
      (by decide) _
  obtain ⟨r, hmerge⟩ :=
    exists_runOn_eq (x := mergeTree) (c := house) (by decide +kernel)
  obtain ⟨d, d', report, report', hd, hd', hrun, hagain⟩ :=
    renameMerged_renames hc hmerge (by decide +kernel)
  refine ⟨r, _, d, d', report, report', hmerge, hd, hd', hrun, hagain, ?_,
    fun hmem => ?_⟩
  · have hnames :
        (((mergeTree.runOn house).2.tree.get Composition.root).merged.map
          fun d => decide ("Site" ∈ d.names fun _ => false)) = some true := by
      decide +kernel
    rw [hd.merged] at hnames
    exact of_decide_eq_true (Option.some.inj hnames)
  · have hgone := hd'.gone "Site" hmem ⟨0⟩ Composition.root (by decide +kernel)
      (by decide +kernel)
    revert hgone
    decide +kernel

-- ========================================================== formal parameters

/-- A box with a content whose type is a formal parameter, written with the
other declaration of the box as an argument. -/
def boxed : Compilation where
  sources :=
    let content : Field :=
      { name := "content", type := ⟨"T", [.named "Lid"], true⟩ }
    let box : TypeDecl :=
      { TypeDecl.participating "Box" with
        typeParams := ["T"], fields := [content] }
    { decls := [box, .participating "Lid"].map TypeDecl.assignIdentities }
  tree :=
    { nodes := [{ decls := [⟨0⟩, ⟨1⟩] }]
      leafNodes := [(⟨0⟩, ⟨0⟩), (⟨1⟩, ⟨0⟩)]
      linkNodes := [(⟨0⟩, ⟨0⟩), (⟨1⟩, ⟨0⟩)] }

/-- A reference to a formal parameter is left alone with its arguments, so
in them a declaration can still be named. -/
theorem renameMerged_skips_parameter : Unmerged boxed ∧ ∃ r c₁ report d',
    mergeTree.runOn boxed = (.ok r, c₁) ∧ TitlesApart c₁
      ∧ renameMerged.runOn c₁ = (.ok report, recording c₁ d')
      ∧ d'.fields.map Field.type = [⟨"T", [.named "Lid"], true⟩]
      ∧ (∃ decl, c₁.tree.nodeOf? decl = some Composition.root
        ∧ c₁.sources.name decl = "Lid")
      ∧ c₁.tree.mergedName c₁.sources Composition.root = "Box_Lid" := by
  have hbuilt : Built boxed.sources boxed.tree :=
    (Built.start.add (n := ⟨0⟩) (d := ⟨0⟩) (by decide) rfl).add
      (n := ⟨0⟩) (d := ⟨1⟩) (by decide) rfl
  obtain ⟨r, hmerge⟩ :=
    exists_runOn_eq (x := mergeTree) (c := boxed) (by decide +kernel)
  have htypes :
      (((mergeTree.runOn boxed).2.tree.get
        Composition.root).merged.map fun d =>
      (d.mapNames (nameMap
        (mergedNames (mergeTree.runOn boxed).2 d))).fields.map Field.type)
        = some [⟨"T", [.named "Lid"], true⟩] := by
    decide +kernel
  obtain ⟨d, hd, htypes⟩ := Option.map_eq_some_iff.1 htypes
  obtain ⟨report, hrun⟩ := renameMerged_runOn ⟨by decide +kernel, hd⟩
  exact ⟨.ofBuilt hbuilt (by decide) _, r, _, report, _,
    hmerge, by decide +kernel, hrun, htypes,
    ⟨⟨1⟩, by decide +kernel, by decide +kernel⟩, by decide +kernel⟩

end Output

end Stagewise
