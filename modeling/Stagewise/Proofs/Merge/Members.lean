/-
Which members a merged type has.

Folding a chain keeps the fields and nested types of every link, and of its
methods the static ones and the concrete ones, as long as none of these has
the signature of an abstract method below it (`NeverHides`). No member is
kept twice (`mergeChain_memberIds`).
-/
import Stagewise.Proofs.Merge.Tree
import Stagewise.Proofs.Program.Members

namespace Stagewise

/-- Whether a method is static or concrete. Folding a chain drops the
others. -/
def Method.isLasting (m : Method) : Bool :=
  m.modifiers.isStatic || !m.isAbstract

namespace Merge

open Compilation Stagewise.Composition Step

variable {c c' : Compilation} {n : CompositionId} {d base derived : TypeDecl}
variable {m : Method}
variable {owner : String} {ids : List Identity}

-- ================================================================= one method

/-- What matters of a method when another one is merged. -/
structure Profile where
  id : Identity
  isStatic : Bool
  isAbstract : Bool
  name : String
  params : List TypeRef

def profile (m : Method) : Profile :=
  ⟨m.id, m.modifiers.isStatic, m.isAbstract, m.name, m.paramTypes⟩

/-- That a method has the signature of an abstract one. -/
def IsHidden (ms : List Method) (m : Method) : Prop :=
  ∃ a ∈ ms, a.isAbstract = true ∧ a.overrides m = true

instance (ms : List Method) (m : Method) : Decidable (IsHidden ms m) :=
  inferInstanceAs
    (Decidable (∃ a ∈ ms, a.isAbstract = true ∧ a.overrides m = true))

theorem profile_outline (m : Method) : profile (m.outline id) = profile m := by
  simp [profile, Method.outline, Method.isAbstract, Method.paramTypes,
    Param.outline]

theorem isHidden_congr {ms ms' : List Method}
    (h : ms'.map profile = ms.map profile) :
    IsHidden ms' m ↔ IsHidden ms m := by
  have hiff : ∀ ms : List Method, IsHidden ms m ↔ ∃ p ∈ ms.map profile,
      p.isAbstract = true
        ∧ (p.name == m.name && p.params == m.paramTypes) = true := by
    intro ms
    unfold IsHidden
    simp only [List.mem_map, exists_exists_and_eq_and]
    rfl
  rw [hiff, hiff, h]

theorem map_profile_mergeMethod (owner : String) (derived : TypeDecl)
    (m : Method) :
    (mergeMethod owner derived m).methods.map profile
      = (takeMethod owner derived m).methods.map profile :=
  mergeMethod_congr (g := fun d => d.methods.map profile)
    (fun _ _ => map_modify_eq_map fun _ => rfl) owner derived m

theorem map_profile_mergeOverridden (owner : String) (derived : TypeDecl)
    (m : Method) :
    (mergeOverridden owner derived m).methods.map profile
      = derived.methods.map profile
      ++ [profile (keepOverridden m
        (Convention.overriddenName owner m.name))] := by
  have hredirect := TypeDecl.methods_of_outline (redirectSuper_outline m
    ⟨owner, Convention.overriddenName owner m.name, m.paramTypes⟩ derived)
  unfold mergeOverridden
  rw [List.map_append, map_eq_of_map_eq profile_outline hredirect]
  rfl

/-- What is appended when a method is merged: the method, perhaps under
another name, unless it is abstract or hidden. -/
theorem mergeMethod_appends (owner : String) (derived : TypeDecl)
    (m : Method) :
    ∃ added : List Method,
      (mergeMethod owner derived m).methods.map profile
          = derived.methods.map profile ++ added.map profile
        ∧ ((added = [] ∧ m.modifiers.isStatic = false
              ∧ (m.isAbstract = true ∨ IsHidden derived.methods m))
          ∨ ∃ a, added = [a] ∧ a.id = m.id ∧ a.isLasting = true
              ∧ (a.isAbstract = true →
                a = m ∧ m.modifiers.isStatic = true)) := by
  rw [map_profile_mergeMethod]
  unfold takeMethod
  split
  · rename_i hstatic
    refine ⟨[m], by simp, Or.inr ⟨m, rfl, rfl, ?_, fun _ => ⟨rfl, hstatic⟩⟩⟩
    rw [Method.isLasting, hstatic, Bool.true_or]
  rename_i hstatic
  rw [Bool.not_eq_true] at hstatic
  split
  · cases habstract : m.isAbstract with
    | true => exact ⟨[], by simp, Or.inl ⟨rfl, hstatic, Or.inl rfl⟩⟩
    | false =>
        refine ⟨[m], by simp, Or.inr ⟨m, rfl, rfl, ?_, fun ha => ?_⟩⟩
        · rw [Method.isLasting, habstract, Bool.not_false, Bool.or_true]
        · rw [habstract] at ha
          cases ha
  · rename_i o ho
    split
    · rename_i habstract
      refine ⟨[], by simp, Or.inl ⟨rfl, hstatic, ?_⟩⟩
      rw [Bool.or_eq_true] at habstract
      exact habstract.imp_right fun hhidden =>
        ⟨o, List.mem_of_find?_eq_some ho, hhidden,
          List.find?_some (p := fun o : Method => o.overrides m) ho⟩
    · rename_i habstract
      rw [Bool.or_eq_true, not_or] at habstract
      refine ⟨[keepOverridden m (Convention.overriddenName owner m.name)],
        map_profile_mergeOverridden owner derived m,
        Or.inr ⟨_, rfl, rfl, ?_, fun ha => absurd ha habstract.1⟩⟩
      unfold Method.isLasting
      have hkept :
        (keepOverridden m (Convention.overriddenName owner m.name)).isAbstract
        = m.isAbstract := rfl
      rw [hkept, Bool.not_eq_true _ |>.mp habstract.1, Bool.not_false,
        Bool.or_true]

-- ================================================================== one link

theorem isHidden_append {ms ms' : List Method} :
    IsHidden (ms ++ ms') m ↔ IsHidden ms m ∨ IsHidden ms' m := by
  simp only [IsHidden, List.mem_append, or_and_right, exists_or]

/-- That a method of this identity is there, static or concrete. -/
def Lasts (ms : List Method) (id : Identity) : Prop :=
  ∃ a ∈ ms, a.id = id ∧ a.isLasting = true

theorem lasts_append {ms ms' : List Method} {id : Identity} :
    Lasts (ms ++ ms') id ↔ Lasts ms id ∨ Lasts ms' id := by
  simp only [Lasts, List.mem_append, or_and_right, exists_or]

/-- The identity of a method, and whether folding a chain keeps it. -/
def trait (m : Method) : Identity × Bool := (m.id, m.isLasting)

theorem lasts_iff {ms : List Method} {id : Identity} :
    Lasts ms id ↔ (id, true) ∈ ms.map trait := by
  simp [Lasts, trait]

theorem lasts_congr {ms ms' : List Method} (h : ms'.map trait = ms.map trait)
    {id : Identity} :
    Lasts ms' id ↔ Lasts ms id := by
  rw [lasts_iff, lasts_iff, h]

theorem map_id_congr {ms ms' : List Method}
    (h : ms'.map trait = ms.map trait) :
    ms'.map Method.id = ms.map Method.id :=
  map_eq_of_map_eq (p := Prod.fst) (fun _ => rfl) h

theorem trait_of_profile {ms ms' : List Method}
    (h : ms'.map profile = ms.map profile) :
    ms'.map trait = ms.map trait :=
  map_eq_of_map_eq (p := fun p => (p.id, p.isStatic || !p.isAbstract))
    (fun _ => rfl) h

theorem trait_outline (g : TypeRef → TypeRef) (m : Method) :
    trait (m.outline g) = trait m := by
  simp [trait, Method.isLasting, Method.isAbstract, Method.outline]

/-- What is appended when all methods of a base are merged: some of them,
and each that is static or concrete unless one is hidden. -/
theorem foldl_mergeMethod_appends (owner : String) (ms : List Method)
    (derived : TypeDecl) :
    ∃ added : List Method,
      (ms.foldl (mergeMethod owner) derived).methods.map profile
          = derived.methods.map profile ++ added.map profile
        ∧ (added.map Method.id).Sublist (ms.map Method.id)
        ∧ ∀ ids : List Identity,
          (∀ m ∈ ms, m.id ∈ ids → m.modifiers.isStatic = false →
            m.isAbstract = false →
              ¬ IsHidden (derived.methods ++ ms.filter
                (·.modifiers.isStatic)) m) →
            ∀ m ∈ ms, m.id ∈ ids → m.isLasting = true → Lasts added m.id := by
  induction ms generalizing derived with
  | nil => exact ⟨[], by simp, List.nil_sublist _,
      fun _ _ _ hm => (nomatch hm)⟩
  | cons m ms ih =>
      obtain ⟨first, hfirst, hcases⟩ := mergeMethod_appends owner derived m
      obtain ⟨rest, hrest, hids, hlasts⟩ := ih (mergeMethod owner derived m)
      have hmethods : (mergeMethod owner derived m).methods.map profile
          = (derived.methods ++ first).map profile := by
        rw [hfirst, List.map_append]
      refine ⟨first ++ rest, ?_, ?_, fun ids hhidden => ?_⟩
      · rw [List.foldl_cons, hrest, hfirst, List.map_append, List.append_assoc]
      · rcases hcases with ⟨rfl, -, -⟩ | ⟨a, rfl, hid, -, -⟩
        · exact hids.cons _
        · rw [List.map_append, List.map_singleton, hid]
          exact hids.cons_cons _
      · obtain ⟨hm, hms⟩ := List.forall_mem_cons.1 hhidden
        refine List.forall_mem_cons.2 ⟨fun hid hlasting => ?_,
          fun m' hm' hid' hlasting => ?_⟩
        · rcases hcases with ⟨-, hstatic, hdropped⟩ | ⟨a, rfl, hsame, ha, -⟩
          · have habstract : m.isAbstract = false := by
              rw [Method.isLasting, hstatic, Bool.false_or,
                Bool.not_eq_true'] at hlasting
              exact hlasting
            rcases hdropped with hdropped | hdropped
            · rw [habstract] at hdropped
              cases hdropped
            · exact absurd (isHidden_append.2 (Or.inl hdropped))
                (hm hid hstatic habstract)
          · exact ⟨a, List.mem_append_left _ (List.mem_singleton_self a),
              hsame, ha⟩
        · -- what hides a method now was there, or is the static method that
          -- was just appended
          refine lasts_append.2 (Or.inr (hlasts ids ?_ m' hm' hid' hlasting))
          intro m'' hm'' hid'' hstatic habstract hhides
          refine hms m'' hm'' hid'' hstatic habstract ?_
          rw [isHidden_append, isHidden_congr hmethods,
            isHidden_append] at hhides
          rw [isHidden_append]
          rcases hhides with (hown | ⟨a, ha, habstract', hoverrides⟩)
            | ⟨a, ha, hrest⟩
          · exact Or.inl hown
          · rcases hcases with ⟨rfl, -, -⟩ | ⟨a', rfl, -, -, hsame⟩
            · cases ha
            · obtain rfl := List.mem_singleton.1 ha
              obtain ⟨rfl, hstatic'⟩ := hsame habstract'
              exact Or.inr
                ⟨a, List.mem_filter.2 ⟨List.mem_cons_self, hstatic'⟩,
                  habstract',
                hoverrides⟩
          · obtain ⟨hmem, hstatic'⟩ := List.mem_filter.1 ha
            exact Or.inr ⟨a, List.mem_filter.2 ⟨List.mem_cons_of_mem _ hmem,
              hstatic'⟩, hrest⟩

/-- That a concrete method of a base, one of `ids`, is hidden: an abstract
method of the declaration extending it has its signature, or a static one
of the base without a body. -/
def Hides (ids : List Identity) (base derived : TypeDecl) : Prop :=
  ∃ m ∈ base.methods, m.id ∈ ids ∧ m.modifiers.isStatic = false
    ∧ m.isAbstract = false
    ∧ IsHidden (derived.methods ++ base.methods.filter
      (·.modifiers.isStatic)) m

instance (ids : List Identity) (base derived : TypeDecl) :
    Decidable (Hides ids base derived) :=
  inferInstanceAs
    (Decidable (∃ m ∈ base.methods, m.id ∈ ids ∧ m.modifiers.isStatic = false
      ∧ m.isAbstract = false
      ∧ IsHidden (derived.methods ++ base.methods.filter
        (·.modifiers.isStatic)) m))

/-- A link has its own methods and some of its base, among them the static
and concrete ones unless one is hidden. -/
theorem mergeLink_methods (h : mergeLink base derived = .ok d) :
    (d.methods.map Method.id).Sublist
      ((derived.methods ++ base.methods).map Method.id)
      ∧ ∀ ids : List Identity,
      ¬ Hides ids (instantiate base derived).1 derived →
        ∀ m ∈ derived.methods ++ base.methods, m.id ∈ ids →
          m.isLasting = true →
          Lasts d.methods m.id := by
  have hmethods :=
    TypeDecl.methods_of_outline (instantiate_spec base derived).1
  obtain ⟨typeParams, constructors, -, rfl⟩ := mergeLink_eq_merged h
  obtain ⟨added, hadded, hsub, hlasts⟩ := foldl_mergeMethod_appends
    (instantiate base derived).1.name (instantiate base derived).1.methods
    (takeOver (instantiate base derived).1 { derived with typeParams })
  rw [← List.map_append] at hadded
  replace hadded : (mergeMembers (instantiate base derived).1
      { derived with typeParams }).methods.map trait
    = (derived.methods ++ added).map trait :=
    trait_of_profile hadded
  dsimp only
  have hbase := map_eq_of_map_eq (trait_outline TypeRef.hide) hmethods
  refine ⟨?_, fun ids hhides => ?_⟩
  · rw [map_id_congr hadded, List.map_append,
      List.map_append, ← map_id_congr hbase]
    exact hsub.append_left _
  · intro m hm hid hlasting
    have hm' : Lasts (derived.methods ++ base.methods) m.id :=
      ⟨m, hm, rfl, hlasting⟩
    rw [lasts_congr hadded, lasts_append]
    rw [lasts_append, ← lasts_congr hbase] at hm'
    refine hm'.imp_right ?_
    rintro ⟨a, ha, hsame, hlasting'⟩
    rw [← hsame] at hid ⊢
    refine hlasts ids (fun m hm hid hstatic habstract hhidden => hhides ?_) a
      ha hid hlasting'
    exact ⟨m, hm, hid, hstatic, habstract, hhidden⟩

/-- Lists made of parts in another order. -/
theorem append_parts_perm {α : Type} (as bs cs as' bs' cs' : List α) :
    ((as ++ as') ++ (bs ++ bs') ++ (cs ++ cs')).Perm
      ((as ++ bs ++ cs) ++ (as' ++ bs' ++ cs')) := by
  classical
  rw [List.perm_iff_count]
  intro a
  simp only [List.count_append]
  omega

/-- No member of a link or its base is there twice. -/
theorem mergeLink_memberIds (h : mergeLink base derived = .ok d) :
    d.memberIds.Subperm (derived.memberIds ++ base.memberIds) := by
  obtain ⟨-, hfields, hnested⟩ := mergeLink_eq_ok h
  have hfields' :=
    map_eq_of_map_eq (TypeDecl.id_field_outline TypeRef.hide) hfields
  have hnested' := TypeDecl.flatMap_memberIds_congr
    (map_eq_of_map_eq (TypeDecl.inventory_outline TypeRef.hide) hnested)
  rw [TypeDecl.memberIds_eq d, TypeDecl.memberIds_eq derived,
    TypeDecl.memberIds_eq base, hfields',
    hnested', List.map_append, List.flatMap_append]
  have hmethods := (mergeLink_methods h).1
  rw [List.map_append] at hmethods
  refine List.Sublist.subperm ?_ |>.trans (append_parts_perm ..).subperm
  exact (hmethods.append_left _).append_right _

-- =============================================================== whole chains

/-- That none of the concrete methods `ids` is hidden while declarations
are folded, each into the next. -/
def NeverHides (ids : List Identity) : TypeDecl → List TypeDecl → Prop
  | _, [] => True
  | base, derived :: ds =>
      ¬ Hides ids (instantiate base derived).1 derived
        ∧ match mergeLink base derived with
          | .ok d => NeverHides ids d ds
          | .error _ => True

instance decidableNeverHides (ids : List Identity) :
    ∀ base ds, Decidable (NeverHides ids base ds)
  | _, [] => isTrue trivial
  | base, derived :: ds =>
      have : Decidable (match mergeLink base derived with
          | .ok d => NeverHides ids d ds
          | .error _ => True) :=
        match mergeLink base derived with
        | .ok d => decidableNeverHides ids d ds
        | .error _ => isTrue trivial
      inferInstanceAs (Decidable (_ ∧ _))

/-- That none of the concrete methods `ids` is hidden while a chain, given
from derived to base, is folded. -/
def KeepsMethods (ids : List Identity) (s : Sources) (chain : List DeclId) :
    Prop :=
  match chain.reverse.map s.get with
  | [] => True
  | base :: ds => NeverHides ids base ds

instance (ids : List Identity) (s : Sources) (chain : List DeclId) :
    Decidable (KeepsMethods ids s chain) :=
  match h : chain.reverse.map s.get with
  | [] => isTrue (by unfold KeepsMethods; rw [h]; trivial)
  | base :: ds => decidable_of_iff (NeverHides ids base ds)
      (by unfold KeepsMethods; rw [h])

/-- A folded chain has no member of a link twice. -/
theorem mergeLinks_memberIds {ds : List TypeDecl} (h : mergeLinks ds = .ok d) :
    d.memberIds.Subperm (ds.flatMap TypeDecl.memberIds) := by
  cases ds with
  | nil => cases h
  | cons base ds =>
      replace h : ds.foldlM mergeLink base = .ok d := h
      induction ds generalizing base with
      | nil =>
          obtain rfl := Except.ok.inj h
          rw [List.flatMap_singleton]
      | cons derived ds ih =>
          rw [List.foldlM_cons] at h
          obtain ⟨d₁, hlink, hrest⟩ := bind_eq_ok h
          have hd₁ := (mergeLink_memberIds hlink).append
            (.refl (ds.flatMap TypeDecl.memberIds))
          refine (ih _ hrest).trans (hd₁.trans ?_)
          rw [List.flatMap_cons, List.flatMap_cons, ← List.append_assoc]
          exact (List.perm_append_comm.append_right _).subperm

/-- A folded chain has the static and the concrete methods of all links, if
none is hidden. -/
theorem mergeLinks_lasts {ds : List TypeDecl}
    (h : mergeLinks (base :: ds) = .ok d)
    (hhides : NeverHides ids base ds) :
    ∀ link ∈ base :: ds, ∀ m ∈ link.methods, m.id ∈ ids →
      m.isLasting = true → Lasts d.methods m.id := by
  replace h : ds.foldlM mergeLink base = .ok d := h
  induction ds generalizing base with
  | nil =>
      obtain rfl := Except.ok.inj h
      exact List.forall_mem_singleton.2 fun m hm _ hlasting =>
        ⟨m, hm, rfl, hlasting⟩
  | cons derived ds ih =>
      rw [List.foldlM_cons] at h
      obtain ⟨d₁, hlink, hrest⟩ := bind_eq_ok h
      rw [NeverHides, hlink] at hhides
      obtain ⟨hd₁, hds⟩ := List.forall_mem_cons.1 (ih hhides.2 hrest)
      have hfirst : ∀ m ∈ derived.methods ++ base.methods, m.id ∈ ids →
          m.isLasting = true →
          Lasts d.methods m.id := by
        intro m hm hid hlasting
        obtain ⟨a, ha, hsame, hlasting'⟩ :=
          (mergeLink_methods hlink).2 ids hhides.1 m hm hid hlasting
        rw [← hsame] at hid ⊢
        exact hd₁ a ha hid hlasting'
      obtain ⟨hderived, hbase⟩ := List.forall_mem_append.1 hfirst
      exact List.forall_mem_cons.2
        ⟨hbase, List.forall_mem_cons.2 ⟨hderived, hds⟩⟩

section

variable {s : Sources} {chain : List DeclId} (h : mergeChain s chain = .ok d)

include h

theorem mergeChain_memberIds :
    d.memberIds.Subperm (chain.flatMap fun l => (s.get l).memberIds) := by
  have hchain := mergeLinks_memberIds h
  rw [List.flatMap_map] at hchain
  exact hchain.trans ((List.reverse_perm chain).flatMap_right _).subperm

theorem mergeChain_lasts (hhides : KeepsMethods ids s chain) : ∀ link ∈ chain,
    ∀ m ∈ (s.get link).methods, m.id ∈ ids → m.isLasting = true →
      Lasts d.methods m.id := by
  intro link hlink
  have hmem : s.get link ∈ chain.reverse.map s.get :=
    List.mem_map.2 ⟨link, List.mem_reverse.2 hlink, rfl⟩
  unfold mergeChain at h
  unfold KeepsMethods at hhides
  split at hhides
  · rename_i hnil
    rw [hnil] at hmem
    cases hmem
  · rename_i base ds hlinks
    rw [hlinks] at h hmem
    exact mergeLinks_lasts h hhides _ hmem

/-- A folded chain has the fields and nested types of all links. -/
theorem mergeChain_parts :
    d.fields.map Field.id
      = (chain.flatMap fun l => (s.get l).fields).map Field.id
      ∧ d.nested.map TypeDecl.inventory
        = (chain.flatMap fun l => (s.get l).nested).map
          TypeDecl.inventory := by
  cases chain with
  | nil => cases h
  | cons leaf above =>
      obtain ⟨-, hfields, hnested⟩ := mergeChain_eq_ok h
      rw [← List.map_flatMap] at hfields hnested
      exact ⟨map_eq_of_map_eq (TypeDecl.id_field_outline TypeRef.hide) hfields,
        map_eq_of_map_eq (TypeDecl.inventory_outline TypeRef.hide) hnested⟩

end

-- ============================================================= types of nodes

/-- That a type is that of a node in the merged type `d`. The types of a
node's children are the last ones nested in its type, in order. -/
inductive IsTypeOf (t : Composition) (d : TypeDecl) :
    CompositionId → TypeDecl → Prop
  | root : IsTypeOf t d Composition.root d
  | child {p n : CompositionId} {outer inner : TypeDecl} :
      IsTypeOf t d p outer →
      (n, inner) ∈ (t.children p).reverse.zip outer.nested.reverse →
      IsTypeOf t d n inner

namespace IsTypeOf

variable {t t' : Composition} {d' type : TypeDecl}

/-- A type that looks the same, with the types nested in it, has a type of
the node that looks the same. -/
theorem congr {α : Type} {r : TypeDecl → α} {d d' : TypeDecl}
    (hr : ∀ d d', r d' = r d → d'.nested.map r = d.nested.map r)
    (h : IsTypeOf t d n type) (hd : r d' = r d) :
    ∃ type', IsTypeOf t d' n type' ∧ r type' = r type := by
  induction h with
  | root => exact ⟨d', .root, hd⟩
  | @child p n outer inner _ hinner ih =>
      obtain ⟨outer', houter', hsame⟩ := ih
      have hnested := congrArg List.reverse (hr _ _ hsame)
      rw [← List.map_reverse, ← List.map_reverse] at hnested
      have hmem : (n, r inner) ∈ (t.children p).reverse.zip
          (outer'.nested.reverse.map r) := by
        rw [hnested, List.zip_map_right]
        exact List.mem_map.2 ⟨_, hinner, rfl⟩
      rw [List.zip_map_right] at hmem
      obtain ⟨⟨n', inner'⟩, hinner', he⟩ := List.mem_map.1 hmem
      obtain ⟨rfl, hlook⟩ := Prod.mk.inj he
      exact ⟨inner', houter'.child hinner', hlook⟩

/-- What is done to all types in the same way is done to the type of the
node. -/
theorem map {f : TypeDecl → TypeDecl} (hf : ∀ d, (f d).nested = d.nested.map f)
    (h : IsTypeOf t d n type) : IsTypeOf t (f d) n (f type) := by
  induction h with
  | root => exact .root
  | child _ hinner ih =>
      refine ih.child ?_
      rw [hf, ← List.map_reverse, List.zip_map_right]
      exact List.mem_map.2 ⟨_, hinner, rfl⟩

/-- The members of the type are members of the whole. -/
theorem memberIds_subset (h : IsTypeOf t d n type) :
    type.memberIds ⊆ d.memberIds := by
  induction h with
  | root => exact List.Subset.refl _
  | child _ hinner ih =>
      intro id hid
      have hmem := List.mem_reverse.1 (List.of_mem_zip hinner).2
      exact ih (TypeDecl.mem_memberIds.2 (Or.inr (Or.inr ⟨_, hmem, hid⟩)))

/-- Only the form of the tree matters. -/
theorem sameForm (ht : SameForm t t') (h : IsTypeOf t' d n type) :
    IsTypeOf t d n type := by
  induction h with
  | root => exact .root
  | child _ hinner ih => exact ih.child (ht.children _ ▸ hinner)

end IsTypeOf

/-- The type that merging all below a node answers with. -/
def joined (c : Compilation) (n : CompositionId) : TypeDecl :=
  match mergeNode c c.tree.nodes.length n with
  | .ok merged => merged.type
  | .error _ => default

theorem Joins.eq_joined (h : Joins c n d) : d = joined c n := by
  obtain ⟨k, hk⟩ := h
  unfold joined
  rw [hk]

theorem map_fst_eq_joined {cs : List CompositionId}
    {children : List (TypeDecl × FieldRef)}
    (h : List.Forall₂
      (fun child p => (c.tree.get child).parentAccess = some p.2
        ∧ Joins c child p.1) cs children) :
    children.map Prod.fst = cs.map (joined c) := by
  induction h with
  | nil => rfl
  | cons hchild _ ih => rw [List.map_cons, List.map_cons, ih,
      hchild.2.eq_joined]

/-- The type of a node has its own members, and the types of its children
are nested in it behind its own nested types. -/
theorem Joins.parts (h : Joins c n d) : ∃ own,
    mergeDeclarations ((c.tree.get n).decls.map c.sources.get)
      (c.tree.get n).erasesTypeParams
        = .ok own
      ∧ d.fields.map Field.id = own.fields.map Field.id
      ∧ d.methods = own.methods
      ∧ d.nested = own.nested ++ (c.tree.children n).map (joined c) := by
  obtain ⟨own, children, hown, hchildren, rfl⟩ := h.eq_nestAll
  obtain ⟨-, hmethods, hnested⟩ := nestAll_rest own children
  have hfields :=
    map_fields_nestAll (g := Field.id) (fun _ _ => rfl) own children
  exact ⟨own, hown, hfields, hmethods, map_fst_eq_joined hchildren ▸ hnested⟩

/-- The type of a node has the members of its leaves. -/
theorem Joins.includes {leaf : DeclId} (h : Joins c n d)
    (hleaf : leaf ∈ (c.tree.get n).decls) :
    d.Includes (c.sources.get leaf) := by
  obtain ⟨own, hown, hfields, hmethods, hnested⟩ := h.parts
  obtain ⟨hownFields, hownNested, hownMethods⟩ := mergeDeclarations_eq_ok hown
  have hmem : c.sources.get leaf ∈ (c.tree.get n).decls.map c.sources.get :=
    List.mem_map_of_mem hleaf
  refine ⟨?_, ?_, ?_⟩
  · rw [hfields, hownFields]
    exact List.map_subset _ fun f hf => List.mem_flatMap.2 ⟨_, hmem, hf⟩
  · rw [hmethods, hownMethods]
    exact List.map_subset _ fun m hm => List.mem_flatMap.2 ⟨_, hmem, hm⟩
  · rw [hnested, hownNested, List.flatMap_append, List.flatMap_assoc]
    exact fun id hid =>
      List.mem_append_left _ (List.mem_flatMap.2 ⟨_, hmem, hid⟩)

/-- What merging all below a node answers with is the type of the node. -/
theorem Joins.isTypeOf {s : Sources} (ht : Formed s c.tree)
    (h : Joins c Composition.root d) :
    ∀ i, i < c.tree.nodes.length → Joins c ⟨i⟩ (joined c ⟨i⟩)
      ∧ IsTypeOf c.tree d ⟨i⟩ (joined c ⟨i⟩) := by
  intro i
  induction i using Nat.strongRecOn with
  | ind i ih =>
      intro hi
      obtain ⟨inner, hinner⟩ := h.all ht i hi
      obtain rfl := hinner.eq_joined
      refine ⟨hinner, ?_⟩
      by_cases hroot : (⟨i⟩ : CompositionId) = Composition.root
      · rw [hroot, ← h.eq_joined]
        exact .root
      · obtain ⟨p, hp, hlt⟩ := ht.parent ⟨i⟩ hi hroot
        obtain ⟨houter, htype⟩ := ih p.index hlt (Nat.lt_trans hlt hi)
        obtain ⟨own, -, -, -, hnested⟩ := houter.parts
        refine htype.child ?_
        have hmem : (⟨i⟩ : CompositionId) ∈ (c.tree.children p).reverse :=
          List.mem_reverse.2 (mem_children.2 ⟨hi, hp⟩)
        have hzip : (c.tree.children p).reverse.zip (joined c p).nested.reverse
            = (c.tree.children p).reverse.map fun m => (m, joined c m) := by
          rw [hnested, List.reverse_append, ← List.map_reverse,
            List.map_prod_left_eq_zip]
          nth_rewrite 1 [← List.append_nil (c.tree.children p).reverse]
          rw [List.zip_append (List.length_map _).symm, List.zip_nil_left,
            List.append_nil]
        rw [hzip]
        exact List.mem_map.2 ⟨_, hmem, rfl⟩

-- ============================================================= the whole tree

/-- The own type of a node has the members of all its declarations. -/
theorem memberIds_mergeDeclarations {ds : List TypeDecl} {erases : Bool}
    (h : mergeDeclarations ds erases = .ok d) :
    d.memberIds.Perm (ds.flatMap TypeDecl.memberIds) := by
  obtain ⟨hfields, hnested, hmethods⟩ := mergeDeclarations_eq_ok h
  rw [TypeDecl.memberIds_eq, hfields, hnested, hmethods, List.map_flatMap,
    List.map_flatMap, List.flatMap_assoc]
  have heq : ds.flatMap TypeDecl.memberIds = ds.flatMap fun d =>
      d.fields.map Field.id ++ d.methods.map Method.id ++ d.nested.flatMap
          TypeDecl.memberIds :=
    List.flatMap_congr fun d _ => d.memberIds_eq
  rw [heq]
  exact ((List.flatMap_append_perm ..).append_right _).trans
    (List.flatMap_append_perm ..)

/-- The type of the root has the members of all leaves, in the types of
their nodes. -/
theorem Joins.memberIds {s : Sources} (ht : Formed s c.tree)
    (h : Joins c Composition.root d) :
    d.memberIds.Perm (c.tree.leaves.flatMap fun leaf =>
      (c.sources.get leaf).memberIds) := by
  let own (n : CompositionId) : List Identity :=
    (c.tree.get n).decls.flatMap fun leaf => (c.sources.get leaf).memberIds
  let all (n : CompositionId) : List Identity := (joined c n).memberIds
  have hnode : ∀ n ∈ c.tree.ids,
      (all n).Perm (own n ++ (c.tree.children n).flatMap all) := by
    intro n hn
    obtain ⟨ownType, hown, hfields, hmethods, hnested⟩ :=
      (h.isTypeOf ht n.index (mem_ids.1 hn)).1.parts
    have hmembers := memberIds_mergeDeclarations hown
    rw [List.flatMap_map] at hmembers
    show (joined c n).memberIds.Perm _
    rw [TypeDecl.memberIds_eq, hfields, hmethods, hnested, List.flatMap_append,
      List.flatMap_map, ← List.append_assoc, ← TypeDecl.memberIds_eq]
    exact hmembers.append_right _
  -- every node but the root is counted once more, as a child
  have htotal :
      (all Composition.root ++ (c.tree.ids.flatMap c.tree.children).flatMap
        all).Perm
      (c.tree.ids.flatMap own ++ (c.tree.ids.flatMap c.tree.children).flatMap
        all) := by
    have hids :=
      (ht.children_perm.flatMap_right all).trans
      (List.Perm.flatMap_left _ hnode)
    rw [List.flatMap_cons] at hids
    refine hids.trans ?_
    rw [List.flatMap_assoc]
    exact (List.flatMap_append_perm ..).symm
  have hroot := (List.perm_append_right_iff _).1 htotal
  rw [h.eq_joined]
  refine hroot.trans ?_
  rw [← List.flatMap_assoc]
  exact ht.decls_perm.flatMap_right _

end Merge

end Stagewise
