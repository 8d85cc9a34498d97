/-
Members outside the dependency graph come first.

# Two kinds of keys

A member that is bound to a node has a key from ten upwards, since the
positions of nodes count from one, and one that is bound to nothing has the
key zero (`layout_of_unowned`, `layout_of_unplayed`). So by their bindings
all members outside the graph stand before all members of the graph.

The keys of final fields do not come from bindings. They count the fields
that depend on others (`countedKeys`), and so do those of their getters. A
count is not bounded, but by the number of those fields
(`countP_initOrder_le`), and from ten upwards its values are keys of members
of the graph too.

# The statement

Behind a member of the graph there is nothing outside it but final fields and
their getters, and not even these as long as the keys stay below ten, which
they do if fewer than ten final fields depend on others (`compile_leads`). In a
longer chain the last fields and getters come behind members of the first node
(`compile_trails`).
-/
import Stagewise.Proofs.Output.Emission
import Stagewise.Proofs.Output.Order

namespace Stagewise

open Output Step
open Lifecycle (pairTree)

variable {sources : Sources} {tree : Composition} {options : Options}
variable {b : Bindings} {c : Compilation} {d d' root : TypeDecl}
variable {path : TypePath}
variable {f g : Field} {m : Method}

-- ================================================================= the counts

namespace Output

variable {key : FinalField} {place next : Int} {xs : List (FinalField × Bool)}

/-- A count comes no further than there are fields that depend on something. -/
theorem countedKeys_lt (h : (key, place) ∈ countedKeys next xs) :
    place < max next 1 + xs.countP Prod.snd := by
  induction xs generalizing next with
  | nil => cases h
  | cons x xs ih =>
      obtain ⟨turned, isDependent⟩ := x
      rw [List.countP_cons]
      rcases List.mem_cons.1 h with he | hrest
      · obtain ⟨-, rfl⟩ := Prod.mk.inj he
        cases isDependent <;> simp <;> omega
      · have hlt := ih hrest
        cases isDependent <;> simp at hlt ⊢ <;> omega

/-- The final fields that depend on others. -/
def dependentKeys (root : TypeDecl) : List FinalField :=
  ((finalDependencies root).filter (!·.dependencies.isEmpty)).map
    FinalDependencies.key

theorem mem_dependentKeys :
    key ∈ dependentKeys root ↔ ∃ dep, Needs root key dep := by
  unfold dependentKeys
  simp only [List.mem_map, List.mem_filter, needs_iff, Bool.not_eq_true',
    List.isEmpty_eq_false_iff_exists_mem]
  constructor
  · rintro ⟨x, ⟨hx, dep, hdep⟩, rfl⟩
    exact ⟨dep, x, hx, rfl, hdep⟩
  · rintro ⟨dep, x, hx, rfl, hdep⟩
    exact ⟨x, ⟨hx, dep, hdep⟩, rfl⟩

theorem countP_initOrder_le :
    (initOrder root).countP Prod.snd ≤ (dependentKeys root).length := by
  have hnodup : (((initOrder root).filter Prod.snd).map Prod.fst).Nodup :=
    nodup_foundKeys.sublist (List.filter_sublist.map Prod.fst)
  have hsubset : ((initOrder root).filter Prod.snd).map Prod.fst
      ⊆ dependentKeys root := by
    intro key hkey
    obtain ⟨⟨key, isDependent⟩, hfound, rfl⟩ := List.mem_map.1 hkey
    obtain ⟨hfound, hdependent⟩ := List.mem_filter.1 hfound
    exact mem_dependentKeys.2 ((mem_initOrder hfound).2.1 hdependent)
  have hle := (hnodup.subperm hsubset).length_le
  rwa [List.length_map, ← List.countP_eq_length_filter] at hle

-- ======================================================= keys of final fields

/-- That a final field stands at a place of a tree, and has the key that the
count gives to it, or the one of its binding if it is not found. -/
structure Counted (b : Bindings) (root : TypeDecl) (key : FinalField)
    (f : Field) : Prop where
  declared : ∃ d g, FinalAt root key d g ∧ g.id = f.id ∧ g.name = f.name
  found : key ∈ foundKeys root →
    (key, f.layout) ∈ countedKeys 0 (initOrder root)
  others : key ∉ foundKeys root → f.layout = b.fieldLayout f.id

/-- That all final fields of a type have such keys. -/
def FinalsCounted (b : Bindings) (root : TypeDecl) (path : TypePath)
    (d : TypeDecl) : Prop :=
  ∀ f ∈ d.fields, f.modifiers.isFinal = true → ∃ i, Counted b root ⟨path, i⟩ f

theorem layout_placeMembers (ht : typeAt? path (placeMembers b root) = some d)
    (hf : f ∈ d.fields) : f.layout = b.fieldLayout f.id := by
  rw [typeAt?_map nested_placeMembers] at ht
  obtain ⟨u, -, rfl⟩ := Option.map_eq_some_iff.1 ht
  rw [(own_placeMembers u).1] at hf
  obtain ⟨f, -, rfl⟩ := List.mem_map.1 hf
  rfl

theorem orderFinals_counts (b : Bindings) (t : TypeDecl) :
    Everywhere (FinalsCounted b (placeMembers b t))
      (orderFinals (placeMembers b t)).root := by
  intro path d hd f hf hfinal
  obtain ⟨i, hi⟩ := List.mem_iff_getElem?.1 hf
  have hunderway : Underway (placeMembers b t) _ _ :=
    orderFinals_underway nodup_foundKeys
  have htypes := hunderway.types path
  rw [hd] at htypes
  obtain ⟨u, hu, hinitialized⟩ := exists_of_rel_some htypes
  -- but for its key and its initial value the field is the one that was placed
  have hfields := hinitialized.fields i
  rw [hi, Option.map_some] at hfields
  obtain ⟨g, hg, hsame⟩ := Option.map_eq_some_iff.1 hfields.symm
  have hkept : g.id = f.id ∧ g.name = f.name ∧ g.modifiers = f.modifiers := by
    split at hsame
    all_goals
      unfold unplaced at hsame
      simp only [Field.mk.injEq] at hsame
      tauto
  have hplace : FinalAt (placeMembers b t) ⟨path, i⟩ u g :=
    ⟨hu, hg, by rw [hkept.2.2, hfinal]⟩
  refine ⟨i, ⟨u, g, hplace, hkept.1, hkept.2.1⟩, fun hfound => ?_,
    fun hmissing => ?_⟩
  · rw [foundKeys, ← map_fst_countedKeys 0] at hfound
    obtain ⟨⟨key, place⟩, hcounted, rfl⟩ := List.mem_map.1 hfound
    obtain ⟨d', f', hd', hf', rfl⟩ := layout_orderFinals hplace hcounted
    obtain rfl := Option.some.inj (hd.symm.trans hd')
    obtain rfl := Option.some.inj (hi.symm.trans hf')
    exact hcounted
  · have huntouched := fieldAt?_orderFinals hmissing
    rw [hplace.fieldAt?, fieldAt?, hd, Option.bind_some, hi] at huntouched
    obtain rfl := Option.some.inj huntouched
    exact layout_placeMembers hu (List.mem_of_getElem? hg)

namespace FinalsCounted

theorem addGetters (h : FinalsCounted b root path d) :
    FinalsCounted b root path (addGetters d) := by
  rw [addGetters_eq]
  exact h

theorem stripMarkers (h : FinalsCounted b root path d) :
    FinalsCounted b root path (stripMarkers d) := by
  intro f' hf' hfinal
  rw [(own_stripMarkers d).2.1] at hf'
  obtain ⟨f, hf, rfl⟩ := List.mem_map.1 hf'
  obtain ⟨i, hcounted⟩ := h f hf hfinal
  exact ⟨i, hcounted.declared, hcounted.found, hcounted.others⟩

theorem sortMembers (h : FinalsCounted b root path d) :
    FinalsCounted b root path d.sortMembers := by
  intro f hf
  rw [(own_sortMembers d).2.1, mem_sortBy] at hf
  exact h f hf

end FinalsCounted

/-- Finishing leaves final fields the keys of the count. -/
theorem finished_counts (b : Bindings) (t : TypeDecl) :
    Everywhere (FinalsCounted b (placeMembers b t))
      (finished (placeMembers b t)) := by
  have hgetters := (orderFinals_counts b t).map nested_addGetters fun _ _ h =>
    h.addGetters
  have hstripped := hgetters.map nested_stripMarkers fun _ _ h =>
    h.stripMarkers
  exact hstripped.map nested_sortMembers fun _ _ h => h.sortMembers

/-- A key of the count is below ten if fewer than ten final fields depend on
others. -/
theorem Counted.layout_lt (h : Counted b root key f)
    (hfew : (dependentKeys root).length < 10)
    (hmissing : key ∉ foundKeys root → b.stageOfField? f.id = none) :
    f.layout < 10 := by
  by_cases hkey : key ∈ foundKeys root
  · have hlt := countedKeys_lt (h.found hkey)
    have hle : (initOrder root).countP Prod.snd ≤ _ := countP_initOrder_le
    omega
  · have hnone : b.fieldLayout f.id = 0 := by
      unfold Bindings.fieldLayout
      rw [hmissing hkey]
      rfl
    rw [h.others hkey, hnone]
    decide

end Output

-- ========================================================= inside and outside

/-- That a field belongs to some stage. -/
def InGraph (b : Bindings) (f : Field) : Prop := ∃ n, Owned b f n

/-- That a method of a type plays some role. -/
def PlaysSome (b : Bindings) (d : TypeDecl) (m : Method) : Prop :=
  ∃ n r, Plays b d m n r

/-- That fields outside the graph stand before all fields of the graph. -/
def FieldsLead (c : Compilation) (d : TypeDecl) : Prop :=
  d.fields.Pairwise fun f g => InGraph c.bindings f → InGraph c.bindings g

/-- That methods outside the graph, getters of final fields among them, stand
before all methods of the graph. -/
def MethodsLead (c : Compilation) (d : TypeDecl) : Prop :=
  d.methods.Pairwise fun m m' => PlaysSome c.bindings d m →
    PlaysSome c.bindings d m'

/-- What can come behind members of the graph in a type: nothing outside it but
final fields and getters, and only if their keys are high enough. -/
structure Leads (c : Compilation) (root : TypeDecl) (path : TypePath)
    (d : TypeDecl) : Prop where
  /-- The keys of final fields. A getter has that of its field. -/
  finals : FinalsCounted c.bindings root path d
  /-- All else outside the graph has the key zero. -/
  fieldKey : ∀ f ∈ d.fields, ¬ InGraph c.bindings f →
    f.modifiers.isFinal = false → f.layout = 0
  methodKey : ∀ m ∈ d.methods, ¬ PlaysSome c.bindings d m → ¬ IsGetter d m →
    m.layout = 0
  fields : d.fields.Pairwise fun f g =>
    InGraph c.bindings f → InGraph c.bindings g ∨ g.modifiers.isFinal = true
  methods : d.methods.Pairwise fun m m' =>
    PlaysSome c.bindings d m → PlaysSome c.bindings d m' ∨ IsGetter d m'
  low : (∀ f ∈ d.fields, f.modifiers.isFinal = true → f.layout < 10) →
    FieldsLead c d ∧ MethodsLead c d
  /-- A final field with a higher key than a field of the graph breaks the
  law. -/
  highField : ∀ f ∈ d.fields, ∀ g ∈ d.fields, InGraph c.bindings f →
    g.modifiers.isFinal = true →
    f.layout < g.layout → ¬ FieldsLead c d
  /-- So does a getter with a higher key than a method of the graph. -/
  highGetter : ∀ m ∈ d.methods, ∀ m' ∈ d.methods, PlaysSome c.bindings d m →
    IsGetter d m' →
    m.layout < m'.layout → ¬ MethodsLead c d

theorem layout_of_unowned (hkeyed : Keyed b d) (hf : f ∈ d.fields)
    (hout : ¬ InGraph b f)
    (hchanges : f.modifiers.isFinal = false) : f.layout = 0 := by
  rw [hkeyed.field f hf hchanges]
  cases hstage : b.stageOfField? f.id with
  | none =>
      unfold Bindings.fieldLayout
      rw [hstage]
      rfl
  | some n => exact absurd ⟨n, hstage, hchanges⟩ hout

theorem layout_of_unplayed (hkeyed : Keyed b d) (hm : m ∈ d.methods)
    (hout : ¬ PlaysSome b d m) (hown : ¬ IsGetter d m) : m.layout = 0 := by
  rw [hkeyed.method m hm hown]
  cases hrole : b.roleOf? m.id with
  | none =>
      unfold Bindings.methodLayout
      rw [hrole]
  | some x => exact absurd ⟨x.1, x.2, hrole, hown⟩ hout

namespace Placed

/-- The keys of the graph start from ten. -/
theorem le_layout_of_owned (h : Placed c) (hkeyed : Keyed c.bindings d)
    (hf : f ∈ d.fields) (hin : InGraph c.bindings f) : 10 ≤ f.layout := by
  obtain ⟨n, hn⟩ := hin
  rw [hkeyed.field f hf hn.changes, h.fieldLayout hn.stage]
  omega

theorem le_layout_of_plays (h : Placed c) (hkeyed : Keyed c.bindings d)
    (hm : m ∈ d.methods) (hin : PlaysSome c.bindings d m) : 10 ≤ m.layout := by
  obtain ⟨n, r, hr⟩ := hin
  rw [hkeyed.method m hm hr.own, h.methodLayout hr.role]
  omega

/-- Behind a field of the graph, one outside it is final and has a key from ten
upwards. -/
theorem fields_pairwise (h : Placed c) (hkeyed : Keyed c.bindings d)
    (hsorted : Sorted d) :
    d.fields.Pairwise fun f g => InGraph c.bindings f →
      ¬ InGraph c.bindings g →
      g.modifiers.isFinal = true ∧ 10 ≤ g.layout := by
  refine hsorted.fields.imp_of_mem fun {f g} hf hg hle hin hout => ?_
  have hten := h.le_layout_of_owned hkeyed hf hin
  refine ⟨Bool.of_not_eq_false fun hchanges => ?_, Int.le_trans hten hle⟩
  have hzero := layout_of_unowned hkeyed hg hout hchanges
  omega

theorem methods_pairwise (h : Placed c) (hkeyed : Keyed c.bindings d)
    (hsorted : Sorted d) :
    d.methods.Pairwise fun m m' => PlaysSome c.bindings d m →
      ¬ PlaysSome c.bindings d m' →
      IsGetter d m' ∧ 10 ≤ m'.layout := by
  refine hsorted.methods.imp_of_mem fun {m m'} hm hm' hle hin hout => ?_
  have hten := h.le_layout_of_plays hkeyed hm hin
  refine ⟨by_contra fun hown => ?_, Int.le_trans hten hle⟩
  have hzero := layout_of_unplayed hkeyed hm' hout hown
  omega

end Placed

theorem layout_of_isGetter (h : IsGetter d m) : ∃ f ∈ d.fields,
    f.modifiers.isFinal = true ∧ m.name = f.name ∧ m.layout = f.layout := by
  obtain ⟨f, hf, hfinal, rfl⟩ := h
  have hidentity : (getter d.name f).withIdentity d.name
      = { getter d.name f with id := (getter d.name f).identityIn d.name } :=
    if_pos rfl
  exact ⟨f, hf, hfinal, by rw [hidentity]; rfl, by rw [hidentity]; rfl⟩

/-- Of elements in rising order, one that lacks a property does not lead if its
key is higher than that of one that has it. -/
theorem not_pairwise_of_lt {α : Type} {value : α → Int} {P : α → Prop}
    {as : List α} {a a' : α}
    (hsorted : as.Pairwise fun x y => value x ≤ value y) (ha : a ∈ as)
    (ha' : a' ∈ as)
    (hlt : value a < value a') (hP : P a) (hP' : ¬ P a') :
    ¬ as.Pairwise fun x y => P x → P y := by
  intro hleads
  obtain ⟨before, after, rfl⟩ := List.append_of_mem ha
  rw [List.pairwise_append, List.pairwise_cons] at hsorted hleads
  rcases List.mem_append.1 ha' with ha' | ha'
  · have hle := hsorted.2.2 a' ha' a List.mem_cons_self
    omega
  · rcases List.mem_cons.1 ha' with rfl | ha'
    · omega
    · exact hP' (hleads.2.1.1 a' ha' hP)

/-- What is sorted by such keys leads as far as these tell. -/
theorem Placed.leads (h : Placed c) (hkeyed : Keyed c.bindings d)
    (hsorted : Sorted d)
    (hfinals : FinalsCounted c.bindings root path d) :
    Leads c root path d where
  finals := hfinals
  fieldKey f hf hout hchanges := layout_of_unowned hkeyed hf hout hchanges
  methodKey m hm hout hown := layout_of_unplayed hkeyed hm hout hown
  fields := (h.fields_pairwise hkeyed hsorted).imp fun himp hin =>
    or_iff_not_imp_left.2 fun hout => (himp hin hout).1
  methods := (h.methods_pairwise hkeyed hsorted).imp fun himp hin =>
    or_iff_not_imp_left.2 fun hout => (himp hin hout).1
  low hlow := by
    refine ⟨(h.fields_pairwise hkeyed hsorted).imp_of_mem
      fun {f g} _ hg himp hin => ?_,
      (h.methods_pairwise hkeyed hsorted).imp fun {m m'} himp hin => ?_⟩
    · by_contra hout
      obtain ⟨hfinal, hten⟩ := himp hin hout
      have hlt := hlow g hg hfinal
      omega
    · by_contra hout
      obtain ⟨hgetter, hten⟩ := himp hin hout
      obtain ⟨f, hf, hfinal, -, hsame⟩ := layout_of_isGetter hgetter
      have hlt := hlow f hf hfinal
      omega
  highField f hf g hg hin hfinal hlt := by
    refine not_pairwise_of_lt hsorted.fields hf hg hlt hin fun ⟨n, hn⟩ => ?_
    rw [hn.changes] at hfinal
    cases hfinal
  highGetter m hm m' hm' hin hgetter hlt :=
    not_pairwise_of_lt hsorted.methods hm hm' hlt hin fun ⟨_, _, hr⟩ =>
      hr.own hgetter

-- ==================================================================== the law

/-- A compilation finishes a type that it has placed. -/
theorem compile_finishes {compiled : Compiled}
    (htree : Composition.Built sources tree)
    (h : compile sources tree options = .ok compiled) :
    ∃ t, placedType? (withLifecycle sources tree options)
        = some (placeMembers (withLifecycle sources tree options).bindings t)
      ∧ compiled.merged
        = finished (placeMembers (withLifecycle sources tree options).bindings
          t) := by
  have ht := htree.formed
  obtain ⟨s, d, placed, hproduces⟩ := compile_produces ht h
  have hformed : Composition.Formed _ _ :=
    hproduces.form.formed (ht.sameHeads hproduces.heads)
  obtain ⟨t, rfl⟩ := placedType?_places hformed hproduces.placing
  exact ⟨t, hproduces.placing, hproduces.finishing⟩

/-- In every type of the result, nested ones included, nothing outside the
graph but final fields and their getters comes behind members of the graph.
Where fewer than ten final fields of the merged type depend on others, and
those that are not found have no identity of a stage, not even these do. -/
theorem compile_leads {compiled : Compiled}
    (htree : Composition.Built sources tree)
    (h : compile sources tree options = .ok compiled) :
    ∃ root, placedType? (withLifecycle sources tree options) = some root
      ∧ (∀ p ∈ typesAt [] compiled.merged,
        Leads (withLifecycle sources tree options) root p.1 p.2)
      ∧ ((dependentKeys root).length < 10 →
        (∀ key d f, FinalAt root key d f → key ∉ foundKeys root →
          (withLifecycle sources tree options).bindings.stageOfField? f.id
          = none) →
        ∀ p ∈ typesAt [] compiled.merged,
          FieldsLead (withLifecycle sources tree options) p.2
            ∧ MethodsLead (withLifecycle sources tree options) p.2) := by
  obtain ⟨t, hplacing, hfinishing⟩ := compile_finishes htree h
  have hleads : ∀ p ∈ typesAt [] compiled.merged,
      Leads (withLifecycle sources tree options)
      (placeMembers (withLifecycle sources tree options).bindings t)
      p.1 p.2 := by
    rintro ⟨path, u⟩ hu
    rw [hfinishing, mem_typesAt_root] at hu
    obtain ⟨hkeyed, hsorted⟩ := finished_keyed _ t path u hu
    exact (compile_placed h).leads hkeyed hsorted
      (finished_counts _ t path u hu)
  refine ⟨_, hplacing, hleads, fun hfew hmissing p hp => (hleads p hp).low
    fun f hf hfinal => ?_⟩
  obtain ⟨i, hcounted⟩ := (hleads p hp).finals f hf hfinal
  obtain ⟨d, g, hplace, hid, -⟩ := hcounted.declared
  exact hcounted.layout_lt hfew fun hkey => hid ▸ hmissing _ d g hplace hkey

/-- A type with a stage `X` and a chain of final fields, each of which reads
the one before. -/
def chainSources (length : Nat) : Sources :=
  let name (i : Nat) : String := "f" ++ toString i
  let link : Nat → Field
    | 0 => finalInt (name 0) (.literal (.int 1))
    | i + 1 => finalInt (name (i + 1)) (.field none ⟨"A", name i⟩)
  let x : Field :=
    { name := "x", type := .int, init := some (.literal (.int (-1))) }
  let a : TypeDecl :=
    { TypeDecl.participating "A" with
      fields := x :: (List.range length).map link }
  { decls := [a.assignIdentities] }

theorem built_chainSources (length : Nat) :
    Composition.Built (chainSources length) pairTree :=
  .add (n := Composition.root) (d := ⟨0⟩) .start (by decide) rfl

/-- With nine final fields that depend on others all final fields stand before
the field of the stage. -/
theorem compile_leads_chain : Composition.Built (chainSources 10) pairTree
    ∧ ∃ compiled root, compile (chainSources 10) pairTree {} = .ok compiled
      ∧ placedType? (withLifecycle (chainSources 10) pairTree {}) = some root
      ∧ (dependentKeys root).length = 9
      ∧ FieldsLead (withLifecycle (chainSources 10) pairTree {})
        compiled.merged
      ∧ MethodsLead (withLifecycle (chainSources 10) pairTree {})
        compiled.merged
      ∧ compiled.merged.fields.map Field.layout
        = [0, 1, 2, 3, 4, 5, 6, 7, 8, 9, 10] := by
  obtain ⟨compiled, hcompile, hkeys⟩ :=
    exists_compiled (s := chainSources 10) (t := pairTree)
    (o := {}) (p := fun compiled => compiled.merged.fields.map Field.layout
      == [0, 1, 2, 3, 4, 5, 6, 7, 8, 9, 10]) (by decide +kernel)
  obtain ⟨root, hplaced, -, hlead⟩ :=
    compile_leads (built_chainSources 10) hcompile
  have hroot : (placedType? (withLifecycle (chainSources 10) pairTree {})).all
      (fun root =>
        decide ((dependentKeys root).length = 9 ∧ ∀ key ∈ finalKeys root,
          key ∈ foundKeys root))
        = true := by decide +kernel
  rw [hplaced, Option.all_some] at hroot
  obtain ⟨hnine, hfound⟩ := of_decide_eq_true hroot
  obtain ⟨hfields, hmethods⟩ := hlead (by omega)
    (fun key d f hf hmissing => absurd
      (hfound key (mem_finalKeys.2 ⟨d, f, hf⟩)) hmissing)
    ([], compiled.merged) (mem_typesAt_root.2 rfl)
  exact ⟨built_chainSources 10, compiled, root, hcompile, hplaced, hnine,
    hfields, hmethods, beq_iff_eq.1 hkeys⟩

/-- That a final field has a higher key than a field of the graph, and a method
that is bound to nothing a higher one than a method of the graph. -/
def Trails (c : Compilation) (d : TypeDecl) : Prop :=
  (∃ f ∈ d.fields, ∃ g ∈ d.fields, f.layout < g.layout
      ∧ (c.bindings.stageOfField? f.id).isSome ∧ f.modifiers.isFinal = false
      ∧ g.modifiers.isFinal = true)
    ∧ ∃ m ∈ d.methods, ∃ m' ∈ d.methods, m.layout < m'.layout
      ∧ (c.bindings.roleOf? m.id).isSome
      ∧ (∀ f ∈ d.fields, f.modifiers.isFinal → m.name ≠ f.name)
      ∧ (c.bindings.roleOf? m'.id).isNone

instance (c : Compilation) (d : TypeDecl) : Decidable (Trails c d) :=
  inferInstanceAs (Decidable (_ ∧ _))

theorem Trails.not_lead (h : Trails c d) (hsorted : Sorted d) :
    ¬ FieldsLead c d ∧ ¬ MethodsLead c d := by
  obtain ⟨⟨f, hf, g, hg, hlt, hstage, hchanges, hfinal⟩,
    m, hm, m', hm', hlt', hrole, hnamed, hunbound⟩ := h
  obtain ⟨n, hn⟩ := Option.isSome_iff_exists.1 hstage
  obtain ⟨⟨k, r⟩, hr⟩ := Option.isSome_iff_exists.1 hrole
  refine ⟨not_pairwise_of_lt hsorted.fields hf hg hlt ⟨n, hn, hchanges⟩
    fun ⟨_, hg⟩ => ?_,
    not_pairwise_of_lt hsorted.methods hm hm' hlt'
    ⟨k, r, hr, fun hgetter => ?_⟩
      fun ⟨_, _, hm'⟩ => ?_⟩
  · rw [hg.changes] at hfinal
    cases hfinal
  · obtain ⟨f, hf, hfinal, hname, -⟩ := layout_of_isGetter hgetter
    exact hnamed f hf hfinal hname
  · rw [hm'.role] at hunbound
    cases hunbound

/-- With twelve that do, the last of them stand behind the field of the stage,
and their getters behind its init method. -/
theorem compile_trails : Composition.Built (chainSources 13) pairTree
    ∧ ∃ compiled, compile (chainSources 13) pairTree {} = .ok compiled
      ∧ ¬ FieldsLead (withLifecycle (chainSources 13) pairTree {})
        compiled.merged
      ∧ ¬ MethodsLead (withLifecycle (chainSources 13) pairTree {})
        compiled.merged := by
  obtain ⟨compiled, hcompile, htrails⟩ :=
    exists_compiled (s := chainSources 13) (t := pairTree)
    (o := {}) (p := fun compiled => decide
      (Trails (withLifecycle (chainSources 13) pairTree {}) compiled.merged))
    (by decide +kernel)
  obtain ⟨t, -, hfinishing⟩ :=
    compile_finishes (built_chainSources 13) hcompile
  have hsorted := (finished_keyed _ t [] _ (congrArg some hfinishing.symm)).2
  exact ⟨built_chainSources 13, compiled, hcompile,
    (of_decide_eq_true htrails).not_lead hsorted⟩

end Stagewise
