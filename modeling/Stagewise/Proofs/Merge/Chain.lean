/-
What a folded chain consists of.

Merging a link into what extends it moves methods and rewrites code, but it
only ever adds fields and nested types: those of the base behind those of
the derived declaration (`mergeLink_eq_ok`). So a folded chain has the
fields and nested types of all its links, from derived to base, and the
name of its leaf (`mergeChain_eq_ok`). Formal parameters are replaced on
the way, so this is said of outlines.
-/
import Mathlib.Data.List.GetD
import Stagewise.Merge.Chain
import Stagewise.Proofs.Program.Outline
import Stagewise.Proofs.Stage.Discovery

namespace Stagewise

-- =========================================================== hidden outlines

theorem outline_outline_field (f : Field) :
    (f.outline id).outline TypeRef.hide = f.outline TypeRef.hide := by
  simp [Field.outline, Function.comp_def]

theorem outline_outline_method (m : Method) :
    (m.outline id).outline TypeRef.hide = m.outline TypeRef.hide := by
  simp [Method.outline, Param.outline, Function.comp_def]

namespace TypeDecl

mutual

theorem outline_outline : ∀ d : TypeDecl,
    (d.outline id).outline TypeRef.hide = d.outline TypeRef.hide
  | ⟨_, _, _, _, superclass, interfaces, _, _, fields, methods, _,
      nested, _⟩ => by
      simp only [outline, List.map_map, Option.map_map,
        outlines_outlines nested]
      simp [Function.comp_def, outline_outline_field, outline_outline_method]

theorem outlines_outlines : ∀ ds : List TypeDecl,
    outlines TypeRef.hide (outlines id ds) = outlines TypeRef.hide ds
  | [] => rfl
  | d :: ds => by
      rw [outlines, outlines, outlines, outline_outline d,
        outlines_outlines ds]

end

end TypeDecl

namespace Merge

open Transformer (KeepsTypes)

variable {base derived d : TypeDecl} {m : Method} {owner : String}

-- ================================================================== one link

/-- What a declaration is made of, its own methods left out. -/
structure SameRest (d d' : TypeDecl) : Prop where
  name : d'.name = d.name
  fields : d'.fields.map (·.outline id) = d.fields.map (·.outline id)
  nested : d'.nested.map (·.outline id) = d.nested.map (·.outline id)

theorem SameRest.trans {d₁ d₂ d₃ : TypeDecl} (h : SameRest d₁ d₂)
    (h' : SameRest d₂ d₃) :
    SameRest d₁ d₃ :=
  ⟨h'.name.trans h.name, h'.fields.trans h.fields, h'.nested.trans h.nested⟩

theorem SameRest.ofOutline {d' : TypeDecl} (h : d'.outline id = d.outline id) :
    SameRest d d' :=
  ⟨TypeDecl.name_of_outline h, TypeDecl.fields_of_outline h,
    TypeDecl.nested_of_outline h⟩

/-- Redirecting calls changes no type reference. -/
theorem redirectSuper_keepsTypes (overridden : Method) (target : MethodRef) :
    KeepsTypes (redirectSuper overridden target) := ⟨rfl, rfl⟩

theorem redirectSuper_outline (overridden : Method) (target : MethodRef)
    (d : TypeDecl) :
    (((redirectSuper overridden target).typeDecl d).run).outline id
      = d.outline id :=
  Transformer.plainly.typeDecl_outline _ (fun _ _ => trivial)
    ((redirectSuper_keepsTypes overridden target).typeRef_holds
      Transformer.plainly) d ()

/-- What merging a method makes of a declaration, with the override marker that
the overriding method may lose. -/
def takeMethod (owner : String) (derived : TypeDecl) (m : Method) : TypeDecl :=
  if m.modifiers.isStatic then { derived with
    methods := derived.methods ++ [m] }
  else
    match derived.methods.find? (·.overrides m) with
    | none => if m.isAbstract then derived else { derived with
        methods := derived.methods ++ [m] }
    | some o => if m.isAbstract || o.isAbstract then derived
        else mergeOverridden owner derived m

theorem mergeMethod_cases (owner : String) (derived : TypeDecl) (m : Method) :
    mergeMethod owner derived m = takeMethod owner derived m
      ∨ ∃ i, mergeMethod owner derived m = { takeMethod owner derived m with
        methods := (takeMethod owner derived m).methods.modify i
            dropOverride } := by
  unfold mergeMethod takeMethod
  rw [List.find?_eq_bind_findIdx?_getElem?]
  split
  · exact Or.inl rfl
  cases hi : derived.methods.findIdx? (·.overrides m) with
  | none => exact Or.inl rfl
  | some i =>
      have hlt := (List.findIdx?_eq_some_iff_getElem.1 hi).1
      rw [Option.bind_some, List.getElem?_eq_getElem hlt]
      dsimp only
      rw [List.getD_eq_getElem _ _ hlt]
      split
      · exact Or.inl rfl
      · exact Or.inr ⟨i, rfl⟩

/-- Where that marker is not seen, it makes no difference. -/
theorem mergeMethod_congr {α : Type} {g : TypeDecl → α}
    (hg : ∀ (d : TypeDecl) i,
      g { d with methods := d.methods.modify i dropOverride } = g d)
    (owner : String) (derived : TypeDecl) (m : Method) :
    g (mergeMethod owner derived m) = g (takeMethod owner derived m) := by
  rcases mergeMethod_cases owner derived m with h | ⟨i, h⟩
  · rw [h]
  · rw [h, hg]

/-- Merging a method leaves the rest of the declaration as it is, but for
the code in it. -/
theorem mergeMethod_sameRest :
    SameRest derived (mergeMethod owner derived m) := by
  have hmethods : ∀ (d : TypeDecl) methods, SameRest d { d with methods } :=
    fun _ _ => ⟨rfl, rfl, rfl⟩
  have htaken : SameRest derived (takeMethod owner derived m) := by
    unfold takeMethod
    split
    · exact hmethods _ _
    · split <;> split
      · exact ⟨rfl, rfl, rfl⟩
      · exact hmethods _ _
      · exact ⟨rfl, rfl, rfl⟩
      · exact (SameRest.ofOutline (redirectSuper_outline m _ derived)).trans
          (hmethods _ _)
  rcases mergeMethod_cases owner derived m with h | ⟨i, h⟩
  · exact h ▸ htaken
  · exact h ▸ htaken.trans (hmethods _ _)

theorem foldl_mergeMethod_sameRest (owner : String) (derived : TypeDecl)
    (ms : List Method) :
    SameRest derived (ms.foldl (mergeMethod owner) derived) := by
  induction ms generalizing derived with
  | nil => exact ⟨rfl, rfl, rfl⟩
  | cons m ms ih => exact mergeMethod_sameRest.trans (ih _)

/-- A base has the outline that it had, and the declaration extending it is
the same but for its formal parameters. -/
theorem instantiate_spec (base derived : TypeDecl) :
    (instantiate base derived).1.outline TypeRef.hide
      = base.outline TypeRef.hide
      ∧ ∃ typeParams, (instantiate base derived).2 = { derived with
        typeParams } := by
  unfold instantiate
  dsimp only
  split
  · exact ⟨rfl, _, rfl⟩
  · split
    · exact ⟨rfl, derived.typeParams, by cases derived; rfl⟩
    · exact ⟨Transformer.outline_run _ base,
        derived.typeParams, by cases derived; rfl⟩

/-- A declaration with what it takes over from its base before methods are
merged. -/
def takeOver (base derived : TypeDecl) : TypeDecl :=
  { derived with
    markers := addNew derived.markers base.markers
    interfaces := addNew derived.interfaces base.interfaces
    nested := derived.nested ++ base.nested
    fields := derived.fields ++ base.fields }

/-- A declaration with all that it gets from its base but constructors. -/
def mergeMembers (base derived : TypeDecl) : TypeDecl :=
  base.methods.foldl (mergeMethod base.name) (takeOver base derived)

theorem mergeMembers_sameRest (base derived : TypeDecl) :
    SameRest (takeOver base derived) (mergeMembers base derived) :=
  foldl_mergeMethod_sameRest base.name (takeOver base derived) base.methods

/-- A link consists of the merged members and merged constructors. Its formal
parameters make no difference to these. -/
theorem mergeLink_eq_merged (h : mergeLink base derived = .ok d) :
    ∃ typeParams constructors,
      mergeConstructors (instantiate base derived).1
          (mergeMembers (instantiate base derived).1
            { derived with typeParams }) = .ok constructors
        ∧ d = { mergeMembers (instantiate base derived).1
                { derived with typeParams } with
              constructors
              superclass := (instantiate base derived).1.superclass } := by
  obtain ⟨-, typeParams, hderived⟩ := instantiate_spec base derived
  unfold mergeLink at h
  dsimp only at h
  rw [hderived] at h
  obtain ⟨constructors, hconstructors, h⟩ := bind_eq_ok h
  exact ⟨typeParams, constructors, hconstructors, (Except.ok.inj h).symm⟩

/-- A link takes over the fields and nested types of its base. -/
theorem mergeLink_eq_ok (h : mergeLink base derived = .ok d) :
    d.name = derived.name
      ∧ d.fields.map (·.outline TypeRef.hide)
        = (derived.fields ++ base.fields).map (·.outline TypeRef.hide)
      ∧ d.nested.map (·.outline TypeRef.hide)
        = (derived.nested ++ base.nested).map (·.outline TypeRef.hide) := by
  obtain ⟨hbase, -⟩ := instantiate_spec base derived
  obtain ⟨typeParams, constructors, -, rfl⟩ := mergeLink_eq_merged h
  obtain ⟨hname, hfields, hnested⟩ :=
    mergeMembers_sameRest (instantiate base derived).1
      { derived with typeParams }
  refine ⟨hname, ?_, ?_⟩
  · refine (map_eq_of_map_eq outline_outline_field hfields).trans ?_
    unfold takeOver
    rw [List.map_append, List.map_append, TypeDecl.fields_of_outline hbase]
  · refine (map_eq_of_map_eq TypeDecl.outline_outline hnested).trans ?_
    unfold takeOver
    rw [List.map_append, List.map_append, TypeDecl.nested_of_outline hbase]

-- =============================================================== whole chains

/-- A folded chain has the name of its last link, and the fields and nested
types of all links, the last one's first. -/
theorem mergeLinks_eq_ok {ds : List TypeDecl}
    (h : mergeLinks (base :: ds) = .ok d) :
    d.name = ((base :: ds).getLastD base).name
      ∧ d.fields.map (·.outline TypeRef.hide)
        = ((base :: ds).reverse.flatMap TypeDecl.fields).map
          (·.outline TypeRef.hide)
      ∧ d.nested.map (·.outline TypeRef.hide)
        = ((base :: ds).reverse.flatMap TypeDecl.nested).map
          (·.outline TypeRef.hide) := by
  replace h : ds.foldlM mergeLink base = .ok d := h
  induction ds generalizing base with
  | nil =>
      obtain rfl := Except.ok.inj h
      simp
  | cons derived ds ih =>
      rw [List.foldlM_cons] at h
      obtain ⟨d₁, hlink, hrest⟩ := bind_eq_ok h
      obtain ⟨hname₁, hfields₁, hnested₁⟩ := mergeLink_eq_ok hlink
      obtain ⟨hname, hfields, hnested⟩ := ih hrest
      refine ⟨?_, ?_, ?_⟩
      · rw [hname]
        cases ds with
        | nil => exact hname₁
        | cons d₂ ds => simp [List.getLastD]
      · rw [hfields]
        simp only [List.reverse_cons, List.flatMap_append, List.flatMap_cons,
          List.flatMap_nil, List.append_nil, List.map_append, hfields₁,
          List.append_assoc]
      · rw [hnested]
        simp only [List.reverse_cons, List.flatMap_append, List.flatMap_cons,
          List.flatMap_nil, List.append_nil, List.map_append, hnested₁,
          List.append_assoc]

/-- A folded chain has the name of its leaf, and the fields and nested types
of all its links, from derived to base. -/
theorem mergeChain_eq_ok {s : Sources} {leaf : DeclId} {above : List DeclId}
    (h : mergeChain s (leaf :: above) = .ok d) :
    d.name = s.name leaf
      ∧ d.fields.map (·.outline TypeRef.hide)
        = (leaf :: above).flatMap
          (fun l => (s.get l).fields.map (·.outline TypeRef.hide))
      ∧ d.nested.map (·.outline TypeRef.hide)
        = (leaf :: above).flatMap
          (fun l => (s.get l).nested.map (·.outline TypeRef.hide)) := by
  obtain ⟨base, ds, hlinks⟩ : ∃ base ds, (leaf :: above).reverse.map s.get
      = base :: ds := by
    cases hlinks : (leaf :: above).reverse.map s.get with
    | nil => simp at hlinks
    | cons base ds => exact ⟨base, ds, rfl⟩
  unfold mergeChain at h
  rw [hlinks] at h
  obtain ⟨hname, hfields, hnested⟩ := mergeLinks_eq_ok h
  rw [← hlinks] at hname hfields hnested
  have hreverse : ((leaf :: above).reverse.map s.get).reverse
      = (leaf :: above).map s.get := by
    rw [List.map_reverse, List.reverse_reverse]
  rw [hreverse, List.flatMap_map, List.map_flatMap] at hfields hnested
  refine ⟨hname.trans ?_, hfields, hnested⟩
  rw [List.reverse_cons, List.map_append]
  simp [Sources.name]

end Merge

end Stagewise
