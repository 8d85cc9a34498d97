/-
By what the members of a type are told apart.

A field is told by its name, and a method by its signature, which is its
name with the types of its parameters. Where a type is rewritten, its
signatures are seen through a view of type references, as in outlines: it
keeps what the view keeps apart (`TypeDecl.distinct_outline`).
-/
import Mathlib.Data.List.Nodup
import Stagewise.Proofs.Program.Outline

namespace Stagewise

-- ================================================================= signatures

/-- The name of a method and the types of its parameters. -/
abbrev Signature := String × List TypeRef

/-- A signature as a view shows its types. -/
def Signature.view (g : TypeRef → TypeRef) (s : Signature) : Signature :=
  (s.1, s.2.map g)

@[simp] theorem Signature.view_id (s : Signature) : s.view id = s := by
  rw [view, List.map_id]

def Method.signature (m : Method) : Signature := (m.name, m.paramTypes)

theorem Method.overrides_iff {m other : Method} :
    m.overrides other = true ↔ m.signature = other.signature := by
  unfold overrides signature
  rw [Bool.and_eq_true, beq_iff_eq, beq_iff_eq, Prod.mk.injEq]

@[simp] theorem Method.signature_outline (g : TypeRef → TypeRef) (m : Method) :
    (m.outline g).signature = m.signature.view g := by
  simp [signature, Signature.view, outline, paramTypes, Param.outline,
    Function.comp_def]

@[simp] theorem Field.name_outline (g : TypeRef → TypeRef) (f : Field) :
    (f.outline g).name = f.name := rfl

theorem Method.signature_withIdentity (m : Method) (owner : String) :
    (m.withIdentity owner).signature = m.signature := by
  unfold withIdentity
  split <;> rfl

-- =========================================================== distinct members

namespace TypeDecl

def fieldNames (d : TypeDecl) : List String := d.fields.map Field.name

def signatures (d : TypeDecl) : List Signature :=
  d.methods.map Method.signature

/-- That no two fields of a type have one name, and no two methods one
signature in a view. -/
structure DistinctIn (g : TypeRef → TypeRef) (d : TypeDecl) : Prop where
  fields : d.fieldNames.Nodup
  methods : (d.signatures.map (Signature.view g)).Nodup

/-- That the fields of a type have different names, and its methods different
signatures. -/
structure Distinct (d : TypeDecl) : Prop where
  fields : d.fieldNames.Nodup
  methods : d.signatures.Nodup

instance (d : TypeDecl) : Decidable d.Distinct :=
  decidable_of_iff (d.fieldNames.Nodup ∧ d.signatures.Nodup)
    ⟨fun h => ⟨h.1, h.2⟩, fun h => ⟨h.fields, h.methods⟩⟩

variable {d d' : TypeDecl} {g k : TypeRef → TypeRef}

theorem distinct_congr (hfields : d'.fieldNames.Perm d.fieldNames)
    (hmethods : d'.signatures.Perm d.signatures) : d'.Distinct ↔ d.Distinct :=
  ⟨fun h => ⟨hfields.nodup_iff.1 h.fields, hmethods.nodup_iff.1 h.methods⟩,
    fun h => ⟨hfields.nodup_iff.2 h.fields, hmethods.nodup_iff.2 h.methods⟩⟩

/-- What a view keeps apart: different members, no two of whose signatures
become the same. -/
theorem distinctIn_iff : d.DistinctIn g ↔ d.Distinct
    ∧ ∀ s ∈ d.signatures, ∀ t ∈ d.signatures, s.view g = t.view g → s = t := by
  constructor
  · refine fun h => ⟨⟨h.fields, List.Nodup.of_map _ h.methods⟩,
      fun s hs t ht he => ?_⟩
    exact List.inj_on_of_nodup_map h.methods hs ht he
  · exact fun ⟨h, hinj⟩ =>
      ⟨h.fields, h.methods.map_on fun s hs t ht he => hinj s hs t ht he⟩

theorem fieldNames_outline (g : TypeRef → TypeRef) (d : TypeDecl) :
    (d.outline g).fieldNames = d.fieldNames := by
  have hfields : (d.outline g).fields = d.fields.map (·.outline g) := by
    cases d
    rfl
  unfold fieldNames
  rw [hfields, List.map_map]
  rfl

theorem signatures_outline (g : TypeRef → TypeRef) (d : TypeDecl) :
    (d.outline g).signatures = d.signatures.map (Signature.view g) := by
  have hmethods : (d.outline g).methods = d.methods.map (·.outline g) := by
    cases d
    rfl
  unfold signatures
  rw [hmethods, List.map_map, List.map_map]
  exact List.map_congr_left fun m _ => m.signature_outline g

theorem distinct_outline : (d.outline g).Distinct ↔ d.DistinctIn g := by
  constructor
  · exact fun h =>
      ⟨fieldNames_outline g d ▸ h.fields, signatures_outline g d ▸ h.methods⟩
  · exact fun h =>
      ⟨fieldNames_outline g d ▸ h.fields, signatures_outline g d ▸ h.methods⟩

theorem distinctIn_id : d.DistinctIn id ↔ d.Distinct := by
  have hview : Signature.view id = id := funext Signature.view_id
  constructor
  · refine fun h => ⟨h.fields, ?_⟩
    have hmethods := h.methods
    rwa [hview, List.map_id] at hmethods
  · refine fun h => ⟨h.fields, ?_⟩
    rw [hview, List.map_id]
    exact h.methods

-- =============================================================== nested types

mutual

/-- A type and the types nested in it, at any depth. -/
def all : TypeDecl → List TypeDecl
  | ⟨kind, name, package, typeParams, superclass, interfaces, modifiers,
      markers, fields, methods, constructors, nested, position⟩ =>
      ⟨kind, name, package, typeParams, superclass, interfaces, modifiers,
        markers, fields, methods, constructors, nested,
        position⟩ :: allOf nested

def allOf : List TypeDecl → List TypeDecl
  | [] => []
  | d :: ds => all d ++ allOf ds

end

theorem allOf_eq_flatMap (ds : List TypeDecl) : allOf ds = ds.flatMap all := by
  induction ds with
  | nil => rfl
  | cons d ds ih => rw [allOf, ih, List.flatMap_cons]

theorem all_eq (d : TypeDecl) : d.all = d :: d.nested.flatMap all := by
  cases d
  rw [all, allOf_eq_flatMap]

theorem forall_mem_all {P : TypeDecl → Prop} :
    (∀ t ∈ d.all, P t) ↔ P d ∧ ∀ inner ∈ d.nested, ∀ t ∈ inner.all, P t := by
  rw [all_eq, List.forall_mem_cons]
  refine and_congr_right fun _ => ?_
  simp only [List.mem_flatMap]
  exact ⟨fun h inner hinner t ht => h t ⟨inner, hinner, ht⟩,
    fun h t ⟨inner, hinner, ht⟩ => h inner hinner t ht⟩

variable {f : TypeDecl → TypeDecl}

mutual

/-- What is done to every type in the same way. -/
theorem all_map (hf : ∀ d, (f d).nested = d.nested.map f) : ∀ d : TypeDecl,
    (f d).all = d.all.map f
  | ⟨_, _, _, _, _, _, _, _, _, _, _, nested, _⟩ => by
      rw [all_eq, hf, all_eq, List.map_cons, flatMap_all_map hf nested]

theorem flatMap_all_map (hf : ∀ d, (f d).nested = d.nested.map f) :
    ∀ ds : List TypeDecl, (ds.map f).flatMap all = (ds.flatMap all).map f
  | [] => rfl
  | d :: ds => by
      rw [List.map_cons, List.flatMap_cons, List.flatMap_cons, List.map_append,
        all_map hf d, flatMap_all_map hf ds]

end

/-- A property of all types, seen before the types are changed. -/
theorem forall_mem_all_map {P Q : TypeDecl → Prop}
    (hf : ∀ d, (f d).nested = d.nested.map f)
    (hPQ : ∀ d, P (f d) ↔ Q d) (d : TypeDecl) :
    (∀ t ∈ (f d).all, P t) ↔ ∀ t ∈ d.all, Q t := by
  rw [all_map hf, List.forall_mem_map]
  exact forall₂_congr fun t _ => hPQ t

theorem nested_outline (g : TypeRef → TypeRef) (d : TypeDecl) :
    (d.outline g).nested = d.nested.map (outline g) := by
  cases d
  exact outlines_eq_map g _

/-- Types with distinct members, seen before type references are changed. -/
theorem forall_distinct_of_outline (h : d'.outline g = d.outline k) :
    (∀ t ∈ d'.all, t.DistinctIn g) ↔ ∀ t ∈ d.all, t.DistinctIn k := by
  rw [← forall_mem_all_map (nested_outline g) (P := Distinct)
    (fun _ => distinct_outline), h,
    forall_mem_all_map (nested_outline k) fun _ => distinct_outline]

end TypeDecl

end Stagewise
