/-
Replacing the formal parameters of a base, as a substitution.

Each formal parameter of the base is replaced by the argument that the extends
clause gives for it, all at once and everywhere in the base
(`instantiate_substitutes`). A nested type may declare formal parameters of its
own, to which replacing pays no regard. Where one of them bears the name of a
replaced parameter, references to it are replaced as well
(`instantiate_rebinds`), and where it bears a name that an argument mentions,
it captures this (`instantiate_captures`). So the names have to be apart
(`Unshadowed`); then every reference is read as before, with the formal
parameters of the base standing for their arguments.
-/
import Stagewise.Proofs.Merge.Instantiation
import Stagewise.Proofs.Program.TypeRefs

namespace Stagewise.Merge

variable {base derived : TypeDecl} {formals : List String}
variable {args : List TypeRef}
variable {formal : String} {arg t : TypeRef}

-- =========================================================== what is replaced

/-- What an extends clause puts in the place of each formal parameter. -/
def replacement (formals : List String) (args : List TypeRef) (p : String) :
    Option TypeRef :=
  (substitutionOf formals args).lookup p

/-- The arguments with which a declaration extends its base. -/
def extendsArgs (derived : TypeDecl) : List TypeRef :=
  (derived.superclass.map TypeRef.args).getD []

mutual

theorem typeRef_substitute (subst : TypeSubstitution) : ∀ t : TypeRef,
    ((substitute subst).typeRef t).run = t.subst (subst.lookup ·)
  | ⟨name, args, isParam⟩ => by
      have hargs := typeRefs_substitute subst args
      rw [TypeRef.subst, ← hargs]
      show Id.run (match if isParam then subst.lookup name else none with
        | some t => pure t
        | none => do
            let args ← (substitute subst).typeRefs args
            pure ⟨name, args, isParam⟩) = _
      cases (if isParam then subst.lookup name else none) <;> rfl

theorem typeRefs_substitute (subst : TypeSubstitution) : ∀ ts : List TypeRef,
    ((substitute subst).typeRefs ts).run = TypeRef.substAll (subst.lookup ·) ts
  | [] => rfl
  | t :: ts => by
      have ht := typeRef_substitute subst t
      have hts := typeRefs_substitute subst ts
      rw [TypeRef.substAll, ← ht, ← hts]
      rfl

end

theorem instantiated_eq_subst (base derived : TypeDecl) :
    instantiated base derived
      = TypeRef.subst (replacement base.typeParams (extendsArgs derived)) :=
  funext fun t => typeRef_substitute _ t

theorem mem_substitutionOf : (formal, arg) ∈ substitutionOf formals args
    ↔ (formal, arg) ∈ formals.zip args
    ∧ ¬ (arg.isParam = true ∧ arg.name = formal) := by
  rw [substitutionOf, List.mem_reverse, List.mem_filter,
    Bool.not_eq_true', ← Bool.not_eq_true, Bool.and_eq_true, beq_iff_eq]

/-- Formal parameters that differ have one argument each. -/
theorem eq_of_mem_zip {other : TypeRef} (hnodup : formals.Nodup)
    (harg : (formal, arg) ∈ formals.zip args)
    (hother : (formal, other) ∈ formals.zip args) :
    other = arg := by
  obtain ⟨i, hi, hget⟩ := List.mem_iff_getElem.1 harg
  obtain ⟨j, hj, hget'⟩ := List.mem_iff_getElem.1 hother
  rw [List.getElem_zip, Prod.mk.injEq] at hget hget'
  obtain rfl : j = i := (hnodup.getElem_inj_iff).1 (hget'.1.trans hget.1.symm)
  exact hget'.2.symm.trans hget.2

/-- That each formal parameter is replaced by the argument in its place, and
nothing else is. One that is passed on under its own name needs no
replacement. -/
structure Pairs (formals : List String) (args : List TypeRef)
    (σ : String → Option TypeRef) : Prop where
  argument : formals.Nodup → ∀ formal arg, (formal, arg) ∈ formals.zip args →
    σ formal = if arg.isParam = true
      ∧ arg.name = formal then none else some arg
  only : ∀ formal arg, σ formal = some arg → (formal, arg) ∈ formals.zip args

theorem replacement_pairs (formals : List String) (args : List TypeRef) :
    Pairs formals args (replacement formals args) := by
  have hfound : ∀ formal arg, replacement formals args formal = some arg →
      (formal, arg) ∈ substitutionOf formals args := by
    intro formal arg h
    obtain ⟨before, after, hsplit, -⟩ := List.lookup_eq_some_iff.1 h
    rw [hsplit]
    exact List.mem_append_right _ List.mem_cons_self
  constructor
  · intro hnodup formal arg hmem
    have hunique : ∀ other, replacement formals args formal = some other →
        other = arg :=
      fun other h => eq_of_mem_zip hnodup hmem
        (mem_substitutionOf.1 (hfound formal other h)).1
    by_cases hpassed : arg.isParam = true ∧ arg.name = formal
    · rw [if_pos hpassed, Option.eq_none_iff_forall_ne_some]
      intro other h
      obtain rfl := hunique other h
      exact (mem_substitutionOf.1 (hfound formal other h)).2 hpassed
    · rw [if_neg hpassed]
      cases h : replacement formals args formal with
      | none =>
          have hin := mem_substitutionOf.2 ⟨hmem, hpassed⟩
          have hnot := List.lookup_eq_none_iff.1 h (formal, arg) hin
          simp at hnot
      | some other => rw [hunique other h]
  · intro formal arg h
    exact (mem_substitutionOf.1 (hfound formal arg h)).1

-- ============================================================= all references

/-- That where a declaration refers to a formal parameter that is replaced, no
nested type around declares this parameter, or one that its argument
mentions. -/
def Unshadowed (σ : String → Option TypeRef) (d : TypeDecl) : Prop :=
  ∀ x ∈ d.refs, ∀ p ∈ x.2.params, ∀ arg ∈ σ p, ∀ q ∈ p :: arg.params, q ∉ x.1

instance (σ : String → Option TypeRef) (d : TypeDecl) :
    Decidable (Unshadowed σ d) :=
  inferInstanceAs (Decidable (∀ x ∈ d.refs, ∀ p ∈ x.2.params, ∀ arg ∈ σ p,
    ∀ q ∈ p :: arg.params, q ∉ x.1))

/-- That a declaration comes about from another one by substitution. Every type
reference is changed in its place, and nothing else is. Formal parameters that
a nested type declares are not touched. However names and formal parameters are
read, a reference is read as before, those of nested types alike and those from
outside standing for their arguments. So a formal parameter from outside that
is referred to afterwards has not been replaced, or the argument of one that
has been has brought it in. -/
structure Substitutes (σ : String → Option TypeRef) (base result : TypeDecl) :
    Prop where
  everywhere : result = base.mapNames (NameMap.ofTypes (TypeRef.subst σ))
  bound : result.refs = base.refs.map fun (bound, t) =>
    (bound, t.subst (TypeRef.hidden σ bound))
  reads : ∀ {α : Type} (f : String → List α → α) (inner outer : String → α),
    (result.refs.map fun (bound, t) => t.read f
      (TypeRef.within bound inner outer))
      = base.refs.map fun (bound, t) =>
        t.read f (TypeRef.within bound inner (TypeRef.through f σ outer))
  free : ∀ q ∈ result.freeParams, (q ∈ base.freeParams ∧ σ q = none)
    ∨ ∃ p ∈ base.freeParams, ∃ arg, σ p = some arg ∧ q ∈ arg.params

theorem substitutes_mapNames {σ : String → Option TypeRef} {d : TypeDecl}
    (h : Unshadowed σ d) :
    Substitutes σ d (d.mapNames (NameMap.ofTypes (TypeRef.subst σ))) where
  everywhere := rfl
  bound := by
    rw [TypeDecl.refs_mapNames]
    refine List.map_congr_left fun x hx => ?_
    have hsame : x.2.subst σ = x.2.subst (TypeRef.hidden σ x.1) := by
      refine TypeRef.subst_congr x.2 fun p hp => ?_
      unfold TypeRef.hidden
      split
      · rename_i hbound
        exact Option.eq_none_iff_forall_ne_some.2 fun arg harg =>
          h x hx p hp arg harg p List.mem_cons_self hbound
      · rfl
    exact congrArg (Prod.mk x.1) hsame
  reads f inner outer := by
    rw [TypeDecl.refs_mapNames, List.map_map]
    refine List.map_congr_left fun x hx => ?_
    show (x.2.subst σ).read f _ = x.2.read f _
    rw [TypeRef.read_subst]
    refine TypeRef.read_congr f x.2 fun p hp => ?_
    cases hσ : σ p with
    | none =>
        rw [TypeRef.through_of_none f hσ]
        unfold TypeRef.within
        rw [TypeRef.through_of_none f hσ]
        rfl
    | some arg =>
        -- neither the parameter nor what its argument mentions is declared
        -- around
        have hfresh := h x hx p hp arg hσ
        rw [TypeRef.through_of_some f hσ,
          TypeRef.within_of_notMem inner _ (hfresh p List.mem_cons_self),
          TypeRef.through_of_some f hσ]
        exact TypeRef.read_congr f arg fun q hq =>
          TypeRef.within_of_notMem inner outer
            (hfresh q (List.mem_cons_of_mem p hq))
  free q hq := by
    obtain ⟨y, hy, hq, hfree⟩ := TypeDecl.mem_freeParams.1 hq
    rw [TypeDecl.refs_mapNames] at hy
    obtain ⟨x, hx, rfl⟩ := List.mem_map.1 hy
    rcases TypeRef.mem_params_subst x.2 hq with ⟨hkept, hnone⟩
      | ⟨p, hp, arg, harg, hq⟩
    · exact Or.inl ⟨TypeDecl.mem_freeParams.2 ⟨x, hx, hkept, hfree⟩, hnone⟩
    · have hpfree := h x hx p hp arg harg p List.mem_cons_self
      exact Or.inr ⟨p, TypeDecl.mem_freeParams.2 ⟨x, hx, hp, hpfree⟩,
        arg, harg, hq⟩

/-- Instantiating a base substitutes the arguments of the extends clause for
its formal parameters, if no nested type stands in the way. -/
theorem instantiate_substitutes
    (h : Unshadowed (replacement base.typeParams (extendsArgs derived)) base) :
    Pairs base.typeParams (extendsArgs derived)
        (replacement base.typeParams (extendsArgs derived))
      ∧ Substitutes (replacement base.typeParams (extendsArgs derived)) base
        (instantiate base derived).1 := by
  refine ⟨replacement_pairs _ _, ?_⟩
  rw [instantiate_eq_mapNames, instantiated_eq_subst]
  exact substitutes_mapNames h

/-- A base with two formal parameters and a nested type with one of its own. -/
def nodeBase (own : String) (value : TypeRef) : TypeDecl :=
  let node : TypeDecl :=
    { name := "Node", typeParams := [own],
      fields := [{ name := "value", type := value }] }
  { TypeDecl.participating "Base" with
    typeParams := ["T", "U"]
    fields :=
      [{ name := "pair", type := .generic "Pair" [.param "T", .param "U"] }]
    nested := [node] }

/-- What extends this base with some arguments. -/
def nodeLeaf (args : List TypeRef) : TypeDecl :=
  { TypeDecl.participating "Leaf" with
    superclass := some (.generic "Base" args) }

/-- Arguments that mention the formal parameters themselves are put in at
once. -/
theorem instantiate_substitutes_crosswise :
    Unshadowed (replacement ["T", "U"]
      [.param "U", .generic "List" [.param "T"]])
        (nodeBase "V" (.generic "Map" [.param "V", .param "T"]))
      ∧ (instantiate (nodeBase "V" (.generic "Map" [.param "V", .param "T"]))
        (nodeLeaf [.param "U", .generic "List" [.param "T"]])).1.refs
          = [([], .generic "Pair" [.param "U", .generic "List" [.param "T"]]),
            (["V"], .generic "Map" [.param "V", .param "U"])] := by
  have hapart :
      Unshadowed (replacement ["T", "U"]
        [.param "U", .generic "List" [.param "T"]])
      (nodeBase "V" (.generic "Map" [.param "V", .param "T"])) := by
    decide +kernel
  have hsubstitutes := @instantiate_substitutes _
    (nodeLeaf [.param "U", .generic "List" [.param "T"]]) hapart
  refine ⟨hapart, hsubstitutes.2.bound.trans ?_⟩
  decide +kernel

/-- A reference to a formal parameter that a nested type declares is replaced
all the same, if a replaced one has this name. -/
theorem instantiate_rebinds :
    (["T"], TypeRef.param "T") ∈ (nodeBase "T" (.param "T")).refs
      ∧ (["T"], TypeRef.named "String")
        ∈ (instantiate (nodeBase "T" (.param "T"))
          (nodeLeaf [.named "String", .named "String"])).1.refs
      ∧ (["T"], TypeRef.param "T") ∉ (instantiate (nodeBase "T" (.param "T"))
        (nodeLeaf [.named "String", .named "String"])).1.refs := by
  decide +kernel

/-- An argument is put in where a nested type declares a formal parameter that
it mentions. -/
theorem instantiate_captures :
    (["V"], TypeRef.param "T") ∈ (nodeBase "V" (.param "T")).refs
      ∧ (["V"], TypeRef.param "V") ∈ (instantiate (nodeBase "V" (.param "T"))
        (nodeLeaf [.param "V", .named "String"])).1.refs := by
  decide +kernel

end Stagewise.Merge
