/-
The folding of a chain, method by method.

# Profiles

What becomes of the methods of a base depends on their names, their
parameter types, and on which are static and which concrete. So a link is
folded as lists of profiles are (`profiles_mergeLink`).

# Clashes

A concrete method of an object is either appended where none has its
signature, or kept under another name. Two methods of one signature come
about in two ways only: a static method is appended without a look at what
is there, or the name that an overridden method is kept under is taken
(`Clashes`). The folding of a chain shows in its last link
(`nodup_mergeChain`).
-/
import Stagewise.Proofs.Merge.Members
import Stagewise.Proofs.Program.Signatures

namespace Stagewise.Merge

variable {base derived d : TypeDecl} {owner : String} {there : List Profile}
variable {p : Profile}

-- =================================================================== profiles

namespace Profile

def signature (p : Profile) : Signature := (p.name, p.params)

/-- The method as it is kept once it is overridden. -/
def renamed (p : Profile) (owner : String) : Profile :=
  { p with name := Convention.overriddenName owner p.name }

end Profile

def profiles (d : TypeDecl) : List Profile := d.methods.map profile

@[simp] theorem map_signature_profiles (d : TypeDecl) :
    (profiles d).map Profile.signature = d.signatures :=
  List.map_map

/-- What is appended when a method of a base is merged. -/
def appended? (owner : String) (there : List Profile) (p : Profile) :
    Option Profile :=
  if p.isStatic then some p
  else
    match there.find? (·.signature == p.signature) with
    | none => if p.isAbstract then none else some p
    | some o => if p.isAbstract || o.isAbstract then none
        else some (p.renamed owner)

/-- The methods of a base appended one by one. -/
def appendAll (owner : String) (there ps : List Profile) : List Profile :=
  ps.foldl (fun there p => there ++ (appended? owner there p).toList) there

theorem find?_profiles (d : TypeDecl) (m : Method) :
    (profiles d).find? (·.signature == (profile m).signature)
      = (d.methods.find? (·.overrides m)).map profile := by
  unfold profiles
  rw [List.find?_map]
  refine congrArg (fun f => (d.methods.find? f).map profile)
    (funext fun a => ?_)
  rw [Bool.eq_iff_iff, Method.overrides_iff]
  exact beq_iff_eq

theorem profiles_mergeMethod (owner : String) (derived : TypeDecl)
    (m : Method) :
    profiles (mergeMethod owner derived m)
      = profiles derived ++ (appended? owner (profiles derived)
        (profile m)).toList := by
  have hstatic : (profile m).isStatic = m.modifiers.isStatic := rfl
  have habstract : (profile m).isAbstract = m.isAbstract := rfl
  refine (map_profile_mergeMethod owner derived m).trans ?_
  unfold takeMethod appended?
  rw [hstatic, habstract, find?_profiles]
  split
  · exact List.map_append
  cases derived.methods.find? (·.overrides m) with
  | none =>
      cases m.isAbstract with
      | true => exact (List.append_nil _).symm
      | false => exact List.map_append
  | some o =>
      have hsame : (profile o).isAbstract = o.isAbstract := rfl
      rw [Option.map_some]
      dsimp only
      rw [hsame]
      split
      · exact (List.append_nil _).symm
      · exact map_profile_mergeOverridden owner derived m

theorem profiles_foldl_mergeMethod (owner : String) (ms : List Method)
    (derived : TypeDecl) :
    profiles (ms.foldl (mergeMethod owner) derived)
      = appendAll owner (profiles derived) (ms.map profile) := by
  induction ms generalizing derived with
  | nil => rfl
  | cons m ms ih =>
      rw [List.foldl_cons, ih, profiles_mergeMethod]
      rfl

/-- A link has its own methods, and what is appended of its base. -/
theorem profiles_mergeLink (h : mergeLink base derived = .ok d) :
    profiles d = appendAll (instantiate base derived).1.name (profiles derived)
      (profiles (instantiate base derived).1) := by
  obtain ⟨typeParams, constructors, -, rfl⟩ := mergeLink_eq_merged h
  exact profiles_foldl_mergeMethod _ _ _

-- ==================================================================== clashes

/-- That a method gets a signature that is there: a static one that has it, or
one that is kept under another name. -/
def Clashes (owner : String) (there : List Profile) (p : Profile) : Prop :=
  if p.isStatic then ∃ o ∈ there, o.signature = p.signature
  else p.isAbstract = false
    ∧ (there.find? (·.signature == p.signature)).any (!·.isAbstract) = true
    ∧ ∃ o ∈ there, o.signature = (p.renamed owner).signature

instance (owner : String) (there : List Profile) (p : Profile) :
    Decidable (Clashes owner there p) := by
  unfold Clashes
  infer_instance

/-- A method is appended under a signature that is there exactly if it
clashes. -/
theorem clashes_iff : Clashes owner there p
    ↔ ∃ a ∈ appended? owner there p,
    a.signature ∈ there.map Profile.signature := by
  unfold Clashes appended?
  simp only [List.mem_map, Option.mem_def]
  cases p.isStatic with
  | true => simp
  | false =>
      rw [if_neg Bool.false_ne_true, if_neg Bool.false_ne_true]
      cases hfind : there.find? (·.signature == p.signature) with
      | none =>
          have hnone := List.find?_eq_none.1 hfind
          simp only [beq_iff_eq] at hnone
          cases p.isAbstract with
          | true => simp
          | false => simpa using hnone
      | some o => cases p.isAbstract <;> cases o.isAbstract <;> simp

/-- That nothing clashes while the methods of a base are appended. -/
def NeverClash (owner : String) : List Profile → List Profile → Prop
  | _, [] => True
  | there, p :: ps => ¬ Clashes owner there p
      ∧ NeverClash owner (there ++ (appended? owner there p).toList) ps

instance decidableNeverClash (owner : String) :
    ∀ there ps, Decidable (NeverClash owner there ps)
  | _, [] => isTrue trivial
  | there, p :: ps =>
      have := decidableNeverClash owner
        (there ++ (appended? owner there p).toList) ps
      inferInstanceAs (Decidable (_ ∧ _))

theorem nodup_appendAll (owner : String) (there ps : List Profile) :
    ((appendAll owner there ps).map Profile.signature).Nodup
      ↔ (there.map Profile.signature).Nodup ∧ NeverClash owner there ps := by
  induction ps generalizing there with
  | nil => exact (and_iff_left trivial).symm
  | cons p ps ih =>
      have hstep :
          ((there ++ (appended? owner there p).toList).map
            Profile.signature).Nodup
          ↔ (there.map Profile.signature).Nodup ∧ ¬ Clashes owner there p := by
        rw [clashes_iff]
        cases appended? owner there p with
        | none => simp
        | some a =>
            rw [Option.toList_some, List.map_append, List.map_singleton,
              List.nodup_append', List.disjoint_singleton]
            simp
      rw [appendAll, List.foldl_cons, ← appendAll, ih, hstep,
        NeverClash, and_assoc]

/-- That nothing clashes when a base is merged into what extends it. -/
def LinkApart (base derived : TypeDecl) : Prop :=
  NeverClash (instantiate base derived).1.name (profiles derived)
    (profiles (instantiate base derived).1)

instance (base derived : TypeDecl) : Decidable (LinkApart base derived) :=
  inferInstanceAs (Decidable (NeverClash _ _ _))

/-- That nothing clashes when what is above a leaf is folded into it. -/
def ChainApart (s : Sources) (leaf : DeclId) (above : List DeclId) : Prop :=
  ∀ base ∈ (mergeChain s above).toOption, LinkApart base (s.get leaf)

instance (s : Sources) (leaf : DeclId) (above : List DeclId) :
    Decidable (ChainApart s leaf above) :=
  inferInstanceAs (Decidable (∀ base ∈ (mergeChain s above).toOption,
    LinkApart base (s.get leaf)))

/-- A chain is folded above its leaf first. -/
theorem mergeChain_cons {s : Sources} {leaf : DeclId} {above : List DeclId}
    (h : above ≠ []) :
    mergeChain s (leaf :: above)
      = mergeChain s above >>= (mergeLink · (s.get leaf)) := by
  unfold mergeChain
  rw [List.reverse_cons, List.map_append]
  cases habove : above.reverse.map s.get with
  | nil => exact absurd (List.reverse_eq_nil_iff.1
      (List.map_eq_nil_iff.1 habove)) h
  | cons base ds =>
      show (ds ++ [s.get leaf]).foldlM mergeLink base
        = ds.foldlM mergeLink base >>= _
      rw [List.foldlM_append]
      refine bind_congr fun d => ?_
      simp

/-- What is above a leaf is folded and then merged into it. -/
theorem exists_mergeLink {s : Sources} {leaf : DeclId} {above : List DeclId}
    (h : mergeChain s (leaf :: above) = .ok d) (habove : above ≠ []) :
    ∃ base, mergeChain s above = .ok base
      ∧ mergeLink base (s.get leaf) = .ok d := by
  rw [mergeChain_cons habove] at h
  exact bind_eq_ok h

/-- A folded chain is its leaf alone, or what is above has been merged into
the leaf. -/
theorem mergeChain_cases {s : Sources} {leaf : DeclId} {above : List DeclId}
    (h : mergeChain s (leaf :: above) = .ok d) :
    (above = [] ∧ s.get leaf = d)
      ∨ ∃ base, mergeChain s above = .ok base
      ∧ mergeLink base (s.get leaf) = .ok d := by
  by_cases habove : above = []
  · subst habove
    exact Or.inl ⟨rfl, Except.ok.inj h⟩
  · exact Or.inr (exists_mergeLink h habove)

/-- A folded chain has methods of different signatures exactly if its leaf has
and nothing clashes. -/
theorem nodup_mergeChain {s : Sources} {leaf : DeclId} {above : List DeclId}
    (h : mergeChain s (leaf :: above) = .ok d) :
    d.signatures.Nodup ↔ (s.get leaf).signatures.Nodup
      ∧ ChainApart s leaf above := by
  cases above with
  | nil =>
      obtain rfl := Except.ok.inj h
      exact (and_iff_left fun _ hbase => nomatch hbase).symm
  | cons next above =>
      obtain ⟨base, hbase, hlink⟩ := exists_mergeLink h (List.cons_ne_nil _ _)
      rw [← map_signature_profiles, profiles_mergeLink hlink, nodup_appendAll,
        map_signature_profiles]
      refine and_congr_right fun _ => ?_
      unfold ChainApart
      rw [hbase]
      exact ⟨fun hlink _ hbase' => Option.some.inj hbase' ▸ hlink,
        fun hall => hall base rfl⟩

end Stagewise.Merge
