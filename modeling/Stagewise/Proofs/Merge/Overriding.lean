/-
Which methods of a chain keep their names.

A concrete method of an object is taken over under its own name if no method of
its signature is where it comes to (`mergeLink_finds`). Otherwise one of a
declaration below has overridden it, or one of the same folded base, whose
formal parameters have been replaced. Down the whole chain it keeps its name or
is overridden at some link (`mergeChain_keeps`); its parameter types are then
seen as they are from the links below (`mergeChain_carries`).
-/
import Stagewise.Proofs.Merge.Folding
import Stagewise.Proofs.Merge.Instantiation

namespace Stagewise.Merge

variable {base derived d : TypeDecl} {owner : String} {s : Sources}
variable {chain lower rest above : List DeclId} {link leaf : DeclId}
variable {there ps before after : List Profile} {p : Profile}

-- =================================================================== one link

namespace Profile

/-- A profile apart from the parameter types. -/
def face (p : Profile) : Identity × Bool × Bool × String :=
  (p.id, p.isStatic, p.isAbstract, p.name)

/-- The method with other parameter types. -/
def mapTypes (τ : TypeRef → TypeRef) (p : Profile) : Profile :=
  { p with params := p.params.map τ }

end Profile

theorem appendAll_append (owner : String) (there ps qs : List Profile) :
    appendAll owner there (ps ++ qs)
      = appendAll owner (appendAll owner there ps) qs :=
  List.foldl_append

/-- What is there stays in front. -/
theorem prefix_appendAll (owner : String) (there ps : List Profile) :
    there <+: appendAll owner there ps := by
  induction ps generalizing there with
  | nil => exact List.prefix_rfl
  | cons p ps ih => exact (List.prefix_append there _).trans (ih _)

/-- A concrete method of an object is appended as it is where its signature
is not. -/
theorem appended?_eq_self (hstatic : p.isStatic = false)
    (habstract : p.isAbstract = false)
    (h : ∀ o ∈ there, o.signature ≠ p.signature) :
    appended? owner there p = some p := by
  have hnone : there.find? (·.signature == p.signature) = none :=
    List.find?_eq_none.2 fun o ho => by simpa using h o ho
  unfold appended?
  rw [hstatic, hnone, habstract]
  rfl

/-- A concrete method of an object in a base meets one of its signature when
its turn comes, or it is as it is the first one of its signature in the merged
declaration. -/
theorem mergeLink_finds (h : mergeLink base derived = .ok d)
    (hsplit : profiles (instantiate base derived).1 = before ++ p :: after)
    (hstatic : p.isStatic = false) (habstract : p.isAbstract = false) :
    (profiles d).find? (·.signature == p.signature) = some p
      ∨ ∃ o ∈ appendAll (instantiate base derived).1.name (profiles
        derived) before, o.signature = p.signature := by
  by_cases hmeets :
      ∃ o ∈ appendAll (instantiate base derived).1.name (profiles
        derived) before,
      o.signature = p.signature
  · exact Or.inr hmeets
  · refine Or.inl ?_
    have hnone :
        ∀ o ∈ appendAll (instantiate base derived).1.name (profiles
          derived) before,
        o.signature ≠ p.signature := fun o ho he => hmeets ⟨o, ho, he⟩
    rw [profiles_mergeLink h, hsplit, appendAll_append]
    refine (prefix_appendAll _ _ after).find?_eq_some ?_
    show (_ ++ (appended? _ _ p).toList).find? _ = _
    rw [appended?_eq_self hstatic habstract hnone, Option.toList_some]
    refine List.find?_eq_some_iff_append.2 ⟨beq_self_eq_true _, _, [], rfl,
      fun o ho => ?_⟩
    simpa using hnone o ho

/-- Replacing formal parameters changes parameter types only. -/
theorem profiles_instantiate (base derived : TypeDecl) :
    profiles (instantiate base derived).1
      = (profiles base).map
        (Profile.mapTypes (instantiated base derived)) := by
  have hprofile : ∀ (τ : TypeRef → TypeRef) (m : Method),
      profile (m.mapNames (NameMap.ofTypes τ)) = (profile m).mapTypes τ := by
    intro τ m
    simp [profile, Profile.mapTypes, Method.mapNames, Method.isAbstract,
      Method.paramTypes, Param.mapNames, NameMap.ofTypes]
  rw [instantiate_eq_mapNames]
  rcases base with ⟨_, _, _, _, _, _, _, _, _, methods⟩
  simp only [profiles, TypeDecl.mapNames, List.map_map,
    Function.comp_def, hprofile]

-- =============================================================== whole chains

/-- That a method of this identity and name, of a link that is above another
one, meets a method of its signature there: when the links above `derived`
are folded, and their formal parameters replaced, it comes to where
`derived` has a method of its signature, or where one has been appended of
those before it. -/
def IsOverridden (s : Sources) (chain : List DeclId) (link : DeclId)
    (id : Identity) (name : String) : Prop :=
  ∃ derived above base before p after, (derived :: above) <:+ chain
    ∧ link ∈ above
    ∧ mergeChain s above = .ok base
    ∧ profiles (instantiate base (s.get derived)).1 = before ++ p :: after
    ∧ p.id = id ∧ p.name = name
    ∧ ∃ o ∈ appendAll (instantiate base (s.get derived)).1.name (profiles
      (s.get derived)) before, o.signature = p.signature

/-- What happens above happens in the whole chain. -/
theorem IsOverridden.below {id : Identity} {name : String} {leaf : DeclId}
    (h : IsOverridden s chain link id name) :
    IsOverridden s (leaf :: chain) link id name := by
  obtain ⟨derived, above, base, before, p, after, hsuffix, h⟩ := h
  exact ⟨derived, above, base, before, p, after,
    hsuffix.trans (List.suffix_cons leaf chain), h⟩

/-- A method of the lowest link is not overridden. -/
theorem IsOverridden.mem_tail {id : Identity} {name : String}
    (h : IsOverridden s chain link id name) : link ∈ chain.tail := by
  obtain ⟨derived, above, -, -, -, -, hsuffix, hlink, -⟩ := h
  cases chain with
  | nil => cases List.suffix_nil.1 hsuffix
  | cons leaf rest =>
      rcases List.suffix_cons_iff.1 hsuffix with he | hsuffix
      · exact (List.cons.inj he).2 ▸ hlink
      · exact hsuffix.subset (List.mem_cons_of_mem derived hlink)

/-- A folded chain has the methods of its leaf in front. -/
theorem prefix_mergeChain (h : mergeChain s (leaf :: above) = .ok d) :
    profiles (s.get leaf) <+: profiles d := by
  rcases mergeChain_cases h with ⟨-, rfl⟩ | ⟨base, -, hlink⟩
  · exact List.prefix_rfl
  · rw [profiles_mergeLink hlink]
    exact prefix_appendAll _ _ _

/-- The upper part of a chain that is folded is folded. -/
theorem mergeChain_upper (h : mergeChain s (lower ++ rest) = .ok d)
    (hrest : rest ≠ []) :
    ∃ base, mergeChain s rest = .ok base := by
  induction lower generalizing d with
  | nil => exact ⟨d, h⟩
  | cons leaf lower ih =>
      obtain ⟨base, hbase, -⟩ := exists_mergeLink h (by simp [hrest])
      exact ih hbase

/-- What a type in the folded links `rest` is seen as once the links `lower`
have been merged in. -/
def seen (s : Sources) : List DeclId → List DeclId → TypeRef → TypeRef
  | [], _, t => t
  | leaf :: lower, rest, t =>
      match mergeChain s (lower ++ rest) with
      | .ok base => instantiated base (s.get leaf) (seen s lower rest t)
      | .error _ => t

theorem seen_nil (s : Sources) (rest : List DeclId) :
    seen s [] rest = id := rfl

theorem seen_cons (h : mergeChain s (lower ++ rest) = .ok base) :
    seen s (leaf :: lower) rest = instantiated base (s.get leaf) ∘ seen s
      lower rest := by
  funext t
  rw [seen, h]
  rfl

/-- What a folded part of a chain has is what the next link gets, as it is seen
from there. -/
theorem mapTypes_mem_instantiate
    (hbase : mergeChain s (lower ++ rest) = .ok base)
    (hp : p.mapTypes (seen s lower rest) ∈ profiles base) :
    p.mapTypes (seen s (leaf :: lower) rest)
      ∈ profiles (instantiate base (s.get leaf)).1 := by
  rw [profiles_instantiate, seen_cons hbase]
  refine List.mem_map.2 ⟨_, hp, ?_⟩
  unfold Profile.mapTypes
  rw [List.map_map]

/-- A concrete method of an object that a folded part of a chain has is found
by its signature at the next link, or it is overridden there. -/
theorem mergeLink_carries (hbase : mergeChain s (lower ++ rest) = .ok base)
    (hmerge : mergeLink base (s.get leaf) = .ok d) (hlink : link ∈ rest)
    (hp : p.mapTypes (seen s lower rest) ∈ profiles base)
    (hstatic : p.isStatic = false)
    (habstract : p.isAbstract = false) :
    (profiles d).find?
    (·.signature == (p.mapTypes (seen s (leaf :: lower) rest)).signature)
        = some (p.mapTypes (seen s (leaf :: lower) rest))
      ∨ IsOverridden s (leaf :: lower ++ rest) link p.id p.name := by
  obtain ⟨before, after, hsplit⟩ :=
    List.append_of_mem (mapTypes_mem_instantiate hbase hp)
  refine (mergeLink_finds hmerge hsplit hstatic habstract).imp_right
    fun hmeets => ?_
  exact ⟨leaf, lower ++ rest, base, before, _, after, List.suffix_rfl,
    List.mem_append_right _ hlink, hbase, hsplit, rfl, rfl, hmeets⟩

/-- A concrete method of an object in the upper part of a chain has its name
in the whole chain, or it is overridden on the way down. -/
theorem mergeChain_carries (hrest : mergeChain s rest = .ok base)
    (h : mergeChain s (lower ++ rest) = .ok d) (hlink : link ∈ rest)
    (hp : p ∈ profiles base)
    (hstatic : p.isStatic = false) (habstract : p.isAbstract = false) :
    p.mapTypes (seen s lower rest) ∈ profiles d
      ∨ IsOverridden s (lower ++ rest) link p.id p.name := by
  induction lower generalizing d with
  | nil =>
      obtain rfl := Except.ok.inj (hrest.symm.trans h)
      refine Or.inl ?_
      rwa [seen_nil, Profile.mapTypes, List.map_id]
  | cons leaf lower ih =>
      have hne : lower ++ rest ≠ [] :=
        List.append_ne_nil_of_right_ne_nil _ (List.ne_nil_of_mem hlink)
      obtain ⟨base', hbase', hmerge⟩ := exists_mergeLink h hne
      rcases ih hbase' with hcarried | hoverridden
      · exact (mergeLink_carries hbase' hmerge hlink hcarried hstatic
          habstract).imp_left List.mem_of_find?_eq_some
      · exact Or.inr hoverridden.below

/-- A concrete method of an object is there in a folded chain as it was
declared, with the types seen from the leaf, or it is overridden on the way
down. -/
theorem mergeChain_carries_own
    (h : mergeChain s (lower ++ link :: above) = .ok d) {m : Method}
    (hm : m ∈ (s.get link).methods) (hstatic : m.modifiers.isStatic = false)
    (habstract : m.isAbstract = false) :
    (profile m).mapTypes (seen s lower (link :: above)) ∈ profiles d
      ∨ IsOverridden s (lower ++ link :: above) link m.id m.name := by
  obtain ⟨base, hbase⟩ := mergeChain_upper h (List.cons_ne_nil link above)
  have hown : profile m ∈ profiles base :=
    (prefix_mergeChain hbase).subset (List.mem_map_of_mem hm)
  exact mergeChain_carries hbase h List.mem_cons_self hown hstatic habstract

/-- A concrete method of an object keeps its name in a folded chain, or it is
overridden on the way down. -/
theorem mergeChain_keeps (h : mergeChain s chain = .ok d)
    (hlink : link ∈ chain) {m : Method}
    (hm : m ∈ (s.get link).methods) (hstatic : m.modifiers.isStatic = false)
    (habstract : m.isAbstract = false) :
    (profile m).face ∈ (profiles d).map Profile.face
      ∨ IsOverridden s chain link m.id m.name := by
  obtain ⟨lower, above, rfl⟩ := List.append_of_mem hlink
  refine (mergeChain_carries_own h hm hstatic habstract).imp_left ?_
  exact fun hcarried => List.mem_map.2 ⟨_, hcarried, rfl⟩

end Stagewise.Merge
