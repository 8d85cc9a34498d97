/-
What the walks of the hierarchy find.

A declaration extends the one that it names as its superclass, and
implements those that it names as its interfaces, as far as the set has
them. The walk of interfaces finds what is implemented directly or by way
of other interfaces (`mem_allInterfaces`), and the search of assignability
finds every name that some class above has, or an interface of one
(`isAssignable_iff`). Both may meet cycles. A walk that has met as many
declarations as there are has met them all, so the fuel lasts.
-/
import Mathlib.Data.List.Nodup
import Mathlib.Data.List.Perm.Subperm
import Mathlib.Logic.Relation
import Stagewise.Proofs.Sources

namespace Stagewise.Sources

open Relation

variable {s : Sources} {d i x y : DeclId} {name : String} {seen : List DeclId}

-- ============================================================== the relations

/-- That a declaration names another one as its superclass. -/
def Inherits (s : Sources) (d base : DeclId) : Prop :=
  s.superclass? d = some base

/-- That a declaration names another one as an interface. -/
def Implements (s : Sources) (d i : DeclId) : Prop :=
  ∃ t ∈ (s.get d).interfaces, s.find? t.name = some i

/-- That a value of a declaration can stand where the name of a type is
asked for: a class above it, or an interface of one, has the name. -/
def Assignable (s : Sources) (name : String) (d : DeclId) : Prop :=
  ∃ base i, ReflTransGen s.Inherits d base ∧ ReflTransGen s.Implements base i
    ∧ s.name i = name

theorem Inherits.lt (h : s.Inherits d x) : x.index < s.decls.length := by
  obtain ⟨t, -, hfind⟩ := Option.bind_eq_some_iff.1 h
  exact (name_of_find? hfind).1

theorem Implements.lt (h : s.Implements d i) : i.index < s.decls.length := by
  obtain ⟨t, -, hfind⟩ := h
  exact (name_of_find? hfind).1

/-- No more declarations are met than there are. -/
theorem length_le_of_nodup (hnodup : seen.Nodup)
    (hrange : ∀ x ∈ seen, x.index < s.decls.length) :
    seen.length ≤ s.decls.length := by
  have hsub : seen.map DeclId.index ⊆ List.range s.decls.length := by
    intro i hi
    obtain ⟨x, hx, rfl⟩ := List.mem_map.1 hi
    exact List.mem_range.2 (hrange x hx)
  have hindices : (seen.map DeclId.index).Nodup :=
    hnodup.map fun x y h => congrArg DeclId.mk h
  have hle := (List.subperm_of_subset hindices hsub).length_le
  rwa [List.length_map, List.length_range] at hle

-- ================================================================= interfaces

/-- What a walk of interfaces leaves when it has gone from some to more:
what it was to go to is met, and whatever it met anew belongs to `new` and
has all its own interfaces met. -/
structure Walks (s : Sources) (goal new : DeclId → Prop)
    (seen seen' : List DeclId) : Prop where
  nodup : seen'.Nodup
  range : ∀ x ∈ seen', x.index < s.decls.length
  keeps : seen ⊆ seen'
  meets : ∀ x, goal x → x ∈ seen'
  anew : ∀ x ∈ seen', x ∈ seen ∨ (new x ∧ ∀ y, s.Implements x y → y ∈ seen')

/-- A walk that goes to some more, met already. -/
theorem Walks.also {goal goal' new : DeclId → Prop} {seen seen' : List DeclId}
    (h : s.Walks goal new seen seen') (hgoal : ∀ x, goal' x →
      goal x ∨ x ∈ seen') :
    s.Walks goal' new seen seen' where
  nodup := h.nodup
  range := h.range
  keeps := h.keeps
  meets x hx := by
    rcases hgoal x hx with hx | hx
    · exact h.meets x hx
    · exact hx
  anew := h.anew

/-- A walk from an interface of a declaration, and then the rest of the walk
from the declaration. -/
theorem Walks.below {goal goal' : DeclId → Prop} {seen₁ seen' : List DeclId}
    (h : s.Walks goal (TransGen s.Implements i) (seen ++ [i]) seen₁)
    (hi : s.Implements d i)
    (hclosed : ∀ y, s.Implements i y → goal y)
    (h' : s.Walks goal' (TransGen s.Implements d) seen₁ seen') :
    s.Walks goal' (TransGen s.Implements d) seen seen' where
  nodup := h'.nodup
  range := h'.range
  keeps := List.Subset.trans (List.subset_append_left _ _) (List.Subset.trans
  h.keeps h'.keeps)
  meets := h'.meets
  anew x hx := by
    rcases h'.anew x hx with hx | hx
    · rcases h.anew x hx with hx | ⟨hbelow, hall⟩
      · rcases List.mem_append.1 hx with hx | hx
        · exact Or.inl hx
        · obtain rfl := List.mem_singleton.1 hx
          exact Or.inr
            ⟨.single hi, fun y hy => h'.keeps (h.meets y (hclosed y hy))⟩
      · exact Or.inr ⟨.head hi hbelow, fun y hy => h'.keeps (hall y hy)⟩
    · exact Or.inr hx

theorem nodup_concat (hnodup : seen.Nodup) (hi : i ∉ seen) :
    (seen ++ [i]).Nodup := by
  rw [List.nodup_append]
  refine ⟨hnodup, List.nodup_singleton i, fun a ha b hb hab => ?_⟩
  rw [List.mem_singleton.1 hb] at hab
  exact hi (hab ▸ ha)

/-- The walk over some interfaces of a declaration, if walks of less fuel go
where they should. -/
theorem foldl_walks {fuel : Nat}
    (hwalks : ∀ {seen : List DeclId} {d : DeclId}, seen.Nodup →
      (∀ x ∈ seen, x.index < s.decls.length) →
      s.decls.length < fuel + seen.length →
      s.Walks (s.Implements d) (TransGen s.Implements d) seen
        (s.interfacesFrom fuel seen d)) :
    ∀ {ts : List TypeRef} {seen : List DeclId}, ts ⊆ (s.get d).interfaces →
      seen.Nodup →
      (∀ x ∈ seen, x.index < s.decls.length) →
      s.decls.length < fuel + 1 + seen.length →
      s.Walks (fun x => ∃ t ∈ ts, s.find? t.name = some x)
        (TransGen s.Implements d) seen (ts.foldl (fun seen t =>
          match s.find? t.name with
          | some i => if seen.contains i then seen else s.interfacesFrom fuel
              (seen ++ [i]) i
          | none => seen) seen) := by
  intro ts
  induction ts with
  | nil =>
      intro seen _ hnodup hrange _
      exact ⟨hnodup, hrange, List.Subset.refl _, fun x ⟨t, ht, _⟩ =>
        (nomatch ht),
        fun x hx => Or.inl hx⟩
  | cons t ts ih =>
      intro seen hsub hnodup hrange hfuel
      obtain ⟨ht, hts⟩ := List.cons_subset.1 hsub
      rw [List.foldl_cons]
      cases hfind : s.find? t.name with
      | none =>
          refine (ih hts hnodup hrange hfuel).also fun x ⟨u, hu, hx⟩ => ?_
          rcases List.mem_cons.1 hu with rfl | hu
          · rw [hfind] at hx
            cases hx
          · exact Or.inl ⟨u, hu, hx⟩
      | some i =>
          have hgoal : ∀ {seen' : List DeclId}, i ∈ seen' → ∀ x,
              (∃ u ∈ t :: ts, s.find? u.name = some x) →
              (∃ u ∈ ts, s.find? u.name = some x) ∨ x ∈ seen' := by
            intro seen' hi x ⟨u, hu, hx⟩
            rcases List.mem_cons.1 hu with rfl | hu
            · obtain rfl := Option.some.inj (hfind.symm.trans hx)
              exact Or.inr hi
            · exact Or.inl ⟨u, hu, hx⟩
          dsimp only
          split
          · rename_i hmet
            have hwalk := ih hts hnodup hrange hfuel
            exact hwalk.also
              (hgoal (hwalk.keeps (List.contains_iff_mem.1 hmet)))
          · rename_i hmet
            have hi : s.Implements d i := ⟨t, ht, hfind⟩
            have hinner := hwalks (d := i)
              (nodup_concat hnodup fun h => hmet (List.contains_iff_mem.2 h))
              (List.forall_mem_append.2
                ⟨hrange, List.forall_mem_singleton.2 hi.lt⟩)
              (by rw [List.length_append, List.length_singleton]; omega)
            have hlength := (List.subperm_of_subset hnodup
              (List.Subset.trans (List.subset_append_left _ _)
                hinner.keeps)).length_le
            have hwalk := ih hts hinner.nodup hinner.range (by omega)
            have hself :=
              hinner.keeps
                (List.mem_append_right _ (List.mem_singleton_self i))
            exact (hinner.below hi (fun _ hy => hy) hwalk).also
              (hgoal (hwalk.keeps hself))

/-- The walk from a declaration meets its interfaces, and anew only what is
an interface of it, directly or not. -/
theorem interfacesFrom_walks {fuel : Nat} (hnodup : seen.Nodup)
    (hrange : ∀ x ∈ seen, x.index < s.decls.length)
    (hfuel : s.decls.length < fuel + seen.length) :
    s.Walks (s.Implements d) (TransGen s.Implements d) seen
      (s.interfacesFrom fuel seen d) := by
  induction fuel generalizing seen d with
  | zero =>
      have hle := length_le_of_nodup hnodup hrange
      omega
  | succ fuel ih =>
      rw [interfacesFrom]
      exact foldl_walks ih (List.Subset.refl _) hnodup hrange hfuel

/-- The interfaces that are found are those that there are. -/
theorem mem_allInterfaces :
    i ∈ s.allInterfaces d ↔ TransGen s.Implements d i := by
  have hwalk : s.Walks (s.Implements d) (TransGen s.Implements d) []
      (s.allInterfaces d) :=
    interfacesFrom_walks List.nodup_nil (List.forall_mem_nil _) (by simp)
  constructor
  · intro hi
    rcases hwalk.anew i hi with hi | hi
    · cases hi
    · exact hi.1
  · intro h
    induction h with
    | single h => exact hwalk.meets _ h
    | tail _ h ih =>
        rcases hwalk.anew _ ih with hi | hi
        · cases hi
        · exact hi.2 _ h

-- ============================================================== assignability

/-- That a declaration or an interface of it has a name. -/
def Bears (s : Sources) (name : String) (d : DeclId) : Prop :=
  ∃ i, ReflTransGen s.Implements d i ∧ s.name i = name

theorem bears_iff : s.Bears name d ↔
    (s.name d == name || (s.allInterfaces d).any (s.name · == name))
    = true := by
  rw [Bool.or_eq_true, beq_iff_eq, List.any_eq_true]
  constructor
  · intro ⟨i, hi, hname⟩
    rcases reflTransGen_iff_eq_or_transGen.1 hi with rfl | hi
    · exact Or.inl hname
    · exact Or.inr ⟨i, mem_allInterfaces.2 hi, beq_iff_eq.2 hname⟩
  · intro h
    rcases h with hname | ⟨i, hi, hname⟩
    · exact ⟨d, .refl, hname⟩
    · exact ⟨i, (mem_allInterfaces.1 hi).to_reflTransGen, beq_iff_eq.1 hname⟩

/-- What the search reports is there. -/
theorem exists_bears_of_reachesName {fuel : Nat} {visited : List DeclId}
    (h : s.reachesName name fuel visited (some d) = true) :
    ∃ base, ReflTransGen s.Inherits d base ∧ s.Bears name base := by
  induction fuel generalizing visited d with
  | zero => cases h
  | succ fuel ih =>
      rw [reachesName] at h
      split at h
      · cases h
      · rw [Bool.or_eq_true, ← bears_iff] at h
        rcases h with h | h
        · exact ⟨d, .refl, h⟩
        · cases hbase : s.superclass? d with
          | none =>
              rw [hbase] at h
              cases fuel <;> cases h
          | some base =>
              rw [hbase] at h
              obtain ⟨top, htop, hbears⟩ := ih h
              exact ⟨top, .head hbase htop, hbears⟩

/-- What is there is reported. The classes visited before do not bear the
name, and none of them extends another one than the next. -/
theorem reachesName_of_bears {fuel : Nat} {visited : List DeclId}
    {base : DeclId} (hd : d.index < s.decls.length) (hnodup : visited.Nodup)
    (hrange : ∀ x ∈ visited, x.index < s.decls.length)
    (hfuel : s.decls.length < fuel + visited.length)
    (hbefore : ∀ x ∈ visited, ¬ s.Bears name x ∧ ∀ y, s.Inherits x y →
      y ∈ visited ∨ y = d)
    (hbase : ReflTransGen s.Inherits d base) (hbears : s.Bears name base) :
    s.reachesName name fuel visited (some d) = true := by
  induction fuel generalizing visited d with
  | zero =>
      have hle := length_le_of_nodup hnodup hrange
      omega
  | succ fuel ih =>
      rw [reachesName]
      by_cases hmet : d ∈ visited
      · -- the classes visited go round in a circle, and none bears the name
        have hround : ∀ x, ReflTransGen s.Inherits d x → x ∈ visited := by
          intro x hx
          induction hx with
          | refl => exact hmet
          | tail _ hstep ihx =>
              rcases (hbefore _ ihx).2 _ hstep with hy | rfl
              · exact hy
              · exact hmet
        exact absurd hbears (hbefore base (hround base hbase)).1
      · rw [if_neg (fun h => hmet (List.contains_iff_mem.1 h)),
          Bool.or_eq_true, ← bears_iff]
        by_cases hhere : s.Bears name d
        · exact Or.inl hhere
        · right
          rcases ReflTransGen.cases_head hbase with rfl | ⟨next, hnext, hrest⟩
          · exact absurd hbears hhere
          · rw [show s.superclass? d = some next from hnext]
            apply ih (Inherits.lt hnext)
            · exact nodup_concat hnodup hmet
            · exact List.forall_mem_append.2
                ⟨hrange, List.forall_mem_singleton.2 hd⟩
            · rw [List.length_append, List.length_singleton]
              omega
            · refine List.forall_mem_append.2 ⟨fun x hx => ?_,
                List.forall_mem_singleton.2 ?_⟩
              · refine ⟨(hbefore x hx).1, fun y hy => Or.inl ?_⟩
                rcases (hbefore x hx).2 y hy with hy | rfl
                · exact List.mem_append_left _ hy
                · exact List.mem_append_right _ (List.mem_singleton_self _)
              · refine ⟨hhere, fun y hy => Or.inr ?_⟩
                exact Option.some.inj (hy.symm.trans hnext)
            · exact hrest

/-- Assignability is what the hierarchy says. -/
theorem isAssignable_iff {t : TypeRef} (hd : d.index < s.decls.length) :
    s.isAssignable t d = true ↔ s.Assignable t.name d := by
  unfold isAssignable
  constructor
  · intro h
    obtain ⟨base, hbase, i, hi, hname⟩ := exists_bears_of_reachesName h
    exact ⟨base, i, hbase, hi, hname⟩
  · intro ⟨base, i, hbase, hi, hname⟩
    exact reachesName_of_bears hd List.nodup_nil (List.forall_mem_nil _)
      (by simp) (List.forall_mem_nil _) hbase ⟨i, hi, hname⟩

end Stagewise.Sources
