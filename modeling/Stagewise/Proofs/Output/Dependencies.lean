/-
What final fields depend on, and in what order they are found.

A final field depends on the other final fields that its initial value
reaches, as look-up in the tree finds them (`Needs`). Where names tell types
and fields apart these are the ones that it names (`WellNamed.needs_eq`).

The search for an order starts from the fields that depend on nothing and
goes on to those that depend on what it has met. Without circles it finds
every final field, each behind what it depends on (`ordered_foundKeys`,
`mem_foundKeys`).
-/
import Mathlib.Data.Fintype.Card
import Mathlib.Data.Set.Finite.Basic
import Stagewise.Proofs.Output.Reads

namespace Stagewise.Output

open Relation (TransGen)
open TypeTable

variable {root d d' : TypeDecl} {key dep : FinalField} {f : Field}

-- =============================================================== dependencies

/-- That a final field depends on another one, names looked up in the tree. -/
def Needs (root : TypeDecl) (key dep : FinalField) : Prop :=
  dep ≠ key ∧ ∃ d f init e, FinalAt root key d f ∧ f.init = some init
    ∧ (ofType root).Evaluates ((ofType root).startExprs f init) e
    ∧ (ofType root).read? e = some dep

/-- That a final field depends on another one, as the names say. -/
def DependsOn (root : TypeDecl) (key dep : FinalField) : Prop :=
  dep ≠ key ∧ ∃ d f target r, FinalAt root key d f
    ∧ InitEvaluates root f (.field target r)
    ∧ Designates root r dep

/-- Where names tell types and fields apart, both are one. -/
theorem WellNamed.needs_eq (h : WellNamed root) :
    Needs root = DependsOn root := by
  funext key dep
  refine propext (and_congr_right fun _ => ?_)
  constructor
  · intro ⟨d, f, init, e, hf, hinit, he, hread⟩
    have hevaluates :=
      h.mem_initExprs_iff.1 (mem_initExprs.2 ⟨init, hinit, he⟩)
    cases e with
    | field target r => exact ⟨d, f, target, r, hf, hevaluates,
        h.final?_eq_some_iff.1 hread⟩
    | _ => cases hread
  · intro ⟨d, f, target, r, hf, hevaluates, hdep⟩
    obtain ⟨init, hinit, he⟩ :=
      mem_initExprs.1 (h.mem_initExprs_iff.2 hevaluates)
    exact ⟨d, f, init, _, hf, hinit, he, h.final?_eq_some_iff.2 hdep⟩

theorem mem_finalDependencies {x : FinalDependencies} :
    x ∈ finalDependencies root ↔
    ∃ d f, FinalAt root x.key d f
      ∧ x.dependencies = (ofType root).dependencies x.key f := by
  unfold finalDependencies
  rw [List.mem_map]
  constructor
  · intro ⟨⟨key, d, f⟩, hfinal, hx⟩
    obtain rfl := hx
    exact ⟨d, f, mem_finals.1 hfinal, rfl⟩
  · intro ⟨d, f, hf, hdependencies⟩
    refine ⟨(x.key, d, f), mem_finals.2 hf, ?_⟩
    obtain ⟨key, dependencies⟩ := x
    exact congrArg (FinalDependencies.mk key) hdependencies.symm

theorem mem_finalKeys :
    key ∈ finalKeys root ↔ ∃ d f, FinalAt root key d f := by
  unfold finalKeys
  rw [List.mem_map]
  constructor
  · intro ⟨⟨key', d, f⟩, hfinal, hkey⟩
    obtain rfl : key' = key := hkey
    exact ⟨d, f, mem_finals.1 hfinal⟩
  · intro ⟨d, f, hf⟩
    exact ⟨(key, d, f), mem_finals.2 hf, rfl⟩

/-- What the scan lists are the dependencies. -/
theorem needs_iff_mem (hf : FinalAt root key d f) :
    Needs root key dep ↔ dep ∈ (ofType root).dependencies key f := by
  rw [mem_dependencies]
  refine and_congr_right fun _ => ?_
  constructor
  · intro ⟨d', f', init, e, hf', hinit, he, hread⟩
    obtain ⟨rfl, rfl⟩ := hf.unique hf'
    exact ⟨e, mem_initExprs.2 ⟨init, hinit, he⟩, hread⟩
  · intro ⟨e, he, hread⟩
    obtain ⟨init, hinit, he⟩ := mem_initExprs.1 he
    exact ⟨d, f, init, e, hf, hinit, he, hread⟩

theorem needs_iff :
    Needs root key dep ↔ ∃ x ∈ finalDependencies root, x.key = key
      ∧ dep ∈ x.dependencies := by
  constructor
  · intro h
    obtain ⟨d, f, hf⟩ : ∃ d f, FinalAt root key d f := by
      obtain ⟨-, d, f, init, e, hf, -⟩ := h
      exact ⟨d, f, hf⟩
    exact ⟨⟨key, (ofType root).dependencies key f⟩, mem_finalDependencies.2
      ⟨d, f, hf, rfl⟩, rfl, (needs_iff_mem hf).1 h⟩
  · intro ⟨x, hx, hkey, hdep⟩
    subst hkey
    obtain ⟨d, f, hf, hdependencies⟩ := mem_finalDependencies.1 hx
    exact (needs_iff_mem hf).2 (hdependencies ▸ hdep)

theorem mem_finalDependants :
    key ∈ finalDependants (finalDependencies root) dep
      ↔ Needs root key dep := by
  unfold finalDependants
  rw [needs_iff, List.mem_map]
  constructor
  · intro ⟨x, hx, hkey⟩
    obtain ⟨hx, hdep⟩ := List.mem_filter.1 hx
    exact ⟨x, hx, hkey, List.contains_iff_mem.1 hdep⟩
  · intro ⟨x, hx, hkey, hdep⟩
    exact ⟨x, List.mem_filter.2 ⟨hx, List.contains_iff_mem.2 hdep⟩, hkey⟩

/-- Only final fields depend on others. -/
theorem Needs.mem (h : Needs root key dep) : key ∈ finalKeys root := by
  obtain ⟨-, d, f, init, e, hf, -⟩ := h
  exact mem_finalKeys.2 ⟨d, f, hf⟩

/-- They depend on final fields only. -/
theorem Needs.dep_mem (h : Needs root key dep) : dep ∈ finalKeys root := by
  obtain ⟨-, d, f, init, e, -, -, -, hread⟩ := h
  cases e with
  | field target r =>
      obtain ⟨x, hfind, rfl⟩ := Option.map_eq_some_iff.1 hread
      exact List.mem_map_of_mem
        (List.mem_reverse.1 (List.mem_of_find?_eq_some hfind))
  | _ => cases hread

/-- A relation without circles, told by a rank that falls along it. -/
theorem acyclic_of_rank (rank : FinalField → Nat)
    (h : ∀ x ∈ finalDependencies root, ∀ dep ∈ x.dependencies,
      rank dep < rank x.key)
    (key : FinalField) : ¬ TransGen (Needs root) key key := by
  have hstep : ∀ {key dep}, Needs root key dep → rank dep < rank key := by
    intro key dep hneeds
    obtain ⟨x, hx, rfl, hdep⟩ := needs_iff.1 hneeds
    exact h x hx dep hdep
  have hfalls : ∀ {key dep}, TransGen (Needs root) key dep →
      rank dep < rank key := by
    intro key dep hneeds
    induction hneeds with
    | single hneeds => exact hstep hneeds
    | tail _ hneeds ih => exact Nat.lt_trans (hstep hneeds) ih
  exact fun hcircle => Nat.lt_irrefl _ (hfalls hcircle)

-- ================================================================== the order

theorem finalDependencies_keys :
    (finalDependencies root).map FinalDependencies.key = finalKeys root := by
  unfold finalDependencies finalKeys
  rw [List.map_map]
  rfl

/-- The final fields that depend on nothing. -/
def freeKeys (root : TypeDecl) : List FinalField :=
  ((finalDependencies root).filter (·.dependencies.isEmpty)).map
    FinalDependencies.key

theorem mem_freeKeys :
    key ∈ freeKeys root ↔ key ∈ finalKeys root
      ∧ ∀ dep, ¬ Needs root key dep := by
  unfold freeKeys
  rw [List.mem_map]
  constructor
  · intro ⟨x, hx, hkey⟩
    obtain ⟨hx, hempty⟩ := List.mem_filter.1 hx
    obtain ⟨d, f, hf, hdependencies⟩ := mem_finalDependencies.1 hx
    subst hkey
    refine ⟨mem_finalKeys.2 ⟨d, f, hf⟩, fun dep hneeds => ?_⟩
    rw [needs_iff_mem hf, ← hdependencies, List.isEmpty_iff.1 hempty] at hneeds
    cases hneeds
  · intro ⟨hkey, hfree⟩
    obtain ⟨d, f, hf⟩ := mem_finalKeys.1 hkey
    refine ⟨⟨key, (ofType root).dependencies key f⟩, List.mem_filter.2
      ⟨mem_finalDependencies.2 ⟨d, f, hf, rfl⟩, ?_⟩, rfl⟩
    refine List.isEmpty_iff.2 (List.eq_nil_iff_forall_not_mem.2
      fun dep hdep => ?_)
    exact hfree dep ((needs_iff_mem hf).2 hdep)

/-- The final fields in the order in which they are found. -/
def foundKeys (root : TypeDecl) : List FinalField :=
  (initOrder root).map Prod.fst

theorem foundKeys_eq : foundKeys root = DepthFirst.order
    (finalDependants (finalDependencies root)) (finalKeys root).length
    (freeKeys root) := by
  unfold foundKeys initOrder
  rw [List.map_map, ← finalDependencies_keys, List.length_map]
  exact List.map_id _

/-- What is found goes with whether it depends on anything. -/
theorem mem_initOrder {isDependent : Bool}
    (h : (key, isDependent) ∈ initOrder root) :
    key ∈ foundKeys root
      ∧ (isDependent = true ↔ ∃ dep, Needs root key dep) := by
  have hkey : key ∈ foundKeys root := List.mem_map_of_mem h
  have hfinal : key ∈ finalKeys root := initOrder_subset h
  refine ⟨hkey, ?_⟩
  unfold initOrder at h
  obtain ⟨key', -, he⟩ := List.mem_map.1 h
  obtain ⟨rfl, rfl⟩ := Prod.mk.inj he
  have hfree :
      ((finalDependencies root).any fun d =>
        d.key == key' && d.dependencies.isEmpty)
      = true ↔ key' ∈ freeKeys root := by
    unfold freeKeys
    rw [List.any_eq_true, List.mem_map]
    refine exists_congr fun x => ?_
    rw [Bool.and_eq_true, beq_iff_eq, List.mem_filter]
    tauto
  rw [Bool.not_eq_true', ← Bool.not_eq_true, hfree, mem_freeKeys]
  simp [hfinal]

/-- The step from a final field to those that depend on it. -/
abbrev Supports (root : TypeDecl) : FinalField → FinalField → Prop :=
  DepthFirst.Leads (finalDependants (finalDependencies root)) (finalKeys root)

/-- It goes along the dependencies, in the opposite direction. -/
theorem transGen_supports_iff {a b : FinalField} :
    TransGen (Supports root) a b ↔ TransGen (Needs root) b a := by
  have hswap : Supports root = Function.swap (Needs root) := by
    funext a b
    refine propext ⟨fun h => mem_finalDependants.1 h.2,
      fun h => ⟨h.dep_mem, ?_⟩⟩
    exact mem_finalDependants.2 h
  rw [hswap, Relation.transGen_swap]

theorem finalDependants_subset :
    ∀ key ∈ finalKeys root, finalDependants (finalDependencies root) key
      ⊆ finalKeys root :=
  fun _ _ _ h => (mem_finalDependants.1 h).mem

theorem freeKeys_subset : freeKeys root ⊆ finalKeys root :=
  fun _ h => (mem_freeKeys.1 h).1

section Acyclic

variable (hacyclic : ∀ key, ¬ TransGen (Needs root) key key)

include hacyclic

theorem not_transGen_supports_self (key : FinalField) :
    ¬ TransGen (Supports root) key key :=
  fun h => hacyclic key (transGen_supports_iff.1 h)

/-- Without circles what is found is in order. -/
theorem ordered_foundKeys :
    DepthFirst.Ordered (finalDependants (finalDependencies root))
      (foundKeys root) := by
  rw [foundKeys_eq]
  exact DepthFirst.ordered_order finalDependants_subset
    (not_transGen_supports_self hacyclic) freeKeys_subset

/-- Without circles dependencies can be followed to their end. -/
theorem wellFounded_needs :
    WellFounded fun dep key : {key // key ∈ finalKeys root} =>
    TransGen (Needs root) key.1 dep.1 := by
  let Behind (dep key : {key // key ∈ finalKeys root}) :=
    TransGen (Needs root) key.1 dep.1
  have : Finite {key // key ∈ finalKeys root} :=
    List.finite_toSet (finalKeys root)
  have : IsTrans _ Behind := ⟨fun _ _ _ h h' => h'.trans h⟩
  have : Std.Irrefl Behind := ⟨fun key => hacyclic key.1⟩
  exact Finite.wellFounded_of_trans_of_irrefl Behind

/-- Without circles every final field is found. -/
theorem mem_foundKeys : key ∈ foundKeys root ↔ key ∈ finalKeys root := by
  constructor
  · intro h
    obtain ⟨x, hx, rfl⟩ := List.mem_map.1 h
    exact initOrder_subset hx
  · intro h
    refine (wellFounded_needs hacyclic).induction
      (C := fun key => key.1 ∈ foundKeys root) ⟨key, h⟩ fun key ih => ?_
    by_cases hfree : ∃ dep, Needs root key.1 dep
    · obtain ⟨dep, hneeds⟩ := hfree
      refine (ordered_foundKeys hacyclic).closed
        (ih ⟨dep, hneeds.dep_mem⟩ (.single hneeds)) ?_
      exact mem_finalDependants.2 hneeds
    · rw [foundKeys_eq]
      refine DepthFirst.subset_order finalDependants_subset
        (not_transGen_supports_self hacyclic) freeKeys_subset ?_
      exact mem_freeKeys.2 ⟨key.2, fun dep hneeds => hfree ⟨dep, hneeds⟩⟩

end Acyclic

end Stagewise.Output
