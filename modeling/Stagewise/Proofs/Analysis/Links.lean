/-
Linking records every dependency that the bodies show.

A target leads through the composition when it is the object at hand or
ends a chain of reference fields from there (`Leads`). An expression
reaches the stage whose field it reads or whose tagged method it calls
through such a target (`Reaches`); where an interface method of the same
identity stands for a method group at the end of the target, it is the
group that the call reaches. Where linking succeeds, a node depends on
whatever the expressions of its bodies reach.
-/
import Stagewise.Proofs.Analysis.Discovery

namespace Stagewise.Analysis

open Compilation Step

variable {c c' : Compilation} {n d : DependencyId} {e : Expr}
variable {t : Composition} {b : Bindings} {home place : CompositionId}

-- ==================================================================== targets

/-- That a target leads from a composition node to another: it is the
object at hand, or a reference field behind a target that leads
somewhere. -/
inductive Leads (t : Composition) (b : Bindings) (home : CompositionId) :
    Option Expr → CompositionId → Prop
  | here : Leads t b home none home
  | self (q : Option String) : Leads t b home (some (.self q)) home
  | field {target : Option Expr} {f : FieldRef} {leaf : DeclId}
      {before place : CompositionId} :
      Leads t b home target before → b.referenced? f.identity = some leaf →
      t.nodeOf? leaf = some place →
        Leads t b home (some (.field target f)) place

/-- That an expression of a node reaches another through a target that
leads there. -/
inductive Reaches (t : Composition) (b : Bindings) (home : CompositionId)
    (n : DependencyId) : Expr → DependencyId → Prop
  | read {target : Option Expr} {f : FieldRef} {place : CompositionId}
      {d : DependencyId} :
      Leads t b home target place → b.stageOfField? f.identity = some d →
      Reaches t b home n (.field target f) d
  | call {target : Option Expr} {m : MethodRef} {args : List Expr}
      {place : CompositionId} {d : DependencyId} :
      Leads t b home target place → b.stageOfMethod? m.identity = some d →
      (∀ g, t.interfaceMethod? place m.identity = some g → g = n) →
      Reaches t b home n (.call target m args) d
  | standIn {target : Option Expr} {m : MethodRef} {args : List Expr}
      {place : CompositionId} {d g : DependencyId} :
      Leads t b home target place → b.stageOfMethod? m.identity = some d →
      t.interfaceMethod? place m.identity = some g → g ≠ n →
      Reaches t b home n (.call target m args) g

/-- Positions do not matter for where a target leads. -/
theorem Leads.unplaced {ps : List (DependencyId × Int)} {target : Option Expr}
    (h : Leads t { b with positions := ps } home target place) :
    Leads t b home target place := by
  induction h with
  | here => exact .here
  | self q => exact .self q
  | field _ href hnode ih => exact .field ih href hnode

/-- Positions do not matter for what an expression reaches. -/
theorem Reaches.unplaced {ps : List (DependencyId × Int)}
    (h : Reaches t { b with positions := ps } home n e d) :
    Reaches t b home n e d := by
  cases h with
  | read hlead hfield => exact .read hlead.unplaced hfield
  | call hlead hmethod hown => exact .call hlead.unplaced hmethod hown
  | standIn hlead hmethod hinterface hne =>
      exact .standIn hlead.unplaced hmethod hinterface hne

/-- A target that leads somewhere has a route there. -/
theorem routeOfTarget?_of_leads {target : Option Expr}
    (h : Leads c.tree c.bindings (c.compositionOf n) target place) :
    ∃ route, routeOfTarget? c n target = some (route, place) := by
  induction h with
  | here => exact ⟨{}, rfl⟩
  | self q => exact ⟨{}, rfl⟩
  | field _ href hnode ih =>
      obtain ⟨route, hroute⟩ := ih
      exact ⟨_, by simp [routeOfTarget?, routeOf?, href, hnode, hroute]; rfl⟩

/-- A method tagged with a stage is in no method group. -/
theorem groupOf?_of_stageOfMethod? {id : Identity}
    (h : b.stageOfMethod? id = some d) :
    b.groupOf? id = none := by
  have hrole := Bindings.nodeWithRole?_eq_some_iff.1 h
  unfold Bindings.groupOf? Bindings.nodeWithRole?
  rw [hrole]
  rfl

/-- What an expression reaches is found. -/
theorem reached?_of_reaches
    (h : Reaches c.tree c.bindings (c.compositionOf n) n e d) :
    ∃ route, reached? c n e = some (route, d) := by
  cases h with
  | read hlead hfield =>
      obtain ⟨route, hroute⟩ := routeOfTarget?_of_leads hlead
      exact ⟨route, by simp [reached?, hroute, hfield]⟩
  | @call target m args place d hlead hmethod hown =>
      obtain ⟨route, hroute⟩ := routeOfTarget?_of_leads hlead
      have hcalled : calledNode? c n m place = some d := by
        unfold calledNode?
        simp only [groupOf?_of_stageOfMethod? hmethod, Option.orElse_eq_or,
          Option.none_or]
        cases hi : c.tree.interfaceMethod? place m.identity with
        | none => exact hmethod
        | some g => exact (if_pos (hown g hi)).trans hmethod
      exact ⟨route, by simp [reached?, hroute, hcalled]⟩
  | @standIn target m args place d' g hlead hmethod hinterface hne =>
      obtain ⟨route, hroute⟩ := routeOfTarget?_of_leads hlead
      have hcalled : calledNode? c n m place = some d := by
        unfold calledNode?
        simp only [groupOf?_of_stageOfMethod? hmethod, Option.orElse_eq_or,
          Option.none_or, hinterface]
        exact if_neg hne
      exact ⟨route, by simp [reached?, hroute, hcalled]⟩

-- ==================================================================== linking

/-- A turn of linking keeps the dependencies there are and records what
its expression reaches. -/
theorem linkExpr_links :
    Ensures (linkExpr n e) c fun _ c' =>
      (∀ a b, c.graph.dependsOn a b = true → c'.graph.dependsOn a b = true)
        ∧ ∀ route d, reached? c n e = some (route, d) → d ≠ n →
            c'.graph.dependsOn n d = true := by
  unfold linkExpr
  simp only [ensures_bind, ensures_get]
  split
  · rename_i route d hreached
    split
    · rename_i hself
      refine ensures_pure.2 ⟨fun _ _ h => h, fun route' d' hd' hne => ?_⟩
      rw [hreached] at hd'
      obtain ⟨-, rfl⟩ := Prod.mk.inj (Option.some.inj hd')
      exact absurd hself hne
    · simp only [ensures_bind, ensures_ofExcept, ensures_modify, ensures_pure]
      intro p hadd
      have hdepends := DependencyGraph.dependsOn_of_addDependency hadd
      refine ⟨fun a b h => ?_, fun route' d' hd' _ => ?_⟩
      · rw [hdepends, h, Bool.true_or]
      · rw [hreached] at hd'
        obtain ⟨-, rfl⟩ := Prod.mk.inj (Option.some.inj hd')
        rw [hdepends]
        simp
  · rename_i hnone
    refine ensures_pure.2 ⟨fun _ _ h => h, fun route d hd => ?_⟩
    rw [hnone] at hd
    cases hd

/-- That every node depends on whatever the expressions of its bodies
reach. -/
def Linked (c : Compilation) : Prop :=
  ∀ n ∈ c.graph.ids, ∀ e ∈ bodyExprs c n, ∀ d,
    Reaches c.tree c.bindings (c.compositionOf n) n e d → d ≠ n →
      c.graph.dependsOn n d = true

/-- Where linking succeeds, all dependencies are recorded. -/
theorem linkNodes_linked : Ensures linkNodes c fun _ c' => Linked c' := by
  unfold linkNodes
  simp only [ensures_bind, ensures_get, ensures_pure]
  refine (ensures_mapM (I := fun done c' =>
    (∃ es, c' = { c with graph := { c.graph with edges := es } })
      ∧ ∀ p ∈ done, ∀ d,
      Reaches c.tree c.bindings (c.compositionOf p.1) p.1 p.2 d →
          d ≠ p.1 → c'.graph.dependsOn p.1 d = true) ?_
    ⟨⟨_, rfl⟩, List.forall_mem_nil _⟩).mono ?_
  · intro done p _ c₁ h₁
    obtain ⟨⟨es, rfl⟩, hdone⟩ := h₁
    refine (linkExpr_frame.and linkExpr_links).mono ?_
    rintro _ c₂ ⟨⟨es', hc₂⟩, hkeep, hnew⟩
    refine ⟨⟨es', hc₂⟩, List.forall_mem_append.2 ⟨?_, ?_⟩⟩
    · intro q hq d hreaches hne
      exact hkeep _ _ (hdone q hq d hreaches hne)
    · rw [List.forall_mem_singleton]
      intro d hreaches hne
      obtain ⟨route, hroute⟩ := reached?_of_reaches
        (c := { c with graph := { c.graph with edges := es } }) hreaches
      exact hnew route d hroute hne
  · rintro _ c' ⟨⟨es, rfl⟩, hdone⟩ n hn e he d hreaches hne
    refine hdone (n, e) (List.mem_flatMap.2 ⟨n, hn, ?_⟩) d hreaches hne
    exact List.mem_map.2 ⟨e, he, rfl⟩

end Stagewise.Analysis
