/-
Guarding and preparing nodes, as changes of a compilation.

Each step makes changes of the known kinds, whatever members it finds made
already (`guardNodes_evolves`, `prepare_evolves`). A `doClose` method is
appended and bound before it counts as done, so that from then on it can be
called as such; once all nodes are prepared every stage has one
(`prepareNodes_ends`).
-/
import Stagewise.Proofs.Lifecycle.Evolution
import Stagewise.Proofs.Lifecycle.Runs

namespace Stagewise.Lifecycle

open Compilation Step

variable {c c' c₀ c₁ c₂ : Compilation} {n m : DependencyId} {l : Location}
variable {body : Block}

-- ================================================================ guarding

/-- Guarding an expression makes members. -/
theorem guardExpr_evolves {e : Expr} {r : GuardReport} (h : Evolves c₀ c) :
    Ensures ((guardExpr n e).run r) c fun _ c' => Evolves c₀ c' :=
  guardExpr_makings.mono fun _ _ ⟨_, hm⟩ => h.makings hm

/-- Guarding a body detaches it meanwhile. -/
theorem guardBody_evolves {r : GuardReport} (h : Evolves c₀ c) :
    Ensures ((guardBody n l).run r) c fun _ c' => Evolves c₀ c' :=
  ensures_guardBody (I := Evolves (withBody c l none))
    (fun _ _ _ hc => guardExpr_evolves hc) h
    (.refl _) fun _ _ hdetour => h.detour hdetour

/-- Guarding all nodes. -/
theorem guardNodes_evolves : Ensures guardNodes c fun _ c' => Evolves c c' :=
  ensures_guardNodes (ensures_closeStages (.refl c)
      fun _ _ h => (Makings.close .refl).mono fun _ _ hm => h.makings hm)
    fun _ _ _ h => ensures_guardNode h fun _ _ _ _ h' => guardBody_evolves h'

-- ============================================================ doClose methods

/-- A new method is appended and bound. -/
theorem addMethod_evolves {d : Method} {r : Role} (h : Evolves c₀ c)
    (hn : n ∈ c.graph.ids)
    (hd : IsNew d body) :
    Ensures (addMethod n d r) c fun _ c' => Evolves c₀ c' := by
  unfold addMethod
  simp only [ensures_bind, ensures_get, ensures_modifySources,
    ensures_bindMethod, ensures_pure]
  exact fun _ hb => h.step (.append hn hd hb)

/-- A new method can be called in the role that it is bound with. -/
theorem addMethod_ends {d : Method} (hd : d.id = .unassigned) :
    Ensures (addMethod n d .doClose) c fun l c' =>
      (c.Sited n → Ends c' n l) ∧ c'.graph = c.graph := by
  unfold addMethod
  simp only [ensures_bind, ensures_get, ensures_modifySources,
    ensures_bindMethod, ensures_pure]
  refine fun b hb => ⟨fun hdecl => ?_, trivial⟩
  have hname : (c.sources.modify (c.graph.get n).decl (·.addMethod d)).name
      (c.graph.get n).decl
      = c.sources.name (c.graph.get n).decl :=
    Sources.name_modify (f := (·.addMethod d)) (fun _ => rfl) _
  have hmethod := Sources.method_addMethod_next (m := d) hdecl
  refine ⟨(Sources.has_addMethod hdecl).2 (Or.inr rfl), ?_⟩
  show b.roleOf? (((c.sources.modify _ _).method (c.sources.nextMethod _)).ref
    ((c.sources.modify _ _).name _)).identity = _
  rw [Bindings.roleOf?_of_bindMethod hb, hname, if_pos]
  show _ = ((c.sources.modify _ _).method (c.sources.nextMethod _)).id
  rw [hmethod]
  exact (d.id_withIdentity hd).symm

/-- Making a `doClose` method: it is there, or it is put in progress, made
from the close method, and done. -/
theorem doClose_evolves :
    Ensures (doClose n) c fun l c' =>
      Evolves c c' ∧ c'.progress n .doClose = .done l := by
  unfold doClose
  rw [ensures_bind]
  refine begin_ensures (a := .doClose) (fun _ => trivial) (fun _ => rfl)
    (fun _ _ => rfl) (fun l hl => ensures_pure.2 ⟨.refl c, hl⟩)
    fun hn hnew => ?_
  have hstart : Evolves c (c.put n .inProgress .doClose) :=
    .change (.start hnew)
  have hprogress : (c.put n .inProgress .doClose).progress n .doClose
      = .inProgress :=
    progress_put_self hn
  rw [ensures_bind]
  refine (Makings.close .refl).mono fun closeMethod c₁ hclose => ?_
  have h₁ : Evolves c c₁ := hstart.makings hclose
  have hnode : n ∈ c₁.graph.ids := by
    obtain ⟨s, hs, -⟩ := hn
    exact h₁.mem_ids.2 (mem_ids_of_stage? hs)
  simp only [ensures_bind, ensures_get]
  refine ((addMethod_evolves h₁ hnode (by exact ⟨rfl, rfl, rfl⟩)).and
    (addMethod_ends rfl)).mono ?_
  rintro l c₂ ⟨h₂, hends, hgraph⟩
  have hprogress₂ : c₂.progress n .doClose = .inProgress := by
    have hsame : c₂.progress n .doClose = c₁.progress n .doClose := by
      unfold Compilation.progress
      rw [hgraph]
    rw [hsame, hclose.progress_doClose, hprogress]
  rw [ensures_modifyStage, ensures_pure]
  exact ⟨h₂.step
    (.finish hprogress₂ fun hn₂ => hends (h₁.sited.2 (h₂.sited.1 hn₂))),
    progress_put_self (h₂.sameNodes.offers hn)⟩

-- =================================================== close-dependants methods

/-- Making a close-dependants method makes close methods and appends
methods. -/
theorem closeDependantsWithin_evolves {fuel : Nat} (h : Evolves c₀ c)
    (hn : n ∈ c₀.graph.ids) :
    Ensures (closeDependantsWithin fuel n) c fun _ c' => Evolves c₀ c' := by
  induction fuel generalizing c n with
  | zero => exact ensures_pure.2 h
  | succ fuel ih =>
      refine ensures_closeDependantsWithin (fun _ _ => h) fun _ => ?_
      have hstart := h.step (.closing n .inProgress)
      refine (ensures_closes (I := fun _ _ c' => Evolves c₀ c') ?_ hstart).mono
        fun closes c₁ h₁ => ?_
      · intro _ d hd _ c₁ h₁
        split
        · rw [ensures_map]
          exact (Makings.close .refl).mono fun _ _ hm => h₁.makings hm
        · exact ih h₁ (hstart.mem_ids.1 (mem_ids_of_mem_sortedDependants hd))
      · split
        · exact h₁.step (.closing n _)
        · refine (addMethod_evolves h₁ (h₁.mem_ids.2 hn)
            (by exact ⟨rfl, rfl, rfl⟩)).mono
            fun l c₂ h₂ => ?_
          exact h₂.step (.closing n _)

theorem closeDependants_evolves (h : Evolves c₀ c) (hn : n ∈ c₀.graph.ids) :
    Ensures (closeDependants n) c fun _ c' => Evolves c₀ c' := by
  unfold closeDependants
  rw [ensures_bind, ensures_get]
  exact closeDependantsWithin_evolves h hn

-- ============================================================= the whole node

theorem modifyBody_evolves (h : Evolves c₀ c) (f : Block → Block) :
    Ensures (modifyBody l f) c fun _ c' => Evolves c₀ c' :=
  ensures_modifySources.2 (h.step (.body fun body => f (body.getD [])))

theorem closeDependantsAfterInit_evolves (h : Evolves c₀ c)
    {predicate close init : Location} :
    Ensures (closeDependantsAfterInit n predicate close init) c fun _ c' =>
      Evolves c₀ c' :=
  ensures_closeDependantsAfterInit.2 (modifyBody_evolves h _)

theorem closeDependantsFirst_evolves (h : Evolves c₀ c)
    {predicate close : Location} {dependants : Option Location} :
    Ensures (closeDependantsFirst n predicate close dependants) c fun _ c' =>
      Evolves c₀ c' := by
  refine ensures_closeDependantsFirst h fun d _ s _ => ?_
  refine Ensures.mono (ensures_forM (I := fun _ c' => Evolves c₀ c')
    (fun _ init _ c₁ h₁ => closeDependantsAfterInit_evolves h₁) h)
    fun _ c₁ h₁ => ?_
  exact modifyBody_evolves h₁ _

/-- The last part of preparing a stage. -/
theorem leaveAndAccess_evolves (h : Evolves c₀ c)
    {predicate close doClose : Location} :
    Ensures (leaveAndAccess n predicate close doClose) c fun _ c' =>
      Evolves c₀ c' := by
  refine ensures_leaveAndAccess ?_ fun c₃ field h₃ => ?_
  · exact (modifyBody_evolves h _).mono fun _ c₁ h₁ => modifyBody_evolves h₁ _
  · exact (Makings.accessor .refl field).mono fun _ _ hm => h₃.makings hm

/-- Preparing a node, which finishes the `doClose` method of a stage. -/
theorem prepare_evolves (hn : n ∈ c.graph.ids) :
    Ensures (prepare n) c fun _ c' => Evolves c c'
      ∧ ((c.graph.get n).isStage = true →
        ∃ l, c'.progress n .doClose = .done l) := by
  refine ensures_prepare (fun hgroup => ?_) fun s _ => ?_
  · refine (closeDependants_evolves (.refl c) hn).mono fun _ c₁ h₁ =>
      ⟨h₁, fun hstage => ?_⟩
    rw [DependencyNode.isStage, hgroup] at hstage
    cases hstage
  refine (Makings.predicate .refl).mono fun predicate c₁ hm₁ => ?_
  have h₁ := (Evolves.refl c).makings hm₁
  refine (closeDependants_evolves h₁ hn).mono fun dependants c₂ h₂ => ?_
  refine (Makings.close .refl).mono fun close c₃ hm₃ => ?_
  have h₃ := h₂.makings hm₃
  refine doClose_evolves.mono fun doClose c₄ ⟨h₄, hdone⟩ => ?_
  refine (closeDependantsFirst_evolves (.refl c₄)).mono fun _ c₅ h₅ => ?_
  refine (leaveAndAccess_evolves h₅).mono fun _ c₆ h₆ => ?_
  exact ⟨(h₃.trans h₄).trans h₆, fun _ => ⟨doClose, h₆.done hdone⟩⟩

/-- Preparing all nodes, which finishes the `doClose` methods of all
stages. -/
theorem prepareNodes_evolves :
    Ensures prepareNodes c fun _ c' => Evolves c c'
      ∧ ∀ n ∈ c'.graph.stages, ∃ l, c'.progress n .doClose = .done l := by
  unfold prepareNodes
  simp only [ensures_bind, ensures_get, ensures_pure]
  refine (ensures_forM (I := fun done c' => Evolves c c' ∧ ∀ n ∈ done,
    (c.graph.get n).isStage = true → ∃ l, c'.progress n .doClose = .done l) ?_
    ⟨.refl c, List.forall_mem_nil _⟩).mono ?_
  · rintro done n hn c₁ ⟨h₁, hdone⟩
    refine (prepare_evolves (h₁.mem_ids.2 hn)).mono ?_
    rintro _ c₂ ⟨h₂, hn⟩
    refine ⟨h₁.trans h₂, ?_⟩
    refine List.forall_mem_append.2 ⟨fun m hm hstage => ?_,
      List.forall_mem_singleton.2 ?_⟩
    · obtain ⟨l, hl⟩ := hdone m hm hstage
      exact ⟨l, h₂.done hl⟩
    · rw [← h₁.sameShape.isStage n]
      exact hn
  · rintro _ c' ⟨h, hall⟩
    refine ⟨h, fun n hn => ?_⟩
    obtain ⟨hids, hstage⟩ := List.mem_filter.1 hn
    rw [h.sameShape.isStage] at hstage
    exact hall n (h.mem_ids.1 hids) hstage

/-- Once all nodes are prepared, every stage has its `doClose` method. -/
theorem prepareNodes_ends (hc : Ending c) :
    Ensures prepareNodes c fun _ c' => Evolves c c'
      ∧ ∀ n ∈ c'.graph.stages, ∃ l, c'.progress n .doClose = .done l
      ∧ Ends c' n l := by
  refine prepareNodes_evolves.mono ?_
  rintro _ c' ⟨h, hdone⟩
  refine ⟨h, fun n hn => ?_⟩
  obtain ⟨l, hl⟩ := hdone n hn
  exact ⟨l, hl, (h.ending hc).ends n l hl⟩

end Stagewise.Lifecycle
