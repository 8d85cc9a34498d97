/-
No member is asked for while it is being made, as long as no node depends
on itself.

# The statement

From a compilation in which no member is being made (`Idle`), and whose
graph is acyclic, a sequence of requests in which all succeed but the last
never fails because a member is being made, and neither does any request
before. Every request ends, on every graph.

# The argument

A request that succeeds leaves nothing in progress that was not in
progress before (`Rests`). The members of a stage are made without asking
for each other in circles: `doClose` asks for the close method, accessors
and wrappers for the predicate. The nodes whose close-dependants methods
are in progress are a path of dependants: each is needed by the node that
is asked for next, so that this node is none of them.
-/
import Stagewise.Proofs.Dependency.Cycles
import Stagewise.Proofs.Lifecycle.Runs

namespace Stagewise

open Relation (TransGen)

/-- That a failure is another than that of asking for a member while it is
being made. -/
def Failure.NotReentrant (e : Failure) : Prop :=
  ∀ n m, e ≠ .reentrantSynthesis n m

/-- No member of a stage as it was discovered is made. -/
theorem Stage.progress_unmade {s : Stage} {a : Artifact} :
    s.unmade.progress a = .notStarted := by
  cases a with
  | predicate | close | doClose => rfl
  | accessor i =>
      show ((s.fields.map StageField.unmade)[i]?.map _).getD _ = _
      rw [List.getElem?_map]
      cases s.fields[i]? <;> rfl
  | guarded i =>
      show ((s.methods.map StageMethod.unmade)[i]?.map _).getD _ = _
      rw [List.getElem?_map]
      cases s.methods[i]? <;> rfl

namespace Compilation

variable {c c' c₁ : Compilation} {n m : DependencyId} {a : Artifact}
variable {l : Location}
variable {p : Progress (Option Location)}

-- ======================================================== what is in progress

/-- That no member is being made. -/
structure Idle (c : Compilation) : Prop where
  progress : ∀ n a, c.progress n a ≠ .inProgress
  closing : ∀ n, c.closing n ≠ .inProgress

/-- Nothing is being made for nodes that are as they were discovered. -/
theorem idle_of_unmade (h : ∀ d ∈ c.graph.nodes, d.unmade = d) : c.Idle := by
  have hget : ∀ n, (c.graph.get n).unmade = c.graph.get n := by
    intro n
    unfold DependencyGraph.get
    rw [List.getD_eq_getElem?_getD]
    cases hd : c.graph.nodes[n.index]? with
    | none => rfl
    | some d => exact h d (List.mem_of_getElem? hd)
  refine ⟨fun n a ha => ?_, fun n hn => ?_⟩
  · unfold progress at ha
    rw [← hget, DependencyNode.stage?_unmade] at ha
    cases hs : (c.graph.get n).stage? with
    | none =>
        rw [hs] at ha
        cases ha
    | some s =>
        rw [hs] at ha
        cases Stage.progress_unmade.symm.trans ha
  · unfold closing at hn
    rw [← hget] at hn
    cases hn

/-- That nothing is being made later that was not being made before, and
that the nodes are the same. -/
structure Rests (c c' : Compilation) : Prop where
  shape : c.graph.SameShape c'.graph
  progress : ∀ n a, c'.progress n a = .inProgress →
    c.progress n a = .inProgress
  closing : ∀ n, c'.closing n = .inProgress → c.closing n = .inProgress

namespace Rests

theorem refl (c : Compilation) : Rests c c :=
  ⟨.refl _, fun _ _ h => h, fun _ h => h⟩

theorem trans (h : Rests c c₁) (h' : Rests c₁ c') : Rests c c' :=
  ⟨h.shape.trans h'.shape, fun n a ha => h.progress n a (h'.progress n a ha),
    fun n hn => h.closing n (h'.closing n hn)⟩

theorem idle (h : Rests c c') (hc : c.Idle) : c'.Idle :=
  ⟨fun n a ha => hc.progress n a (h.progress n a ha),
    fun n hn => hc.closing n (h.closing n hn)⟩

/-- What leaves the graph alone puts nothing in progress. -/
theorem of_graph (h : c'.graph = c.graph) : Rests c c' := by
  refine ⟨h ▸ .refl _, fun n a ha => ?_, fun n hn => ?_⟩
  · unfold Compilation.progress at ha ⊢
    rwa [h] at ha
  · unfold Compilation.closing at hn ⊢
    rwa [h] at hn

end Rests

theorem sameShape_mapStage (f : Stage → Stage) :
    c.graph.SameShape (c.mapStage n f).graph := by
  refine ⟨rfl, DependencyGraph.length_modify _, fun m => ?_⟩
  unfold DependencyNode.isStage
  rw [get_mapStage]
  split
  · rename_i h
    rw [DependencyNode.stage?_mapStage, Option.isSome_map, h]
  · rfl

/-- Noting something about a stage that is no progress of a member. -/
theorem rests_mapStage {f : Stage → Stage}
    (hf : ∀ s a, (f s).progress a = s.progress a) :
    Rests c (c.mapStage n f) := by
  refine ⟨sameShape_mapStage f, fun m a ha => ?_, fun m hm => ?_⟩
  · unfold progress at ha ⊢
    rw [get_mapStage] at ha
    split at ha
    · rename_i h
      subst h
      rw [DependencyNode.stage?_mapStage, Option.map_map] at ha
      rwa [show (fun s => Stage.progress s a) ∘ f = (·.progress a) from
        funext fun s => hf s a] at ha
    · exact ha
  · rwa [closing_mapStage] at hm

/-- A member that was recorded as done is not in progress, whether the stage
offers it or not. -/
theorem progress_put_done_ne :
    (c.put n (.done l) a).progress n a ≠ .inProgress := by
  intro h
  by_cases hn : c.Offers n a
  · rw [progress_put_self hn] at h
    cases h
  · unfold progress put at h
    rw [get_mapStage, if_pos rfl, DependencyNode.stage?_mapStage] at h
    cases hs : (c.graph.get n).stage? with
    | none =>
        rw [hs] at h
        cases h
    | some s =>
        rw [hs] at h
        have ha : ¬ s.Offers a := fun ha => hn ⟨s, hs, ha⟩
        cases a with
        | predicate | close | doClose => exact ha trivial
        | accessor i | guarded i =>
            simp [Stage.put, Stage.progress,
              List.getElem?_eq_none (Nat.le_of_not_lt ha)] at h

/-- The end of the making of a member, which was put in progress at the
beginning. -/
theorem Rests.finish (h : Rests (c.put n .inProgress a) c₁) :
    Rests c (c₁.put n (.done l) a) := by
  refine ⟨((sameShape_mapStage _).trans h.shape).trans (sameShape_mapStage _),
    fun m b hb => ?_, fun m hm => ?_⟩
  · by_cases hmb : m = n ∧ b = a
    · obtain ⟨rfl, rfl⟩ := hmb
      exact (progress_put_done_ne hb).elim
    · rw [progress_put_of_ne hmb] at hb
      have hb₁ := h.progress m b hb
      rwa [progress_put_of_ne hmb] at hb₁
  · unfold put at hm
    rw [closing_mapStage] at hm
    have hm₁ := h.closing m hm
    unfold put at hm₁
    rwa [closing_mapStage] at hm₁

/-- Other members are as they were when one is put in progress. -/
theorem progress_put_inProgress_ne {b : Artifact}
    (h : c.progress n b ≠ .inProgress)
    (hb : b ≠ a) : (c.put n .inProgress a).progress n b ≠ .inProgress := by
  rwa [progress_put_of_ne fun he => hb he.2]

/-- Recording how far a close-dependants method is changes nothing else. -/
theorem sameShape_putClosing (n : DependencyId)
    (p : Progress (Option Location)) :
    c.graph.SameShape (c.putClosing n p).graph := by
  refine ⟨rfl, List.length_modify .., fun m => ?_⟩
  by_cases hn : n ∈ c.graph.ids
  · unfold DependencyNode.isStage
    rw [stage?_putClosing hn]
  · rw [putClosing_of_not_mem hn]

/-- No member's progress changes either. -/
theorem progress_putClosing_eq :
    (c.putClosing n p).progress m a = c.progress m a := by
  by_cases hn : n ∈ c.graph.ids
  · exact progress_putClosing hn
  · rw [putClosing_of_not_mem hn]

/-- What is in progress then was so before, or it is the node's own method. -/
theorem closing_putClosing (h : (c.putClosing n p).closing m = .inProgress) :
    c.closing m = .inProgress ∨ m = n ∧ n ∈ c.graph.ids ∧ p = .inProgress := by
  by_cases hn : n ∈ c.graph.ids
  · by_cases hm : m = n
    · subst hm
      rw [closing_putClosing_self hn] at h
      exact Or.inr ⟨rfl, hn, h⟩
    · rw [closing_putClosing_of_ne hn hm] at h
      exact Or.inl h
  · rw [putClosing_of_not_mem hn] at h
    exact Or.inl h

/-- The end of the making of a close-dependants method. -/
theorem Rests.finishClosing {found : Option Location}
    (h : Rests (c.putClosing n .inProgress) c₁) :
    Rests c (c₁.putClosing n (.done found)) := by
  refine ⟨((sameShape_putClosing n _).trans h.shape).trans
    (sameShape_putClosing n _),
    fun m b hb => ?_, fun m hm => ?_⟩
  · rw [progress_putClosing_eq] at hb
    have hb₁ := h.progress m b hb
    rwa [progress_putClosing_eq] at hb₁
  · rcases closing_putClosing hm with hm₁ | ⟨-, -, hp⟩
    · rcases closing_putClosing (h.closing m hm₁) with hm₀ | ⟨rfl, hn, -⟩
      · exact hm₀
      · -- the node's own method is done
        have hn₁ : m ∈ c₁.graph.ids := by
          rw [h.shape.links.ids, (sameShape_putClosing m _).links.ids]
          exact hn
        rw [closing_putClosing_self hn₁] at hm
        cases hm
    · cases hp

end Compilation

namespace Lifecycle

open Compilation Step

variable {c c' : Compilation} {n d m : DependencyId} {a : Artifact}
variable {l : Location}

-- ============================================================= single members

/-- That a step puts nothing in progress and asks for nothing that is. -/
def Calm {α : Type} (x : Step α) (c : Compilation) : Prop :=
  Outcome x c Failure.NotReentrant fun _ c' => Rests c c'

theorem Calm.trans {α : Type} {x : Step α} {c₁ : Compilation} (h : Rests c c₁)
    (hx : Calm x c₁) :
    Outcome x c₁ Failure.NotReentrant fun _ c' => Rests c c' :=
  hx.leave fun _ _ h' => h.trans h'

theorem bindMethod_fails {b : Bindings} {method : Identity} {r : Role}
    {e : Failure}
    (h : b.bindMethod method n r = .error e) : e.NotReentrant := by
  unfold Bindings.bindMethod at h
  split at h
  · obtain rfl := Except.error.inj h
    nofun
  · cases h

theorem addMethod_calm {method : Method} {r : Role} :
    Calm (addMethod n method r) c :=
  outcome_addMethod (fun _ _ => .of_graph rfl) fun _ he => bindMethod_fails he

theorem sentinelParts_calm :
    Outcome (sentinelParts n) c Failure.NotReentrant fun _ c' => c' = c :=
  outcome_sentinelParts (fun _ _ _ => nofun) (fun _ _ _ _ _ => nofun)
    fun _ _ _ _ => rfl

theorem resetBody_calm :
    Outcome (resetBody n) c Failure.NotReentrant fun _ c' => c' = c := by
  unfold resetBody
  exact outcome_bind.2 (sentinelParts_calm.leave fun _ _ h => h)

theorem makePredicate_calm (s : Stage) : Calm (makePredicate n s) c := by
  refine outcome_makeUnlessDeclared (fun _ _ _ => .refl c) (fun l _ _ => ?_)
    fun _ => ?_
  · refine outcome_bind.2 (sentinelParts_calm.leave ?_)
    rintro _ _ rfl
    exact Rests.of_graph rfl
  · refine outcome_bind.2 (sentinelParts_calm.leave ?_)
    rintro _ _ rfl
    rw [outcome_bind, outcome_get]
    exact addMethod_calm

theorem predicate_calm (h : c.progress n .predicate ≠ .inProgress) :
    Calm (predicate n) c :=
  outcome_request requests_predicate (fun _ _ _ => nofun)
    (fun hp => (h hp).elim) (fun _ _ => .refl c) fun _ _ _ =>
    (makePredicate_calm _).leave fun _ _ h => h.finish

theorem makeClose_calm (s : Stage) : Calm (makeClose n s) c := by
  have hmark : ∀ c : Compilation, Rests c (c.mapStage n fun s =>
      { s with closeIsGenerated := true }) :=
    fun c => rests_mapStage fun s a => by cases a <;> rfl
  refine outcome_makeUnlessDeclared (fun _ _ _ => .refl c) (fun l _ _ => ?_)
    fun _ => ?_
  · refine outcome_bind.2 (resetBody_calm.leave ?_)
    rintro _ c₁ rfl
    simp only [outcome_bind, outcome_implement, outcome_modifyStage]
    refine Rests.trans ?_ (hmark _)
    exact .of_graph rfl
  · rw [outcome_bind, outcome_get]
    refine outcome_bind.2 (resetBody_calm.leave ?_)
    rintro _ _ rfl
    exact outcome_bind.2 (addMethod_calm.leave fun _ _ h => h.trans (hmark _))

theorem close_calm (h : c.progress n .close ≠ .inProgress) :
    Calm (close n) c :=
  outcome_request requests_close (fun _ _ _ => nofun) (fun hp => (h hp).elim)
    (fun _ _ => .refl c) fun _ _ _ => (makeClose_calm _).leave fun _ _ h =>
    h.finish

theorem doClose_calm (h : c.progress n .doClose ≠ .inProgress)
    (hclose : c.progress n .close ≠ .inProgress) : Calm (doClose n) c := by
  refine outcome_request requests_doClose (fun _ _ _ => nofun)
    (fun hp => (h hp).elim) (fun _ _ => .refl c) fun _ _ _ => ?_
  have hclose₁ := progress_put_inProgress_ne (a := .doClose) hclose nofun
  refine Outcome.leave (Q := fun _ c' => Rests _ c') ?_ fun _ _ h => h.finish
  unfold makeDoClose
  refine outcome_bind.2 ((close_calm hclose₁).leave fun _ c₁ h₁ => ?_)
  simp only [outcome_bind, outcome_get]
  exact Calm.trans h₁ addMethod_calm

theorem guardStatement_calm (h : c.progress n .predicate ≠ .inProgress) :
    Calm (guardStatement n) c :=
  outcome_guardStatement ((predicate_calm h).leave fun _ _ h =>
    ⟨fun _ => h, fun _ _ _ => nofun⟩)

theorem accessor_calm {field : Identity}
    (h : ∀ i, c.progress n (.accessor i) ≠ .inProgress)
    (hpredicate : c.progress n .predicate ≠ .inProgress) :
    Calm (accessor n field) c := by
  refine outcome_requestAt (requests_accessor field) (fun _ _ _ => nofun)
    (fun _ _ _ _ _ => nofun) (fun _ i _ _ hp => (h i hp).elim)
    (fun _ _ _ _ _ _ => .refl c) fun s i _ _ _ => ?_
  have hpredicate₁ :=
    progress_put_inProgress_ne (a := .accessor i) hpredicate nofun
  refine Outcome.leave (Q := fun _ c' => Rests _ c') ?_ fun _ _ h => h.finish
  unfold makeAccessor
  refine outcome_bind.2 ((guardStatement_calm hpredicate₁).leave
    fun _ c₁ h₁ => ?_)
  simp only [outcome_bind, outcome_get]
  split
  · simp only [outcome_bind, outcome_implement, outcome_get]
    refine outcome_bindMethod.2 ⟨fun _ _ => ?_,
      fun _ he => bindMethod_fails he⟩
    exact h₁.trans (.of_graph rfl)
  · exact Calm.trans h₁ addMethod_calm

theorem guarded_calm {method : Identity}
    (h : ∀ i, c.progress n (.guarded i) ≠ .inProgress)
    (hpredicate : c.progress n .predicate ≠ .inProgress) :
    Calm (guarded n method) c := by
  refine outcome_requestAt (requests_guarded method) (fun _ _ _ => nofun)
    (fun _ _ _ _ _ => nofun) (fun _ i _ _ hp => (h i hp).elim)
    (fun _ _ _ _ _ _ => .refl c) fun s i _ _ _ => ?_
  have hpredicate₁ :=
    progress_put_inProgress_ne (a := .guarded i) hpredicate nofun
  refine Outcome.leave (Q := fun _ c' => Rests _ c') ?_ fun _ _ h => h.finish
  unfold makeGuarded
  refine outcome_bind.2 ((guardStatement_calm hpredicate₁).leave
    fun _ c₁ h₁ => ?_)
  simp only [outcome_bind, outcome_get]
  exact Calm.trans h₁ addMethod_calm

-- ================================================================= dependants

theorem makeCloseDependants_calm (name : String)
    (closes : List (DependencyId × Location)) :
    Calm (makeCloseDependants n name closes) c := by
  unfold Calm makeCloseDependants
  split
  · exact Rests.refl c
  · have hbody : Outcome (closes.mapM fun p => closeCall n p.1 p.2) c
        Failure.NotReentrant fun bs c' => bs = closes.map (fun p =>
          .expr (.call (some (c.accessBetween n p.1)) (c.sources.methodRef p.2)
              [])) ∧ c' = c :=
      outcome_mapM_of_unchanged fun p _ => outcome_closeCall.2 ⟨rfl, rfl⟩
    refine outcome_bind.2 (hbody.leave ?_)
    rintro _ _ ⟨-, rfl⟩
    exact outcome_map.2 addMethod_calm

/-- The nodes whose close-dependants methods are in progress are all needed
by the node that is asked for next. -/
theorem closeDependantsWithin_calm {g : DependencyGraph} (hg : g.Acyclic)
    (fuel : Nat)
    (hshape : g.SameShape c.graph)
    (hprogress : ∀ n a, c.progress n a ≠ .inProgress)
    (hpath : ∀ m, c.closing m = .inProgress → TransGen g.Depends n m) :
    Calm (closeDependantsWithin fuel n) c := by
  induction fuel generalizing n c with
  | zero => exact Rests.refl c
  | succ fuel ih =>
      refine outcome_closeDependantsWithin (fun hp => (hg n (hpath n hp)).elim)
        (fun _ _ => .refl c) fun hnew => ?_
      have hshape₁ :=
        hshape.trans (sameShape_putClosing (c := c) n .inProgress)
      have hprogress₁ : ∀ m a, (c.putClosing n .inProgress).progress m a
          ≠ .inProgress :=
        fun m a h => hprogress m a (progress_putClosing_eq.symm.trans h)
      have hpath₁ : ∀ m, (c.putClosing n .inProgress).closing m = .inProgress →
          ∀ d ∈ (c.putClosing n .inProgress).graph.sortedDependants n,
            TransGen g.Depends d m := by
        intro m hm d hd
        have hdn : d ∈ g.dependants n := by
          rw [hshape₁.links.sortedDependants] at hd
          exact List.contains_iff_mem.1 (List.mem_filter.1 hd).2
        rcases closing_putClosing hm with hm | ⟨rfl, hn, -⟩
        · have hnm := hpath m hm
          have hn : n ∈ g.ids := (DependencyGraph.mem_ids_of_transGen hnm).1
          exact .head (DependencyGraph.depends_iff_mem_dependants.2
            ⟨hn, hdn⟩) hnm
        · have hn : m ∈ g.ids := hshape.links.ids ▸ hn
          exact .single
            (DependencyGraph.depends_iff_mem_dependants.2 ⟨hn, hdn⟩)
      refine Outcome.leave
        (Q := fun _ c' => Rests (c.putClosing n .inProgress) c') ?_ ?_
      · generalize c.putClosing n .inProgress = c₁ at *
        unfold closesBy
        refine outcome_foldlM (I := fun _ _ c' => Rests c₁ c') ?_ (.refl c₁)
        intro _ d rest hds _ c₂ h₂
        have hd : d ∈ c₁.graph.sortedDependants n :=
          hds ▸ List.mem_append_right _ List.mem_cons_self
        have hprogress₂ : ∀ m a, c₂.progress m a ≠ .inProgress :=
          fun m a h => hprogress₁ m a (h₂.progress m a h)
        rw [outcome_bind, outcome_get]
        split
        · rw [outcome_bind, outcome_map]
          exact Calm.trans h₂ (close_calm (hprogress₂ d .close))
        · rw [outcome_bind]
          refine Calm.trans h₂ (ih (hshape₁.trans h₂.shape) hprogress₂
            fun m hm => ?_)
          exact hpath₁ m (h₂.closing m hm) d hd
      · intro closes c₂ h₂
        exact (Calm.trans h₂ (makeCloseDependants_calm _ closes)).leave
          fun _ _ h => h.finishClosing

theorem closeDependants_calm (hg : c.graph.Acyclic) (hc : c.Idle) :
    Calm (closeDependants n) c := by
  unfold Calm closeDependants
  rw [outcome_bind, outcome_get]
  exact closeDependantsWithin_calm hg _ (.refl _) hc.progress fun m hm =>
    (hc.closing m hm).elim

-- =================================================================== requests

/-- A step that changes nothing but the sources is calm. -/
theorem modifySources_calm (f : Sources → Sources) :
    Calm (modifySources f) c :=
  outcome_modifySources.2 (.of_graph rfl)

theorem closeDependantsAfterInit_calm {predicate close init : Location} :
    Calm (closeDependantsAfterInit n predicate close init) c := by
  unfold Calm closeDependantsAfterInit
  simp only [outcome_bind, outcome_get, outcome_call]
  exact modifySources_calm _

theorem stage_calm :
    Outcome (stage n) c Failure.NotReentrant fun _ c' => c' = c :=
  outcome_stage.2 ⟨fun _ _ => rfl, fun _ => nofun⟩

theorem closeDependantsFirst_calm {predicate close : Location}
    {dependants : Option Location} :
    Calm (closeDependantsFirst n predicate close dependants) c := by
  refine outcome_closeDependantsFirst (.refl c) (fun _ => nofun)
    fun d _ s _ => ?_
  refine Outcome.leave (outcome_forM (I := fun _ c' => Rests c c') ?_
    (.refl c)) ?_
  · exact fun _ _ _ _ c₁ h₁ => Calm.trans h₁ closeDependantsAfterInit_calm
  · exact fun _ c₁ h₁ => Calm.trans h₁ (modifySources_calm _)

theorem leaveAndAccess_calm (hc : c.Idle)
    {predicate close doClose : Location} :
    Calm (leaveAndAccess n predicate close doClose) c := by
  unfold Calm leaveAndAccess
  simp only [outcome_bind, outcome_call]
  refine (modifySources_calm _).leave fun _ c₁ h₁ => ?_
  refine (Calm.trans h₁ (modifySources_calm _)).leave fun _ c₂ h₂ => ?_
  refine stage_calm.leave ?_
  rintro s _ rfl
  refine outcome_forM (I := fun _ c' => Rests c c')
    (fun _ f _ _ c₃ h₃ => ?_) h₂
  exact outcome_bind.2
    (Calm.trans h₃ (accessor_calm (fun i => (h₃.idle hc).progress n _)
      ((h₃.idle hc).progress n _)))

/-- The requests that a stage's whole lifecycle consists of find nothing in
progress, one after the other. -/
theorem prepare_calm (hg : c.graph.Acyclic) (hc : c.Idle) :
    Calm (prepare n) c := by
  refine outcome_prepare (fun _ => closeDependants_calm hg hc) fun s _ => ?_
  refine (predicate_calm (hc.progress n _)).leave fun predicate c₁ h₁ => ?_
  refine (Calm.trans h₁ (closeDependants_calm (h₁.shape.links.acyclic hg)
    (h₁.idle hc))).leave ?_
  intro dependants c₂ h₂
  refine (Calm.trans h₂ (close_calm ((h₂.idle hc).progress n _))).leave
    fun close c₃ h₃ => ?_
  refine (Calm.trans h₃ (doClose_calm ((h₃.idle hc).progress n _)
    ((h₃.idle hc).progress n _))).leave fun doClose c₄ h₄ => ?_
  refine (Calm.trans h₄ closeDependantsFirst_calm).leave fun _ c₅ h₅ => ?_
  exact Calm.trans h₅ (leaveAndAccess_calm (h₅.idle hc))

/-- A request made when nothing is being made asks for nothing that is. -/
theorem Request.run_calm (r : Request) (hg : c.graph.Acyclic) (hc : c.Idle) :
    Calm r.run c := by
  cases r with
  | predicate n => exact outcome_bind.2 (predicate_calm (hc.progress n _))
  | close n => exact outcome_bind.2 (close_calm (hc.progress n _))
  | doClose n =>
      exact outcome_bind.2 (doClose_calm (hc.progress n _) (hc.progress n _))
  | closeOf n =>
      refine outcome_bind.2 ?_
      unfold Lifecycle.closeOf
      rw [outcome_bind, outcome_get]
      split
      · exact outcome_map.2 (close_calm (hc.progress n _))
      · exact closeDependants_calm hg hc
  | closeDependants n => exact outcome_bind.2 (closeDependants_calm hg hc)
  | accessor n field =>
      exact outcome_bind.2 (accessor_calm (fun _ => hc.progress n _)
        (hc.progress n _))
  | guarded n method =>
      exact outcome_bind.2 (guarded_calm (fun _ => hc.progress n _)
        (hc.progress n _))
  | prepare n => exact prepare_calm hg hc

-- ====================================================== sequences of requests

/-- Every request terminates, whatever the graph. On an acyclic graph, and
if nothing is being made at the start, no sequence of requests, which goes
on as long as they succeed, comes to one that fails because a member is
being made. -/
theorem requests_terminate_unentered (c : Compilation) (rs : List Request)
    (hrs : ∀ r ∈ rs, r.node ∈ c.graph.ids) :
    (∀ r ∈ rs, r.Terminates c)
      ∧ (c.graph.Acyclic → c.Idle → ∀ node artifact,
          ((rs.forM Request.run).runOn c).1
          ≠ .error (.reentrantSynthesis node artifact)) := by
  refine ⟨fun r hr => r.terminates (hrs r hr),
    fun hg hc node artifact he => ?_⟩
  have hcalm : Outcome (rs.forM Request.run) c Failure.NotReentrant fun _ c' =>
      Rests c c' := by
    refine outcome_forM (I := fun _ c' => Rests c c') (fun _ r _ _ c₁ h₁ => ?_)
      (.refl c)
    exact Calm.trans h₁ (r.run_calm (h₁.shape.links.acyclic hg) (h₁.idle hc))
  exact hcalm.fails he node artifact rfl

/-- In the diamond, closing what depends on `A` goes through `B`, `M` and
`C`. -/
theorem requests_terminate_unentered_diamond :
    let c : Compilation := { sources := {}, tree := {}, graph := .diamond }
    let rs : List Request :=
      [.closeDependants ⟨2⟩, .closeDependants ⟨0⟩, .prepare ⟨3⟩]
    (∀ r ∈ rs, r.node ∈ c.graph.ids) ∧ c.graph.Acyclic ∧ c.Idle
      ∧ (∀ r ∈ rs, r.Terminates c) ∧ ∀ node artifact,
          ((rs.forM Request.run).runOn c).1
          ≠ .error (.reentrantSynthesis node artifact) := by
  intro c rs
  have hrs : ∀ r ∈ rs, r.node ∈ c.graph.ids := by decide
  have hg : c.graph.Acyclic := DependencyGraph.checkAcyclic_eq_ok_iff.1 rfl
  have hc : c.Idle := idle_of_unmade (by
    show ∀ d ∈ DependencyGraph.diamond.nodes, d.unmade = d
    rintro d (_ | ⟨_, _ | ⟨_, _ | ⟨_, _ | ⟨_, ⟨⟩⟩⟩⟩⟩) <;> rfl)
  obtain ⟨hends, hfree⟩ := requests_terminate_unentered c rs hrs
  exact ⟨hrs, hg, hc, hends, hfree hg hc⟩

end Lifecycle

end Stagewise
