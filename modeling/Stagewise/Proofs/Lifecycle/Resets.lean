/-
The close methods that are made for stages, and what is in them.

A stage with a concrete close method keeps it. Any other stage gets one
that puts the initial value of its sentinel back (`ResetsSentinel`). Making
the close method of one stage leaves those of all others alone, whether
made, declared or abstract. So once all are made, each body of a node is
one that was there before or such a reset (`closeStages_bodies`).
-/
import Stagewise.Proofs.Analysis.Assignment
import Stagewise.Proofs.Lifecycle.Bodies
import Stagewise.Proofs.Lifecycle.Frame
import Stagewise.Proofs.Program.Rewrite

namespace Stagewise.Lifecycle

open Compilation Step

variable {K : Location → Prop} {c c' : Compilation} {n m : DependencyId}
variable {l : Location}

-- ===================================================================== frames

/-- No field changes. -/
theorem stable_field (s : Sources) :
    Stable n fun c => ∀ l, c.sources.field l = s.field l where
  stage _ _ h := h
  bindings _ _ h := h
  append _ _ m _ h l := (Sources.field_addMethod m l).trans (h l)
  implement _ l' _ _ h l := (Sources.field_modifyMethod l' _ l).trans (h l)

/-- No other node changes. -/
theorem stable_get (h : m ≠ n) (d : DependencyNode) :
    Stable n fun c => c.graph.get m = d where
  stage c f hd := by rw [get_mapStage, if_neg h, hd]
  bindings _ _ hd := hd
  append _ _ _ _ hd := hd
  implement _ _ _ _ hd := hd

-- =========================================================== one close method

/-- That a method puts the initial value of a stage's sentinel back, in the
place of a close method that is not declared or abstract. -/
def ResetsSentinel (c : Compilation) (n : DependencyId) (m : Method) : Prop :=
  ∃ s f, (c.graph.get n).stage? = some s ∧ s.hasConcreteClose c.sources = false
    ∧ s.sentinel? = some f ∧ m.body = some (resetOf c.sources f.location)

/-- The expressions of a reset. -/
theorem exprs_resetOf {s : Sources} : (resetOf s l).exprs
    = .assign none (readOf s l) (initialOf s l) :: readOf s l
      :: (initialOf s l).subterms := by
  simp only [resetOf, Block.exprs_cons, Block.exprs_nil,
    List.append_nil, Stmt.nodes, Node.exprs_stmt_cons, Node.exprs_nodes]
  rfl

/-- The close method that is made for a stage is a body that there was, or
a reset. -/
theorem close_makes (h : Seated K c)
    (hnew : c.progress n .close = .notStarted) :
    Ensures (close n) c fun l c' =>
      c.closeBody? n = some l ∨ ResetsSentinel c n (c'.sources.method l) := by
  unfold close
  rw [ensures_bind]
  refine begin_ensures (a := .close) (fun _ => trivial) (fun _ => rfl)
    (fun _ _ => rfl) (fun l hl => ?_) fun hn _ => ?_
  · rw [hnew] at hl
    cases hl
  have h₁ : Seated K (c.put n .inProgress .close) :=
    h.keeps (Keeps.start (K := K) hn hnew)
  obtain ⟨s₀, hs₀, -⟩ := hn
  have hput : ((c.put n .inProgress .close).graph.get n).stage?
      = some (s₀.put .inProgress .close) := by
    unfold Compilation.put
    rw [get_mapStage, if_pos rfl, DependencyNode.stage?_mapStage, hs₀]
    rfl
  simp only [ensures_bind, ensures_stage]
  intro s hs
  obtain rfl := Option.some.inj (hput.symm.trans hs)
  split
  · rename_i l hl
    have hdeclared : c.declared? n .close = some l :=
      (declared?_eq hs₀).trans hl
    simp only [ensures_bind, ensures_get]
    split
    · rename_i hconcrete
      have hbody : c.closeBody? n = some l := by
        have hlocal : (c.sources.method l).isAbstract = false := by
          have hany : (s₀.put .inProgress .close).hasConcreteClose c.sources
            = true := hconcrete
          simpa [Stage.hasConcreteClose, hl] using hany
        unfold closeBody?
        rw [hnew, hdeclared]
        simp [Progress.value?, hlocal]
      simp only [ensures_bind, ensures_pure, ensures_modifyStage]
      exact Or.inl hbody
    · rename_i hconcrete
      have hhas : c.sources.Has l := h.declared n .close l hdeclared
      rw [ensures_bind]
      refine resetBody_exact.mono ?_
      rintro _ c₂ ⟨rfl, s, f, hs', hf, rfl⟩
      obtain rfl := Option.some.inj (hs.symm.trans hs')
      unfold implement
      simp only [ensures_bind, ensures_modifySources, ensures_pure,
        ensures_modifyStage]
      refine Or.inr ⟨s₀, f, hs₀, Bool.eq_false_iff.2 hconcrete, hf, ?_⟩
      show ((c.sources.modifyMethod l _).method l).body = _
      rw [Sources.method_modifyMethod hhas, if_pos rfl]
      rfl
  · rename_i hl
    simp only [ensures_bind, ensures_get]
    refine resetBody_exact.mono ?_
    rintro _ c₂ ⟨rfl, s, f, hs', hf, rfl⟩
    obtain rfl := Option.some.inj (hs.symm.trans hs')
    refine (addMethod_body h₁ (mem_ids_of_stage? hs)).mono fun l c₃ hbody => ?_
    simp only [ensures_pure, ensures_modifyStage]
    refine Or.inr ⟨s₀, f, hs₀, ?_, hf, hbody⟩
    have hnone : s₀.declaredClose = none := hl
    simp [Stage.hasConcreteClose, hnone]

/-- Where members carry derived identities, a stage's sentinel is a field
of the stage by its name too. -/
theorem stageOfField?_sentinel (h : Analysis.Assigned c)
    (hid : c.sources.Derived)
    {s : Stage} {f : StageField} (hs : (c.graph.get n).stage? = some s)
    (hf : s.sentinel? = some f) :
    (∃ leaf ∈ c.tree.leaves, c.sources.HasFieldIn leaf f.location)
      ∧ c.bindings.stageOfField?
        ((c.sources.field f.location).ref
          (c.sources.name f.location.decl)).identity
          = some n := by
  have hmem : f.location ∈ (c.graph.get n).fields := by
    have hfields : f ∈ s.fields := by
      unfold Stage.sentinel? at hf
      split at hf
      · exact List.mem_of_getElem? hf
      · cases hf
    unfold DependencyNode.fields
    rw [DependencyNode.stage?_eq_some.1 hs]
    exact List.mem_map_of_mem hfields
  have hhas := h.hasField hmem
  refine ⟨h.field n _ hmem, (h.stage _ n).2 ⟨f.location, hmem, ?_⟩⟩
  exact hid.fields _ (Sources.get_mem hhas.decl) _ (Sources.field_mem hhas)

-- ========================================================== all close methods

/-- What holds while the stages of `c` get their close methods: those that
had their turn are closed by a body that there was or by a reset, and the
others are as they were. -/
structure ClosedSoFar (c : Compilation) (done : List DependencyId)
    (c' : Compilation) : Prop where
  keeps : Keeps (HoldsBody c) c c'
  field : ∀ l, c'.sources.field l = c.sources.field l
  closed : ∀ n ∈ done, ∃ l, c'.progress n .close = .done l
    ∧ (l ∈ c.bodyLocations n ∨ ResetsSentinel c n (c'.sources.method l))
  waiting : ∀ n, n ∉ done → c'.graph.get n = c.graph.get n
    ∧ ∀ l, c.declared? n .close = some l →
      c'.sources.method l = c.sources.method l

/-- What resets a sentinel now did so at the start. -/
theorem ClosedSoFar.resetsSentinel {done : List DependencyId}
    (h : ClosedSoFar c done c')
    (hn : n ∉ done) {m : Method} (hm : ResetsSentinel c' n m) :
    ResetsSentinel c n m := by
  obtain ⟨s, f, hs, hconcrete, hf, hbody⟩ := hm
  obtain ⟨hget, hsame⟩ := h.waiting n hn
  rw [hget] at hs
  refine ⟨s, f, hs, ?_, hf, ?_⟩
  · unfold Stage.hasConcreteClose at hconcrete ⊢
    cases hl : s.declaredClose with
    | none => rfl
    | some l =>
        rw [hl, Option.any_some, hsame l ((declared?_eq hs).trans hl)]
          at hconcrete
        exact hconcrete
  · rw [hbody]
    unfold resetOf readOf initialOf
    rw [h.field, h.keeps.sources.name]

/-- A turn closes one stage and concerns no other. -/
theorem close_closes (hc : Analysis.Discovered c) {done : List DependencyId}
    (h : ClosedSoFar c done c') :
    Ensures (close n) c' fun _ c'' => ClosedSoFar c (done ++ [n]) c'' := by
  by_cases hn : n ∈ done
  · -- a stage that is closed already
    obtain ⟨l, hl, -⟩ := h.closed n hn
    intro l' c'' hrun
    rw [runOn_close_of_done hl] at hrun
    obtain ⟨-, rfl⟩ := Prod.mk.inj hrun
    refine ⟨h.keeps, h.field, List.forall_mem_append.2 ⟨h.closed, ?_⟩,
      fun m hm => ?_⟩
    · exact List.forall_mem_singleton.2 (h.closed n hn)
    · exact h.waiting m fun hmem => hm (List.mem_append_left _ hmem)
  obtain ⟨hget, hdeclared⟩ := h.waiting n hn
  have hnew : c'.progress n .close = .notStarted := by
    have hsame : c'.progress n .close = c.progress n .close := by
      unfold Compilation.progress
      rw [hget]
    rw [hsame, hc.unstarted]
  -- the bodies that there were, and the close methods of all other stages
  let K : Location → Prop := fun l => HoldsBody c l ∨ ∃ m,
    m ≠ n ∧ c'.Bound l m .close
  have hw₀ : Seated (HoldsBody c) c' := hc.seated.ofBodies.keeps h.keeps
  have hw : Seated K c' := by
    refine { hw₀ with bodies := fun l hl => ?_ }
    rcases hl with hl | ⟨m, -, hl⟩
    · exact hw₀.bodies l hl
    · exact ⟨m, .close, hl, rfl⟩
  have hK : ∀ l ∈ c'.declared? n .close,
      (c'.sources.method l).isAbstract = true → ¬ K l := by
    intro l hl habstract hKl
    rw [h.keeps.nodes.declared?] at hl
    rw [hdeclared l hl] at habstract
    rcases hKl with hbody | ⟨m, hm, hbound⟩
    · exact not_holdsBody_of_isAbstract hc.toPopulated hl habstract hbody
    · have hown : c'.Bound l n .close :=
        bound_of_declared hw₀ (h.keeps.nodes.declared?.trans hl)
      exact hm (hbound.unique hown).1
  have hothers : ∀ m, m ≠ n → Ensures (close n) c' fun _ c'' =>
      c''.graph.get m = c'.graph.get m :=
        fun m hm => (stable_get hm _).close rfl
  have hkeeps := close_keeps hw hK
  have hmakes := close_makes hw hnew
  have hfield := (stable_field (n := n) c.sources).close h.field
  intro l c'' hrun
  obtain ⟨hk, hl⟩ := hkeeps l c'' hrun
  have hmade := hmakes l c'' hrun
  refine ⟨h.keeps.trans (hk.weaken fun _ hl => Or.inl hl), hfield l c'' hrun,
    List.forall_mem_append.2 ⟨fun m hm => ?_, ?_⟩, fun m hm => ?_⟩
  · obtain ⟨lm, hlm, hbody⟩ := h.closed m hm
    have hne : m ≠ n := fun he => hn (he ▸ hm)
    have hkept :=
      hk.sources.kept lm (Or.inr ⟨m, hne, (hw.made m .close lm hlm).1⟩)
    exact ⟨lm, hk.done hlm, by rwa [hkept]⟩
  · rw [List.forall_mem_singleton]
    refine ⟨l, hl, hmade.imp (fun hbody => ?_) (h.resetsSentinel hn)⟩
    have hbody' : c.closeBody? n = some l := by
      unfold closeBody? at hbody ⊢
      rw [hnew, h.keeps.nodes.declared?] at hbody
      rw [hc.unstarted]
      cases hd : c.declared? n .close with
      | none => rwa [hd] at hbody
      | some ld =>
          rw [hd, Option.filter_some, hdeclared ld hd] at hbody
          rwa [Option.filter_some]
    exact mem_bodyLocations.2 (Or.inr hbody')
  · have hm' : m ∉ done ∧ m ≠ n := by simpa using hm
    obtain ⟨hgetm, hdeclaredm⟩ := h.waiting m hm'.1
    refine ⟨(hothers m hm'.2 l c'' hrun).trans hgetm, fun lm hlm => ?_⟩
    have hbound : c'.Bound lm m .close :=
      bound_of_declared hw₀ (h.keeps.nodes.declared?.trans hlm)
    exact (hk.sources.kept lm (Or.inr ⟨m, hm'.2, hbound⟩)).trans
      (hdeclaredm lm hlm)

/-- Once every stage has its close method, each body of a node is one that
was there before, unchanged, or a reset made for a stage. -/
theorem closeStages_bodies (hc : Analysis.Discovered c) :
    Ensures closeStages c fun _ c' =>
      (∀ l, c'.sources.field l = c.sources.field l)
      ∧ ∀ n, ∀ l ∈ c'.bodyLocations n,
        (l ∈ c.bodyLocations n ∧ c'.sources.method l = c.sources.method l)
          ∨ ResetsSentinel c n (c'.sources.method l) := by
  refine Ensures.mono (R := fun _ c' => _)
    ((closeStages_keeps hc.toPopulated).and (?_ : Ensures closeStages c
      fun _ c' => ClosedSoFar c c.graph.stages c')) ?_
  · unfold closeStages
    rw [ensures_bind, ensures_get]
    refine ensures_forM (I := ClosedSoFar c) (fun done n _ c' h => ?_) ?_
    · rw [ensures_bind]
      exact (close_closes hc h).mono fun _ c'' h' => ensures_pure.2 h'
    · exact ⟨.refl _ c, fun _ => rfl, nofun, fun _ _ => ⟨rfl, fun _ _ => rfl⟩⟩
  · rintro _ c' ⟨⟨hk, hclosed⟩, h⟩
    refine ⟨h.field, fun n l hl => ?_⟩
    have hthere : ∀ {l}, l ∈ c.bodyLocations n →
        l ∈ c.bodyLocations n ∧ c'.sources.method l = c.sources.method l :=
      fun hl => ⟨hl, hk.sources.kept _ ⟨n, hl⟩⟩
    rcases mem_bodyLocations.1 hl with hmember | hclose
    · rw [hk.memberBodies] at hmember
      exact Or.inl (hthere (mem_bodyLocations.2 (Or.inl hmember)))
    · rw [hclosed.closeBody?_eq] at hclose
      by_cases hn : n ∈ c.graph.stages
      · obtain ⟨made, hmade, hbody⟩ := h.closed n hn
        rw [hmade] at hclose
        obtain rfl := Option.some.inj hclose
        exact hbody.imp_left hthere
      · obtain ⟨hget, -⟩ := h.waiting n hn
        have hnew : c'.progress n .close = .notStarted := by
          have hsame : c'.progress n .close = c.progress n .close := by
            unfold Compilation.progress
            rw [hget]
          rw [hsame, hc.unstarted]
        rw [hnew] at hclose
        cases hclose

end Stagewise.Lifecycle
