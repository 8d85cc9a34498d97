/-
The bodies of a node, and which they are once every stage has its close
method.

# Before and after

As long as a stage has no close method made, a declared one counts if it is
concrete; afterwards the made one counts. Making all close methods leaves
every body that was there as it was (`closeStages_keeps`).

# What is settled

Once every stage has its close method, making other members neither adds a
body to a node nor takes one away (`Closed.bodyLocations_eq`).
-/
import Stagewise.Lifecycle.Guards
import Stagewise.Proofs.Analysis.Discovery
import Stagewise.Proofs.Lifecycle.Members

namespace Stagewise

/-- The bodies of a node apart from that of its close method. -/
def DependencyNode.memberBodies (d : DependencyNode) : List Location :=
  match d.kind with
  | .stage s => s.initMethods ++ s.methods.map StageMethod.location
  | .group g => g.methods

namespace DependencyNode

variable {d : DependencyNode} {l : Location}

theorem memberBodies_unmade : d.unmade.memberBodies = d.memberBodies := by
  unfold unmade mapStage memberBodies
  cases h : d.kind with
  | stage s =>
      simp only [Stage.unmade, List.map_map]
      rfl
  | group g => simp only [h]

/-- These are members that hold bodies and are not close methods. -/
theorem mem_members_of_mem_memberBodies (h : l ∈ d.memberBodies) :
    ∃ r, (l, r) ∈ d.members ∧ r ≠ .close ∧ r.isBody = true := by
  unfold memberBodies at h
  unfold members
  cases hd : d.kind with
  | group g =>
      rw [hd] at h
      exact ⟨.grouped, List.mem_map_of_mem h, nofun, rfl⟩
  | stage s =>
      rw [hd] at h
      rcases List.mem_append.1 h with hinit | hmethod
      · exact ⟨.init, by simpa using hinit, nofun, rfl⟩
      · exact ⟨.stageMethod, by simpa using hmethod, nofun, rfl⟩

end DependencyNode

namespace Compilation

variable {K : Location → Prop} {c c' : Compilation} {n m : DependencyId}
variable {l : Location}

-- ================================================================== bodies

/-- The close method among the bodies of a node, if there is one. -/
def closeBody? (c : Compilation) (n : DependencyId) : Option Location :=
  (c.progress n .close).value?.orElse fun _ =>
    (c.declared? n .close).filter fun l => !(c.sources.method l).isAbstract

theorem bodyLocations_eq (c : Compilation) (n : DependencyId) :
    c.bodyLocations n = (c.graph.get n).memberBodies
      ++ (c.closeBody? n).toList := by
  unfold bodyLocations closeBody? progress declared?
    DependencyNode.memberBodies DependencyNode.stage?
  cases (c.graph.get n).kind with
  | group g => exact (List.append_nil _).symm
  | stage s => rfl

theorem mem_bodyLocations : l ∈ c.bodyLocations n ↔
    l ∈ (c.graph.get n).memberBodies ∨ c.closeBody? n = some l := by
  rw [bodyLocations_eq, List.mem_append, Option.mem_toList]

/-- A handle without a node has no bodies. -/
theorem mem_ids_of_mem_bodyLocations (h : l ∈ c.bodyLocations n) :
    n ∈ c.graph.ids := by
  rw [DependencyGraph.mem_ids]
  rcases Nat.lt_or_ge n.index c.graph.nodes.length with hn | hn
  · exact hn
  · unfold bodyLocations DependencyGraph.get at h
    rw [List.getD_eq_getElem?_getD, List.getElem?_eq_none hn] at h
    cases h

theorem bound_of_closeBody? (h : Seated K c) (hl : c.closeBody? n = some l) :
    c.Bound l n .close := by
  unfold closeBody? at hl
  cases hp : c.progress n .close with
  | done made =>
      rw [hp] at hl
      obtain rfl := Option.some.inj hl
      exact (h.made n .close _ hp).1
  | notStarted | inProgress =>
      rw [hp] at hl
      exact Lifecycle.bound_of_declared h (Option.filter_eq_some_iff.1 hl).1

/-- What is a body of a node is bound to it as one. -/
theorem Seated.bound_of_mem (h : Seated K c) (hl : l ∈ c.bodyLocations n) :
    ∃ r, c.Bound l n r ∧ r.isBody = true := by
  rcases mem_bodyLocations.1 hl with hl | hl
  · obtain ⟨r, hmem, -, hr⟩ :=
      DependencyNode.mem_members_of_mem_memberBodies hl
    exact ⟨r, h.members n (l, r) hmem, hr⟩
  · exact ⟨.close, bound_of_closeBody? h hl, rfl⟩

theorem bound_of_mem_bodyLocations (h : WellMade K c)
    (hl : l ∈ c.bodyLocations n) :
    ∃ r, c.Bound l n r ∧ r.isBody = true :=
  h.bound_of_mem hl

/-- A body belongs to one node. -/
theorem node_unique (h : Seated K c) (hn : l ∈ c.bodyLocations n)
    (hm : l ∈ c.bodyLocations m) : n = m := by
  obtain ⟨_, hn, -⟩ := h.bound_of_mem hn
  obtain ⟨_, hm, -⟩ := h.bound_of_mem hm
  exact (hn.unique hm).1

/-- That a location holds a body of a node. -/
def HoldsBody (c : Compilation) (l : Location) : Prop :=
  ∃ n, l ∈ c.bodyLocations n

/-- All bodies of nodes may be required to be kept. -/
theorem Seated.ofBodies (h : Seated K c) : Seated (HoldsBody c) c :=
  { h with bodies := fun _ ⟨n, hl⟩ =>
      let ⟨r, hb, hr⟩ := h.bound_of_mem hl
      ⟨n, r, hb, hr⟩ }

theorem WellMade.ofBodies (h : WellMade K c) : WellMade (HoldsBody c) c :=
  { h.toSeated.ofBodies with identified := h.identified }

theorem Keeps.memberBodies (h : Keeps K c c') (n : DependencyId) :
    (c'.graph.get n).memberBodies = (c.graph.get n).memberBodies := by
  rw [← DependencyNode.memberBodies_unmade, h.nodes,
    DependencyNode.memberBodies_unmade]

-- =============================================================== all closed

/-- That every stage has its close method. -/
def Closed (c : Compilation) : Prop :=
  ∀ n s, (c.graph.get n).stage? = some s → ∃ l, c.progress n .close = .done l

namespace Closed

/-- The close body of a closed stage is the made one. -/
theorem closeBody?_eq (h : Closed c) :
    c.closeBody? n = (c.progress n .close).value? := by
  unfold closeBody?
  cases hs : (c.graph.get n).stage? with
  | none => simp [progress, declared?, hs, Progress.value?]
  | some s =>
      obtain ⟨l, hl⟩ := h n s hs
      rw [hl]
      rfl

theorem keeps (h : Closed c) (hk : Keeps K c c') : Closed c' := by
  intro n s' hs'
  obtain ⟨s, hs⟩ := hk.nodes.stage_of_stage hs'
  obtain ⟨l, hl⟩ := h n s hs
  exact ⟨l, hk.done hl⟩

/-- Whatever is made later, a node has the same bodies. -/
theorem bodyLocations_eq (h : Closed c) (hk : Keeps K c c')
    (n : DependencyId) :
    c'.bodyLocations n = c.bodyLocations n := by
  have hvalue : (c'.progress n .close).value?
      = (c.progress n .close).value? := by
    cases hs : (c.graph.get n).stage? with
    | some s =>
        obtain ⟨l, hl⟩ := h n s hs
        rw [hl, hk.done hl]
    | none =>
        have hs' := hk.nodes.stage? n
        rw [hs, Option.map_none, Option.map_eq_none_iff] at hs'
        unfold progress
        rw [hs, hs']
  rw [Compilation.bodyLocations_eq, Compilation.bodyLocations_eq,
    hk.memberBodies, h.closeBody?_eq, (h.keeps hk).closeBody?_eq, hvalue]

end Closed

end Compilation

namespace Lifecycle

open Compilation Step

variable {c c' : Compilation} {n : DependencyId} {l : Location}

/-- A made close method is handed out again. -/
theorem runOn_close_of_done (h : c.progress n .close = .done l) :
    (close n).runOn c = (.ok l, c) := by
  obtain ⟨s, hs⟩ : ∃ s, (c.graph.get n).stage? = some s := by
    unfold progress at h
    cases hs : (c.graph.get n).stage? with
    | none => rw [hs] at h; cases h
    | some s => exact ⟨s, rfl⟩
  have hclose : s.close = .done l := (progress_eq hs).symm.trans h
  have hput := put_progress (c := c) (n := n) (a := .close) ⟨s, hs, trivial⟩
  rw [h] at hput
  have hstage : (Step.stage n).runOn c = (.ok s, c) := by
    simp [Step.stage, Compilation.stage, runOn_bind, hs]
  have hmodify : (modifyStage n fun s => { s with close := .done l }).runOn c
      = (.ok (), c) :=
    congrArg (Prod.mk (Except.ok ())) hput
  unfold close begin
  simp only [runOn_bind, hstage, runOn_get, hclose, Progress.start,
    runOn_ofExcept, hmodify, runOn_pure]

/-- A declared close method that is still abstract is nobody's body. -/
theorem not_holdsBody_of_isAbstract (h : Analysis.Populated c)
    (hl : c.declared? n .close = some l)
    (ha : (c.sources.method l).isAbstract = true) :
    ¬ HoldsBody c l := by
  intro hl
  obtain ⟨m, hm⟩ := hl
  have hclose : c.Bound l n .close := bound_of_declared h.seated hl
  rcases mem_bodyLocations.1 hm with hm | hm
  · obtain ⟨r, hmem, hr, -⟩ :=
      DependencyNode.mem_members_of_mem_memberBodies hm
    exact hr (hclose.unique (h.seated.members m (l, r) hmem)).2.symm
  · unfold closeBody? at hm
    rw [h.unstarted] at hm
    have hconcrete := (Option.filter_eq_some_iff.1 hm).2
    rw [ha] at hconcrete
    cases hconcrete

/-- Giving every stage its close method keeps all bodies. -/
theorem closeStages_keeps (h : Analysis.Populated c) :
    Ensures closeStages c fun _ c' => Keeps (HoldsBody c) c c'
      ∧ Closed c' := by
  have hw : Seated (HoldsBody c) c := h.seated.ofBodies
  unfold closeStages
  rw [ensures_bind, ensures_get]
  refine (ensures_forM (I := fun done c' => Keeps (HoldsBody c) c c' ∧
    ∀ n ∈ done, ∃ l, c'.progress n .close = .done l) ?_ ⟨.refl _ c,
      nofun⟩).mono ?_
  · intro done n _ c₁ hI
    obtain ⟨hk, hdone⟩ := hI
    rw [ensures_bind]
    refine (close_keeps (hw.keeps hk) fun l hl ha hbody => ?_).mono ?_
    · rw [hk.nodes.declared?] at hl
      rw [hk.sources.kept l hbody] at ha
      exact not_holdsBody_of_isAbstract h hl ha hbody
    · intro l c₂ ⟨hk', hl⟩
      refine ensures_pure.2 ⟨hk.trans hk', List.forall_mem_append.2 ⟨?_, ?_⟩⟩
      · intro m hm
        obtain ⟨l', hl'⟩ := hdone m hm
        exact ⟨l', hk'.done hl'⟩
      · exact List.forall_mem_singleton.2 ⟨l, hl⟩
  · intro _ c' hI
    obtain ⟨hk, hdone⟩ := hI
    refine ⟨hk, fun n s' hs' => hdone n ?_⟩
    obtain ⟨s, hs⟩ := hk.nodes.stage_of_stage hs'
    refine List.mem_filter.2 ⟨mem_ids_of_stage? hs, ?_⟩
    unfold DependencyNode.isStage
    rw [hs]
    rfl

/-- A body of a node is still one after all close methods are made. -/
theorem mem_bodyLocations_of_closed (h : Analysis.Populated c)
    (hk : Keeps K c c')
    (hclosed : Closed c') (hl : l ∈ c.bodyLocations n) :
    l ∈ c'.bodyLocations n := by
  rw [mem_bodyLocations] at hl ⊢
  refine hl.imp (fun hl => by rwa [hk.memberBodies]) fun hl => ?_
  unfold closeBody? at hl
  rw [h.unstarted] at hl
  have hdeclared : c.declared? n .close = some l :=
    (Option.filter_eq_some_iff.1 hl).1
  obtain ⟨s', hs', -⟩ := Option.bind_eq_some_iff.1
    ((hk.nodes.declared? (n := n) (a := .close)).trans hdeclared)
  obtain ⟨made, hmade⟩ := hclosed n s' hs'
  have hdecl := ((h.seated.keeps hk).made n .close made hmade).2 l
    (hk.nodes.declared?.trans hdeclared)
  rw [hclosed.closeBody?_eq, hmade, hdecl]
  rfl

end Lifecycle

end Stagewise
