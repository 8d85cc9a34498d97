/-
What the preparation of all nodes starts from.

After an analysis every stage without a concrete predicate has a sentinel
to make one from (`Stage.Supported`), and no close-dependants method is
there. The guarding of the bodies then makes every close method, leaves
nothing in progress, and makes no close-dependants method either
(`guardNodes_ready`).
-/
import Stagewise.Proofs.Analysis.Frames
import Stagewise.Proofs.Lifecycle.Evolving
import Stagewise.Proofs.Lifecycle.Prepared
import Stagewise.Proofs.Lifecycle.Reentry

namespace Stagewise

-- ================================================================= supported

/-- That a stage without a concrete predicate has a sentinel. -/
def Stage.Supported (s : Sources) (stage : Stage) : Prop :=
  stage.hasConcretePredicate s = false → stage.sentinel?.isSome = true

namespace Stage

variable {s : Sources} {leaf : DeclId} {seed l : Location} {stage : Stage}

theorem supported_of_validate (h : stage.validate s = .ok ()) :
    stage.Supported s := by
  intro hconcrete
  unfold validate at h
  cases hsentinel : stage.sentinel?.isSome with
  | true => rfl
  | false =>
      rw [hsentinel, hconcrete] at h
      cases hp : stage.declaredPredicate.isNone <;> cases hc :
        stage.declaredClose.isNone
        <;> simp [hp, hc] at h

/-- A stage that is found is supported. -/
theorem supported_discover (h : discover s leaf seed = .ok stage) :
    stage.Supported s := by
  obtain ⟨_, _, -, -, hvalid, -⟩ := discover_scans h
  exact supported_of_validate hvalid

/-- A method clashes with itself. -/
theorem clashes_self (m : Method) : clashes s m m = true := by
  unfold clashes
  rw [beq_self_eq_true, beq_self_eq_true, Bool.true_and, Bool.true_and,
    List.all_eq_true]
  rintro ⟨p, q⟩ hp
  obtain ⟨i, hi⟩ := List.mem_iff_getElem?.1 hp
  obtain ⟨h₁, h₂⟩ := List.getElem?_zip_eq_some.1 hi
  obtain rfl : p = q := Option.some.inj (h₁.symm.trans h₂)
  have hsame : s.isSubtype p.type p.type = true := by
    unfold Sources.isSubtype
    rw [beq_self_eq_true, Bool.true_or]
  dsimp only
  rw [hsame, Bool.true_or, Bool.true_or]

/-- What the scans see to in a stage: its predicate is named as one, its init
methods differ, and an accessor is declared without a body. -/
structure Scanned (s : Sources) (stage : Stage) : Prop where
  predicate : ∀ l ∈ stage.declaredPredicate,
    (s.method l).name = Convention.predicateName stage.name
  inits : stage.initMethods.Nodup
  accessors : ∀ f ∈ stage.fields, ∀ l ∈ f.declaredAccessor,
    (s.method l).isAbstract = true

/-- What the discovery sees to in a stage, apart from where its members
are. -/
structure Proper (s : Sources) (stage : Stage) :
    Prop extends Scanned s stage where
  supported : stage.Supported s

theorem isAbstract_of_declaredAccessor? {field l : Location}
    (h : declaredAccessor? s field = some l) :
    (s.method l).isAbstract = true := by
  obtain ⟨i, hi, rfl⟩ := Option.map_eq_some_iff.1 h
  obtain ⟨hlt, hmethod, -⟩ := List.findIdx?_eq_some_iff_getElem.1 hi
  have hget : s.method ⟨field.decl, i⟩ = (s.get field.decl).methods[i] := by
    unfold Sources.method
    rw [List.getD_eq_getElem?_getD, List.getElem?_eq_getElem hlt]
    rfl
  rw [hget]
  exact (Bool.and_eq_true_iff.1 hmethod).2

/-- An init method that is met again would clash with itself. -/
theorem Scanned.scanMethod {stage' : Stage} (h : stage.Scanned s)
    (hscan : scanMethod s stage l = .ok stage') : stage'.Scanned s := by
  rcases scanMethod_cases hscan with
    ⟨⟨hname, -⟩, rfl⟩ | ⟨hclash, rfl⟩ | ⟨-, rfl⟩ | ⟨-, rfl⟩ | rfl
  · exact { h with predicate := fun l' hl' => Option.some.inj hl' ▸ hname }
  · have hnew : l ∉ stage.initMethods := fun hmem =>
      List.any_eq_false.1 hclash l hmem (clashes_self _)
    have hinits : (stage.initMethods ++ [l]).Nodup :=
      List.nodup_append.2 ⟨h.inits, List.nodup_singleton l, fun a ha b hb he =>
        hnew (List.mem_singleton.1 hb ▸ he ▸ ha)⟩
    exact { h with inits := hinits }
  · exact { h with }
  · exact { h with }
  · exact h

theorem Scanned.scanField {stage' : Stage} (h : stage.Scanned s)
    (hscan : scanField s stage l = .ok stage') : stage'.Scanned s := by
  rcases scanField_cases hscan with ⟨-, _, _, rfl⟩ | ⟨-, rfl⟩
  · exact { h with
      accessors :=
        List.forall_mem_append.2 ⟨h.accessors, List.forall_mem_singleton.2
          fun l' hl' => isAbstract_of_declaredAccessor? hl'⟩ }
  · exact h

/-- A stage that is found is proper. -/
theorem proper_discover (h : discover s leaf seed = .ok stage) :
    stage.Proper s := by
  have hsupported := supported_discover h
  obtain ⟨stage₁, stage₂, hmethods, hfields, -, rfl⟩ := discover_scans h
  have h₀ : Scanned s { name := (s.field seed).stageName, decl := leaf } :=
    ⟨nofun, List.nodup_nil, nofun⟩
  have h₁ : stage₁.Scanned s := foldlM_invariant (I := Scanned s)
    (fun _ _ _ _ hI hscan => hI.scanMethod hscan) _ _ h₀ hmethods
  have h₂ : stage₂.Scanned s := foldlM_invariant (I := Scanned s)
    (fun _ _ _ _ hI hscan => hI.scanField hscan) _ _ h₁ hfields
  exact { h₂ with supported := hsupported }

theorem isSome_sentinel?_unmade (stage : Stage) :
    stage.unmade.sentinel?.isSome = stage.sentinel?.isSome := by
  have hinitialized : stage.unmade.initialized = stage.initialized := rfl
  unfold sentinel?
  rw [hinitialized]
  cases stage.initialized with
  | sentinel i =>
      show ((stage.fields.map StageField.unmade)[i]?).isSome = _
      rw [List.getElem?_map, Option.isSome_map]
  | noField | manyWithPredicate => rfl

end Stage

namespace Lifecycle

open Compilation Step

variable {c c' c₀ : Compilation} {n : DependencyId} {a : Artifact}
variable {l : Location}

-- =========================================================== before preparing

/-- What the preparation starts from: every stage is closed and supported,
nothing is in progress, and no close-dependants method is made. -/
structure Ready (c : Compilation) : Prop where
  seated : Seated (fun _ => False) c
  closed : Closed c
  idle : c.Idle
  acyclic : c.graph.Acyclic
  unclosing : ∀ n, c.closing n = .notStarted
  supported : ∀ n s, (c.graph.get n).stage? = some s → s.Supported c.sources

/-- What is left of `Ready` before the guarding. -/
structure Sound (c : Compilation) : Prop where
  unclosing : ∀ n, c.closing n = .notStarted
  proper : ∀ n s, (c.graph.get n).stage? = some s → s.Proper c.sources

theorem Sound.adds {d : DependencyNode} (h : Sound c)
    (hadds : Analysis.Adds d c c') (hnew : d.closeDependants = .notStarted)
    (hstage : ∀ s, d.stage? = some s → s.Proper c.sources) : Sound c' := by
  obtain ⟨b, t, rfl, -⟩ := hadds
  refine ⟨fun n => ?_, fun n s hs => ?_⟩
  · unfold Compilation.closing
    rw [Analysis.get_addNode]
    split
    · exact hnew
    · exact h.unclosing n
  · rw [Analysis.get_addNode] at hs
    split at hs
    · exact hstage s hs
    · exact h.proper n s hs

theorem Sound.sameMembers (h : Sound c) (hsame : Analysis.SameMembers c c') :
    Sound c' := by
  have hget : c'.graph.get = c.graph.get := by
    funext n
    unfold DependencyGraph.get
    rw [hsame.nodes]
  refine ⟨fun n => ?_, ?_⟩
  · unfold Compilation.closing
    rw [hget]
    exact h.unclosing n
  · rw [hget, hsame.sources]
    exact h.proper

/-- The analysis finds proper stages. -/
theorem discoverNodes_sound (h : Sound c) :
    Ensures Analysis.discoverNodes c fun _ c' => Sound c' := by
  refine (Analysis.ensures_discoverNodes h fun c₁ c₂ h₁ hs _ hfinds => ?_).mono
    fun _ _ h' => h'.1
  cases hfinds with
  | stage _ _ hstage hadds =>
      refine h₁.adds hadds rfl fun s hs' => ?_
      obtain rfl := Option.some.inj hs'
      rw [hs]
      exact Stage.proper_discover hstage
  | group _ _ hadds =>
      exact h₁.adds hadds rfl fun _ hs' =>
        absurd hs' Analysis.not_stage?_ofGroup

theorem analyse_sound (hgraph : c.graph = {}) :
    Ensures analyse c fun _ c' => Sound c' ∧ c'.graph.Acyclic := by
  have hget : ∀ n,
      c.graph.get n = ⟨"", ⟨0⟩, .group { decl := ⟨0⟩ }, .notStarted⟩ :=
    fun _ => hgraph ▸ Analysis.get_empty
  have hsound : Sound c := by
    refine ⟨fun n => ?_, fun n s hs => ?_⟩
    · unfold Compilation.closing
      rw [hget]
    · rw [hget] at hs
      cases hs
  unfold analyse Stagewise.checkWrites
  simp only [ensures_bind, ensures_get, ensures_ofExcept, ensures_pure]
  refine Analysis.bindReferences_sameMembers.mono fun _ c₁ hsame₁ => ?_
  refine (discoverNodes_sound (hsound.sameMembers hsame₁)).mono
    fun _ c₂ h₂ _ _ => ?_
  refine Analysis.linkNodes_sameMembers.mono fun _ c₃ hsame₃ => ?_
  refine (Analysis.placeNodes_sameMembers.and Analysis.placeNodes_acyclic).mono
    ?_
  rintro _ c₄ ⟨hsame₄, hgraph₄, hacyclic⟩
  exact ⟨(h₂.sameMembers hsame₃).sameMembers hsame₄, hgraph₄ ▸ hacyclic⟩

/-- A concrete method that a stage declares is concrete still. -/
theorem any_concrete_evolves (h : Evolves c c') {declared : Option Location}
    (hhas : ∀ l ∈ declared, c.sources.Has l)
    (hany : (declared.any fun l => !(c.sources.method l).isAbstract) = true) :
    (declared.any fun l => !(c'.sources.method l).isAbstract) = true := by
  cases declared with
  | none => cases hany
  | some l =>
      simp only [Option.any_some, Bool.not_eq_true'] at hany ⊢
      exact h.isAbstract (hhas l rfl) hany

/-- A stage that is supported stays so. -/
theorem supported_evolves (h : Evolves c c')
    (hdeclared : ∀ n a, ∀ l ∈ c.declared? n a, c.sources.Has l)
    (hc : ∀ n s, (c.graph.get n).stage? = some s → s.Supported c.sources) :
    ∀ n s, (c'.graph.get n).stage? = some s → s.Supported c'.sources := by
  intro n s' hs' hconcrete
  obtain ⟨s, hs⟩ := h.sameNodes.stage_of_stage hs'
  have hunmade := h.sameNodes.unmade_stage hs hs'
  have hpredicate : s'.declaredPredicate = s.declaredPredicate :=
    (congrArg Stage.declaredPredicate hunmade :)
  rw [← Stage.isSome_sentinel?_unmade, hunmade, Stage.isSome_sentinel?_unmade]
  refine hc n s hs (Bool.eq_false_iff.2 fun hany => ?_)
  have hstill :
      (s.declaredPredicate.any fun l => !(c'.sources.method l).isAbstract)
      = true :=
    any_concrete_evolves h (fun l hl => hdeclared n .predicate l
      ((declared?_eq hs).trans hl)) hany
  rw [← hpredicate] at hstill
  cases hconcrete.symm.trans hstill

-- ------------------------------------------------------------------- guarding

/-- What holds once every stage has its close method, and withstands the
requests of guards and another body of one method, withstands the guarding of
all bodies. -/
theorem guardNodes_maintains {I : Compilation → Prop}
    (hstages : Ensures closeStages c fun _ c' => I c')
    (haccessor : ∀ n field c, I c →
      Ensures (accessor n field) c fun _ c' => I c')
    (hguarded : ∀ n method c, I c →
      Ensures (guarded n method) c fun _ c' => I c')
    (hbody : ∀ c l body, I c → I (withBody c l body)) :
    Ensures guardNodes c fun _ c' => I c' := by
  have hexpr : ∀ n e c r, I c →
      Ensures ((guardExpr n e).run r) c fun _ c' => I c' :=
    fun n e c r hc => ensures_guardExpr hc (haccessor · · c hc)
      (hguarded · · c hc)
  refine ensures_guardNodes hstages fun n c₁ r h₁ => ensures_guardNode h₁
    fun l _ c₂ r h₂ => ?_
  exact ensures_guardBody (hexpr n) h₂ (hbody c₂ l none h₂) fun c' body hc' =>
    hbody c' l _ hc'

/-- Another body of one method keeps what there is. -/
theorem later_withBody {body : Option Block} :
    Later c (withBody c l body) := by
  by_cases hl : c.sources.Has l
  · exact .ofSources (.modifyMethod (fun _ => rfl) hl id)
  · unfold withBody
    rw [Sources.modifyMethod_of_not_has hl]
    exact .refl _ c

/-- Guarding keeps what there is, and every stage has its close method then. -/
theorem guardNodes_closed (h : Analysis.Populated c) :
    Ensures guardNodes c fun _ c' => Later c c' ∧ Closed c' := by
  have hkeeps : ∀ {c₁ c₂}, Later c c₁ ∧ Closed c₁ → Later c₁ c₂ → Later c c₂
      ∧ Closed c₂ :=
    fun h₁ hk => ⟨h₁.1.trans hk, h₁.2.keeps hk⟩
  refine guardNodes_maintains ?_ (fun n field c₁ h₁ => ?_)
    (fun n method c₁ h₁ => ?_)
    fun c₁ l body h₁ => hkeeps h₁ later_withBody
  · exact (closeStages_keeps h).mono fun _ _ hclosed =>
      ⟨hclosed.1.later, hclosed.2⟩
  · exact (accessor_keeps (h.seated.keeps h₁.1)).mono fun _ _ hk =>
      hkeeps h₁ hk.1
  · exact (guarded_keeps (h.seated.keeps h₁.1)).mono fun _ _ hk =>
      hkeeps h₁ hk.1

/-- Guarding leaves nothing in progress and makes no close-dependants
method. -/
theorem guardNodes_rests (hc : c.Idle) :
    Ensures guardNodes c fun _ c' => Rests c c' ∧ c'.closing = c.closing := by
  refine guardNodes_maintains (ensures_closeStages ⟨.refl c, rfl⟩ ?_) ?_ ?_
    fun _ _ _ h => ?_
  · rintro n c₁ ⟨h₁, hclosing⟩
    have hcalm := close_calm ((h₁.idle hc).progress n .close)
    exact (hcalm.ensures.and ((stable_closing c.closing).close hclosing)).mono
      fun _ _ h => ⟨h₁.trans h.1, h.2⟩
  · rintro n field c₁ ⟨h₁, hclosing⟩
    have hcalm : Calm (accessor n field) c₁ := accessor_calm
      (fun i => (h₁.idle hc).progress n (.accessor i))
      ((h₁.idle hc).progress n .predicate)
    exact (hcalm.ensures.and
      ((stable_closing c.closing).accessor hclosing field)).mono
      fun _ _ h => ⟨h₁.trans h.1, h.2⟩
  · rintro n method c₁ ⟨h₁, hclosing⟩
    have hcalm : Calm (guarded n method) c₁ := guarded_calm
      (fun i => (h₁.idle hc).progress n (.guarded i))
      ((h₁.idle hc).progress n .predicate)
    exact (hcalm.ensures.and
      ((stable_closing c.closing).guarded hclosing method)).mono
      fun _ _ h => ⟨h₁.trans h.1, h.2⟩
  · exact ⟨h.1.trans (.of_graph rfl), h.2⟩

/-- After an analysis nothing is in progress. -/
theorem Sound.idle (h : Sound c) (hpopulated : Analysis.Populated c) :
    c.Idle := by
  refine ⟨fun n a hp => ?_, fun n hn => ?_⟩
  · cases (hpopulated.unstarted n a).symm.trans hp
  · cases (h.unclosing n).symm.trans hn

/-- After an analysis and the guarding all is ready. -/
theorem guardNodes_ready (hpopulated : Analysis.Populated c) (hsound : Sound c)
    (hacyclic : c.graph.Acyclic) :
    Ensures guardNodes c fun _ c' => Ready c' := by
  have hidle : c.Idle := hsound.idle hpopulated
  refine ((guardNodes_closed hpopulated).and
    (guardNodes_evolves.and (guardNodes_rests hidle))).mono ?_
  rintro _ c' ⟨⟨hlater, hclosed⟩, hevolves, hrests, hclosing⟩
  refine ⟨hpopulated.seated.keeps hlater, hclosed, hrests.idle hidle,
    hrests.shape.links.acyclic hacyclic, fun n => ?_, ?_⟩
  · rw [hclosing]
    exact hsound.unclosing n
  · exact supported_evolves hevolves hpopulated.seated.declared
      fun n s hs => (hsound.proper n s hs).supported

end Lifecycle

end Stagewise
