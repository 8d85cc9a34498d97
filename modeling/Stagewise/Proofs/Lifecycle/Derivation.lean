/-
What the lifecycle of a stage is derived from.

A discovered stage has one source of its lifecycle: a sentinel, or else a
concrete predicate together with a concrete close method. A concrete method
stays concrete, whatever guards and members are added, so the stage never
lacks both (`Stage.Supplied`). The predicate, the close method and its
`doClose` variant ask for the sentinel only where a concrete method is
missing, and then it is there: none of them fails for want of an initialized
field.
-/
import Stagewise.Proofs.Lifecycle.Readiness
import Stagewise.Proofs.Lifecycle.Runs
import Stagewise.Proofs.Stage.Lifecycle

namespace Stagewise

/-- That a failure is no conflict about the lifecycle of a stage. -/
def Failure.NoConflict (e : Failure) : Prop :=
  ∀ stage detail, e ≠ .lifecycleConflict stage detail

-- ================================================================== supplied

/-- That a stage has a sentinel, or a concrete predicate and a concrete close
method. -/
def Stage.Supplied (s : Sources) (stage : Stage) : Prop :=
  stage.sentinel?.isSome = true
    ∨ stage.hasConcretePredicate s = true ∧ stage.hasConcreteClose s = true

theorem Stage.Sourced.supplied {s : Sources} {stage : Stage}
    (h : stage.Sourced s) :
    stage.Supplied s :=
  h.imp And.left And.right

/-- How far a member is made does not matter. -/
theorem Stage.Supplied.put {src : Sources} {s : Stage} {p : Progress Location}
    {a : Artifact} (h : s.Supplied src) : (s.put p a).Supplied src := by
  unfold Supplied
  rw [← isSome_sentinel?_unmade, unmade_put, isSome_sentinel?_unmade]
  cases a <;> exact h

namespace Lifecycle

open Compilation Step

variable {c c' : Compilation} {n : DependencyId} {s s' : Stage} {r : Role}

/-- A stage that is supplied when it is found is supplied ever after. -/
theorem supplied_evolves {leaf : DeclId} (h : Evolves c c')
    (hs : (c.graph.get n).stage? = some s) (hfound : s.Found c.sources leaf)
    (hsupplied : s.Supplied c.sources)
    (hs' : (c'.graph.get n).stage? = some s') :
    s'.Supplied c'.sources := by
  have hunmade := h.sameNodes.unmade_stage hs hs'
  have hpredicate : s'.declaredPredicate = s.declaredPredicate :=
    (congrArg Stage.declaredPredicate hunmade :)
  have hclose : s'.declaredClose = s.declaredClose :=
    (congrArg Stage.declaredClose hunmade :)
  rcases hsupplied with hsentinel | ⟨hp, hc⟩
  · left
    rw [← Stage.isSome_sentinel?_unmade, hunmade,
      Stage.isSome_sentinel?_unmade]
    exact hsentinel
  · right
    unfold Stage.hasConcretePredicate Stage.hasConcreteClose
    rw [hpredicate, hclose]
    exact ⟨any_concrete_evolves h (fun l hl => (hfound.predicate l hl).1) hp,
      any_concrete_evolves h (fun l hl => (hfound.close l hl).1) hc⟩

-- ================================================================== requests

theorem sentinelParts_noConflict
    {Q : Expr × Expr × TypeRef → Compilation → Prop}
    (hs : (c.graph.get n).stage? = some s)
    (hsentinel : s.sentinel?.isSome = true)
    (hQ : ∀ p, Q p c) : Outcome (sentinelParts n) c Failure.NoConflict Q := by
  refine outcome_sentinelParts (fun hnone => nomatch hs.symm.trans hnone)
    (fun s' hs' hmissing => ?_) fun _ _ _ _ => hQ _
  obtain rfl := Option.some.inj (hs.symm.trans hs')
  rw [hmissing] at hsentinel
  cases hsentinel

theorem addMethod_noConflict {m : Method} :
    Outcome (addMethod n m r) c Failure.NoConflict fun _ _ => True := by
  refine outcome_addMethod (fun _ _ => trivial) fun e he => ?_
  unfold Bindings.bindMethod at he
  split at he
  · obtain rfl := Except.error.inj he
    exact fun _ _ h => by cases h
  · cases he

theorem makePredicate_noConflict (hs : (c.graph.get n).stage? = some s)
    (h : s.Supplied c.sources) :
    Outcome (makePredicate n s) c Failure.NoConflict fun _ _ => True := by
  have hsentinel (hconcrete : s.hasConcretePredicate c.sources ≠ true) :
      s.sentinel?.isSome = true :=
    h.resolve_right fun hboth => hconcrete hboth.1
  refine outcome_makeUnlessDeclared (fun _ _ _ => trivial)
    (fun l _ hconcrete => ?_)
    fun hnone => ?_
  · have hconcrete := Bool.eq_false_iff.1 hconcrete
    exact outcome_bind.2 (sentinelParts_noConflict hs (hsentinel hconcrete)
      fun _ => trivial)
  · have hconcrete : s.hasConcretePredicate c.sources ≠ true := by
      unfold Stage.hasConcretePredicate
      rw [hnone]
      exact Bool.false_ne_true
    rw [outcome_bind]
    refine sentinelParts_noConflict hs (hsentinel hconcrete) fun p => ?_
    rw [outcome_bind, outcome_get]
    exact addMethod_noConflict

theorem makeClose_noConflict (hs : (c.graph.get n).stage? = some s)
    (h : s.Supplied c.sources) :
    Outcome (makeClose n s) c Failure.NoConflict fun _ _ => True := by
  have hreset (hconcrete : s.hasConcreteClose c.sources ≠ true)
      {Q : Block → Compilation → Prop}
      (hQ : ∀ body, Q body c) :
      Outcome (resetBody n) c Failure.NoConflict Q := by
    have hsentinel := h.resolve_right fun hboth => hconcrete hboth.2
    unfold resetBody
    exact outcome_bind.2 (sentinelParts_noConflict hs hsentinel fun _ => hQ _)
  refine outcome_makeUnlessDeclared (fun _ _ _ => trivial)
    (fun l _ hconcrete => ?_)
    fun hnone => ?_
  · exact outcome_bind.2 (hreset (Bool.eq_false_iff.1 hconcrete)
      fun _ => trivial)
  · have hconcrete : s.hasConcreteClose c.sources ≠ true := by
      unfold Stage.hasConcreteClose
      rw [hnone]
      exact Bool.false_ne_true
    simp only [outcome_bind, outcome_get]
    refine hreset hconcrete fun body => ?_
    exact addMethod_noConflict.leave fun _ _ _ => trivial

/-- A supplied stage's requests meet no conflict about its lifecycle. -/
theorem predicate_noConflict (hs : (c.graph.get n).stage? = some s)
    (h : s.Supplied c.sources) :
    Outcome (predicate n) c Failure.NoConflict fun _ _ => True := by
  refine outcome_request requests_predicate
    (fun hnone => nomatch hs.symm.trans hnone)
    (fun _ _ _ _ _ h => by cases h) (fun _ _ => trivial) fun s' hs' _ => ?_
  obtain rfl := Option.some.inj (hs.symm.trans hs')
  exact (makePredicate_noConflict (stage?_put hs) h.put).leave fun _ _ _ =>
    trivial

theorem close_noConflict (hs : (c.graph.get n).stage? = some s)
    (h : s.Supplied c.sources) :
    Outcome (close n) c Failure.NoConflict fun _ _ => True := by
  refine outcome_request requests_close
    (fun hnone => nomatch hs.symm.trans hnone)
    (fun _ _ _ _ _ h => by cases h) (fun _ _ => trivial) fun s' hs' _ => ?_
  obtain rfl := Option.some.inj (hs.symm.trans hs')
  exact (makeClose_noConflict (stage?_put hs) h.put).leave fun _ _ _ => trivial

theorem doClose_noConflict (hs : (c.graph.get n).stage? = some s)
    (h : s.Supplied c.sources) :
    Outcome (doClose n) c Failure.NoConflict fun _ _ => True := by
  refine outcome_request requests_doClose
    (fun hnone => nomatch hs.symm.trans hnone)
    (fun _ _ _ _ _ h => by cases h) (fun _ _ => trivial) fun s' hs' _ => ?_
  obtain rfl := Option.some.inj (hs.symm.trans hs')
  unfold makeDoClose
  rw [outcome_bind]
  refine (close_noConflict (stage?_put hs) h.put).leave fun _ _ _ => ?_
  simp only [outcome_bind, outcome_get]
  exact addMethod_noConflict.leave fun _ _ _ => trivial

-- ================================================================= discovery

open Stage (OfScan Whole)

/-- The stage of a field is found exactly when its declarations are whole,
unless a scan fails: one initialized field belongs to it and the first
predicate in the chain is not concrete, or there are none or several such
fields, and the first predicate and the first close method are concrete. Else
the lifecycle is in conflict.

The stage has all its fields in one link, a sentinel exactly when one field
is initialized, at the place of that field, a predicate and a close method
of the right signatures where they are declared, and no two init methods
that clash. So wherever it is put in a compilation of these sources, and
whatever guards and members are added then, the requests for its predicate,
its close method and its `doClose` variant never meet a conflict about its
lifecycle for want of an initialized field. -/
theorem discover_iff_whole {sources : Sources} {leaf : DeclId}
    {seed : Location}
    (hscan : ∀ e, Stage.discover sources leaf seed = .error e → ¬ OfScan e) :
    let name := (sources.field seed).stageName
    ((∃ stage, Stage.discover sources leaf seed = .ok stage)
      ↔ Whole sources leaf name)
      ∧ (¬ Whole sources leaf name → ∃ detail,
          Stage.discover sources leaf seed
            = .error (.lifecycleConflict name detail))
      ∧ ∀ stage, Stage.discover sources leaf seed = .ok stage →
          stage.name = name ∧ stage.Complete sources leaf
            ∧ ∀ (c c' : Compilation) (n : DependencyId), c.sources = sources →
                (c.graph.get n).stage? = some stage → Evolves c c' →
                  ∀ request ∈ [predicate, close, doClose], ∀ e,
                    ((request n).runOn c').1 = .error e → e.NoConflict := by
  intro name
  rcases Stage.discover_cases sources leaf seed with
    ⟨e, he, hofScan⟩ | ⟨⟨stage, hok, hname, hcomplete, hsourced⟩, hwhole⟩
      | ⟨⟨detail, he⟩, hnot⟩
  · exact absurd hofScan (hscan e he)
  · refine ⟨iff_of_true ⟨stage, hok⟩ hwhole,
      fun hnot => absurd hwhole hnot, ?_⟩
    intro stage' hok'
    obtain rfl := Except.ok.inj (hok.symm.trans hok')
    refine ⟨hname, hcomplete, ?_⟩
    rintro c c' n rfl hs hevolves request hrequest e he
    obtain ⟨s', hs', -⟩ := hevolves.sameNodes.exists_stage hs
    have hsupplied : s'.Supplied c'.sources :=
      supplied_evolves hevolves hs (Stage.found_discover hok)
        hsourced.supplied hs'
    simp only [List.mem_cons, List.not_mem_nil, or_false] at hrequest
    rcases hrequest with rfl | rfl | rfl
    · exact (predicate_noConflict hs' hsupplied).fails he
    · exact (close_noConflict hs' hsupplied).fails he
    · exact (doClose_noConflict hs' hsupplied).fails he
  · have hfails : ¬ ∃ stage, Stage.discover sources leaf seed = .ok stage := by
      rintro ⟨stage, hok⟩
      cases hok.symm.trans he
    exact ⟨iff_of_false hfails hnot, fun _ => ⟨detail, he⟩,
      fun stage hok => absurd ⟨stage, hok⟩ hfails⟩

/-- A type with a stage `Count` of one initialized field, with a predicate and
a close method that are declared without bodies. -/
def countSources : Sources :=
  let count : Field :=
    { name := "count", type := .int, init := some (.literal (.int (-1))) }
  let declared (name : String) (returns : TypeRef) : Method :=
    (Method.simple name returns).toAbstract
  let a : TypeDecl :=
    { TypeDecl.participating "A" with
      fields := [count], methods :=
        [declared "countInit" .boolean, declared "closeCount" .void] }
  { decls := [a.assignIdentities] }

/-- The stage is found with its field as the sentinel, and its close method
is made from it. -/
theorem discover_count :
    ∃ stage, Stage.discover countSources ⟨0⟩ ⟨⟨0⟩, 0⟩ = .ok stage
    ∧ stage.initialized = .sentinel 0
    ∧ stage.hasConcreteClose countSources = false
    ∧ ∀ e, ((close ⟨0⟩).runOn
        { sources := countSources, tree := {}
          graph := { nodes := [.ofStage stage] } }).1 = .error e →
      e.NoConflict := by
  have hfound :
      ((Stage.discover countSources ⟨0⟩ ⟨⟨0⟩, 0⟩).toOption.map fun stage =>
        (stage.initialized, stage.hasConcreteClose countSources))
            = some (.sentinel 0, false) := by
    decide +kernel
  obtain ⟨stage, hstage, hparts⟩ := Option.map_eq_some_iff.1 hfound
  obtain ⟨hsentinel, hclose⟩ := Prod.mk.inj hparts
  have hok := eq_ok_of_toOption hstage
  have hscan : ∀ e, Stage.discover countSources ⟨0⟩ ⟨⟨0⟩, 0⟩ = .error e →
      ¬ OfScan e :=
    fun e he => nomatch hok.symm.trans he
  obtain ⟨-, -, hall⟩ := discover_iff_whole hscan
  obtain ⟨-, -, hrequests⟩ := hall stage hok
  refine ⟨stage, hok, hsentinel, hclose, ?_⟩
  exact hrequests
    { sources := countSources, tree := {},
      graph := { nodes := [.ofStage stage] } }
    _ ⟨0⟩ rfl rfl (.refl _) close (by simp)

end Lifecycle

end Stagewise
