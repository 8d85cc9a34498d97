/-
When the preparation of all nodes succeeds, after an analysis and the
guarding of the bodies.

# The statement

Nothing can go wrong but the binding of a member that is added: the
preparation fails with a duplicate binding or not at all, and it succeeds
exactly if the members that it adds are `Apart`, that is, bound by
identities of their own which nothing has already
(`prepareNodes_accepts`).

# The argument

The analysis has found a sentinel wherever no predicate can be taken as it
is, the guarding has left nothing in progress, and in an acyclic graph no
member is asked for while it is being made. So of all failures that the
requests may meet only that of a binding is left, and the record of the
bindings says when it is met.

# The refusal

Identities are made of names and parameter types, and the name of a method
group drops the parameter types of its methods. So two overloads that close
something below them are not apart (`prepareNodes_rejects_overloads`).
-/
import Stagewise.Proofs.Lifecycle.Underway

namespace Stagewise.Lifecycle

open Compilation Step

variable {c c' c₀ : Compilation} {n : DependencyId} {l : Location} {s : Stage}

-- ============================================================= the whole node

/-- Another body of one method. -/
theorem modifyBody_underway (h : Underway c₀ c) (f : Block → Block) :
    Outcome (modifyBody l f) c (Refuses c₀) fun _ c' =>
      Underway c₀ c' ∧ Later c c' := by
  refine outcome_modifySources.2 ?_
  have hk : Later c { c with sources := c.sources.modifyMethod l fun m =>
      { m with body := some (f m.bodyOrEmpty) } } := by
    by_cases hl : c.sources.Has l
    · exact .ofSources (.modifyMethod (fun _ => rfl) hl id)
    · rw [Sources.modifyMethod_of_not_has hl]
      exact .refl _ c
  refine ⟨h.after hk (.change (.body fun body => f (body.getD []))) rfl ?_, hk⟩
  exact h.recorded.congr fun _ => counted_of_graph (by rfl)

theorem closeDependantsAfterInit_underway (h : Underway c₀ c)
    {predicate close init : Location} :
    Outcome (closeDependantsAfterInit n predicate close init) c
      (Refuses c₀) fun _ c' =>
      Underway c₀ c' ∧ Later c c' := by
  unfold closeDependantsAfterInit
  simp only [outcome_bind, outcome_get, outcome_call]
  exact modifyBody_underway h _

theorem closeDependantsFirst_underway (h : Underway c₀ c)
    (hs : (c.graph.get n).stage? = some s) {predicate close : Location}
    {dependants : Option Location} :
    Outcome (closeDependantsFirst n predicate close dependants) c
      (Refuses c₀) fun _ c' =>
      Underway c₀ c' ∧ Later c c' := by
  refine outcome_closeDependantsFirst ⟨h, .refl _ c⟩
    (fun hnone => (Option.some_ne_none _ (hs.symm.trans hnone)).elim)
    fun d _ s' _ => ?_
  refine Outcome.leave
    (outcome_forM (I := fun _ c' => Underway c₀ c' ∧ Later c c') ?_
      ⟨h, .refl _ c⟩) ?_
  · rintro _ init _ _ c₁ ⟨h₁, hk₁⟩
    exact (closeDependantsAfterInit_underway h₁).leave fun _ _ h₂ =>
      ⟨h₂.1, hk₁.trans h₂.2⟩
  · rintro _ c₁ ⟨h₁, hk₁⟩
    exact (modifyBody_underway h₁ _).leave fun _ _ h₂ => ⟨h₂.1, hk₁.trans h₂.2⟩

/-- The last part of preparing a stage. -/
theorem leaveAndAccess_underway (h₀ : Ready c₀) (h : Underway c₀ c)
    (hs : (c.graph.get n).stage? = some s)
    {predicate close doClose : Location} :
    Outcome (leaveAndAccess n predicate close doClose) c
      (Refuses c₀) fun _ c' =>
      Underway c₀ c' ∧ Later c c' ∧ ∀ f ∈ s.fields, f.forcesAccessor = true →
        ∀ i, s.fieldIndex? f.id = some i →
          ∃ l, c'.progress n (.accessor i) = .done l := by
  unfold leaveAndAccess
  simp only [outcome_bind, outcome_call]
  refine (modifyBody_underway h _).leave ?_
  rintro _ c₁ ⟨h₁, hk₁⟩
  refine (modifyBody_underway h₁ _).leave ?_
  rintro _ c₂ ⟨h₂, hk₂⟩
  have hk := hk₁.trans hk₂
  obtain ⟨s₂, hs₂, hunmade₂⟩ := hk.nodes.exists_stage hs
  rw [outcome_stage]
  refine ⟨fun s' hs' => ?_,
    fun hnone => (Option.some_ne_none _ (hs₂.symm.trans hnone)).elim⟩
  obtain rfl := Option.some.inj (hs₂.symm.trans hs')
  refine Outcome.leave
    (outcome_forM (I := fun done c' => Underway c₀ c' ∧ Later c c'
      ∧ ∀ f ∈ done, ∀ i, s.fieldIndex? f.id = some i →
        ∃ l, c'.progress n (.accessor i) = .done l) ?_ ⟨h₂, hk, by simp⟩) ?_
  · rintro done f rest hsplit c₃ ⟨h₃, hk₃, hdone⟩
    have hf : f ∈ s₂.fields.filter StageField.forcesAccessor :=
      hsplit ▸ List.mem_append_right _ List.mem_cons_self
    obtain ⟨hf, hforced⟩ := List.mem_filter.1 hf
    obtain ⟨s₃, hs₃, hunmade₃⟩ := hk₃.nodes.exists_stage hs
    obtain ⟨g, hg, hid, hforces⟩ :=
      exists_field_of_unmade (hunmade₃.trans hunmade₂.symm) hf
    rw [outcome_bind, ← hid]
    refine (accessor_underway h₀ h₃ hs₃ hg (hforces.trans hforced)).leave ?_
    rintro _ c₄ ⟨h₄, hk₄, hdone₄⟩
    refine outcome_pure.2 ⟨h₄, hk₃.trans hk₄, List.forall_mem_append.2
      ⟨fun e he i hi => ?_, List.forall_mem_singleton.2 fun i hi =>
        hdone₄ i ?_⟩⟩
    · obtain ⟨l, hl⟩ := hdone e he i hi
      exact ⟨l, hk₄.done hl⟩
    · rw [fieldIndex?_eq_of_unmade hunmade₃, hid]
      exact hi
  · rintro _ c' ⟨h', hk', hdone⟩
    refine ⟨h', hk', fun f hf hforced i hi => ?_⟩
    obtain ⟨g, hg, hid, hforces⟩ := exists_field_of_unmade hunmade₂ hf
    exact hdone g (List.mem_filter.2 ⟨hg, hforces.trans hforced⟩) i (hid ▸ hi)

/-- All additions of a stage are made when its members are. -/
theorem isMade_additionsOf (hs : (c.graph.get n).stage? = some s)
    (hclosing : (Addition.closing n).isMade c' = true)
    (hpredicate : (Addition.member n .predicate).isMade c' = true)
    (hdoClose : (Addition.member n .doClose).isMade c' = true)
    (haccessors : ∀ f ∈ s.fields, f.forcesAccessor = true →
      ∀ i, s.fieldIndex? f.id = some i →
      ∃ l, c'.progress n (.accessor i) = .done l) :
    ∀ x ∈ additionsOf c n, x.isMade c' = true := by
  intro x hx
  rw [additionsOf_eq hs, stageAdditions, List.mem_cons, List.mem_cons,
    List.mem_cons] at hx
  rcases hx with rfl | rfl | rfl | hx
  · exact hclosing
  · exact hpredicate
  · exact hdoClose
  · obtain ⟨f, hf, hx⟩ := List.mem_filterMap.1 hx
    obtain ⟨i, hi, rfl⟩ := Option.map_eq_some_iff.1 hx
    obtain ⟨hf, hforces⟩ := List.mem_filter.1 hf
    exact isMade_member_iff.2 (haccessors f hf hforces i hi)

/-- Preparing a node makes what it asks for: a method group its
close-dependants method, and a stage its members. -/
theorem prepare_underway (h₀ : Ready c₀) (h : Underway c₀ c)
    (hn : n ∈ c.graph.ids) :
    Outcome (prepare n) c (Refuses c₀) fun _ c' => Underway c₀ c' ∧ Later c c'
      ∧ ∀ x ∈ additionsOf c n, x.isMade c' = true := by
  refine outcome_prepare (fun hnone => ?_) fun s hs => ?_
  · refine (closeDependants_underway h₀ h hn).leave ?_
    rintro found c₁ ⟨h₁, hk₁, hfound⟩
    refine ⟨h₁, hk₁, fun x hx => ?_⟩
    unfold additionsOf at hx
    rw [hnone] at hx
    obtain rfl := List.mem_singleton.1 hx
    exact isMade_closing_iff.2 ⟨found, hfound⟩
  refine (predicate_underway h₀ h hs).leave ?_
  rintro predicate c₁ ⟨h₁, hk₁, hpredicate⟩
  refine (closeDependants_underway h₀ h₁ (hk₁.mem_ids.2 hn)).leave ?_
  rintro dependants c₂ ⟨h₂, hk₂, hdependants⟩
  have hk₀ := hk₁.trans hk₂
  obtain ⟨s₂, hs₂, -⟩ := hk₀.nodes.exists_stage hs
  refine close_there h₀ h₂ hs₂ fun close => ?_
  refine (doClose_underway h₀ h₂ hs₂).leave ?_
  rintro doClose c₃ ⟨h₃, hk₃, hdoClose⟩
  obtain ⟨s₃, hs₃, -⟩ := (hk₀.trans hk₃).nodes.exists_stage hs
  refine (closeDependantsFirst_underway h₃ hs₃).leave ?_
  rintro _ c₄ ⟨h₄, hk₄⟩
  have hk : Later c c₄ := (hk₀.trans hk₃).trans hk₄
  obtain ⟨s₄, hs₄, hunmade₄⟩ := hk.nodes.exists_stage hs
  refine (leaveAndAccess_underway h₀ h₄ hs₄).leave ?_
  rintro _ c₅ ⟨h₅, hk₅, hforced⟩
  have hk₂₅ : Later c₂ c₅ := (hk₃.trans hk₄).trans hk₅
  refine ⟨h₅, hk.trans hk₅, isMade_additionsOf hs
    (Addition.isMade_later hk₂₅
      (isMade_closing_iff.2 ⟨dependants, hdependants⟩))
    (Addition.isMade_later (hk₂.trans hk₂₅)
      (isMade_member_iff.2 ⟨predicate, hpredicate⟩))
    (Addition.isMade_later (hk₄.trans hk₅)
      (isMade_member_iff.2 ⟨doClose, hdoClose⟩)) ?_⟩
  intro f hf hforces i hi
  obtain ⟨g, hg, hid, hforces'⟩ := exists_field_of_unmade hunmade₄ hf
  refine hforced g hg (hforces'.trans hforces) i ?_
  rwa [fieldIndex?_eq_of_unmade hunmade₄, hid]

-- ================================================================== all nodes

/-- Preparing all nodes makes all additions. -/
theorem prepareNodes_underway (h₀ : Ready c) :
    Outcome prepareNodes c (Refuses c) fun _ c' =>
      Underway c c' ∧ ∀ x ∈ additions c, x.isMade c' = true := by
  unfold prepareNodes
  simp only [outcome_bind, outcome_get, outcome_pure]
  refine Outcome.leave (outcome_forM (I := fun done c' => Underway c c'
    ∧ ∀ n ∈ done, ∀ x ∈ additionsOf c n, x.isMade c' = true) ?_
    ⟨.refl h₀, List.forall_mem_nil _⟩) ?_
  · rintro done n rest hsplit c₁ ⟨h₁, hdone⟩
    have hn : n ∈ c.graph.ids :=
      hsplit ▸ List.mem_append_right _ List.mem_cons_self
    refine (prepare_underway h₀ h₁ (h₁.later.mem_ids.2 hn)).leave ?_
    rintro _ c₂ ⟨h₂, hk₂, hmade⟩
    refine ⟨h₂, List.forall_mem_append.2 ⟨fun m hm x hx => ?_,
      List.forall_mem_singleton.2 ?_⟩⟩
    · exact x.isMade_later hk₂ (hdone m hm x hx)
    · rwa [additionsOf_congr h₁.evolves.sameNodes] at hmade
  · rintro _ c' ⟨h', hmade⟩
    refine ⟨h', fun x hx => ?_⟩
    obtain ⟨⟨n, hn, hx⟩, -⟩ := mem_additions.1 hx
    exact hmade n hn x hx

theorem prepareNodes_calm (hg : c.graph.Acyclic) (hc : c.Idle) :
    Calm prepareNodes c := by
  unfold Calm prepareNodes
  simp only [outcome_bind, outcome_get, outcome_pure]
  refine outcome_forM (I := fun _ c' => Rests c c') (fun _ n _ _ c₁ h₁ => ?_)
    (.refl c)
  exact Calm.trans h₁ (prepare_calm (h₁.shape.links.acyclic hg) (h₁.idle hc))

/-- Where all is ready, the preparation is only ever refused by the binding
of an addition, and it succeeds exactly if these are apart. -/
theorem prepareNodes_isOk_iff (h₀ : Ready c) :
    (∀ e, (prepareNodes.runOn c).1 = .error e →
        ∃ item existing, e = .duplicateBinding item existing)
      ∧ ((prepareNodes.runOn c).1.isOk = true ↔ Apart c) := by
  have hunderway := prepareNodes_underway h₀
  have hrefused : ∀ e, (prepareNodes.runOn c).1 = .error e →
      ¬ Apart c ∧ ∃ item existing,
      e = .duplicateBinding item existing := fun e he =>
    hunderway.fails he ((prepareNodes_calm h₀.acyclic h₀.idle).fails he)
  refine ⟨fun e he => (hrefused e he).2, fun hok => ?_, fun hapart => ?_⟩
  · obtain ⟨report, hrun⟩ := exists_runOn_eq hok
    obtain ⟨h', hmade⟩ := hunderway.ensures report _ hrun
    intro x hx id hid
    obtain ⟨hfree, huniq⟩ := h'.recorded.apart x ⟨hx, hmade x hx⟩ id hid
    exact ⟨hfree, fun y hy => huniq y ⟨hy, hmade y hy⟩⟩
  · cases he : (prepareNodes.runOn c).1 with
    | error e => exact ((hrefused e he).1 hapart).elim
    | ok report => rfl

-- ================================================================= the result

/-- The preparation of all nodes after an analysis and the guarding of the
bodies. The members that it makes are the close-dependants methods that
have something to call, the predicates that are not declared, the `doClose`
methods and the forced accessors. It fails with nothing but a duplicate
binding, and succeeds exactly if each of these members has an identity of
its own, which is that of no method bound before. -/
theorem prepareNodes_accepts {sources : Sources} {tree : Composition}
    {options : Options} {report : AnalysisReport} {counts : GuardReport}
    (hanalyse : analyse.runOn { sources, tree, options } = (.ok report, c))
    (hguard : guardNodes.runOn c = (.ok counts, c')) :
    (∀ e, (prepareNodes.runOn c').1 = .error e →
        ∃ item existing, e = .duplicateBinding item existing)
      ∧ ((prepareNodes.runOn c').1.isOk = true ↔ Apart c') := by
  obtain ⟨hpopulated, -⟩ := Analysis.analyse_populated rfl report c hanalyse
  obtain ⟨hsound, hacyclic⟩ := analyse_sound rfl report c hanalyse
  exact prepareNodes_isOk_iff
    (guardNodes_ready hpopulated hsound hacyclic counts c' hguard)

/-- Guarding made the predicate of `X` and the close methods. What is still to
be made are what closes `Y` below `X`, the predicate of `Y`, and the `doClose`
methods. -/
theorem prepareNodes_accepts_pair : ∃ report c counts c',
    analyse.runOn { sources := pairSources, tree := pairTree }
      = (.ok report, c)
      ∧ guardNodes.runOn c = (.ok counts, c')
      ∧ ((additions c').filterMap (·.identity? c')).length = 4
      ∧ (prepareNodes.runOn c').1.isOk = true := by
  let c := (analyse.runOn { sources := pairSources, tree := pairTree }).2
  let c' := (guardNodes.runOn c).2
  obtain ⟨report, hanalyse⟩ := exists_runOn_eq (x := analyse)
    (c := { sources := pairSources, tree := pairTree }) (by decide +kernel)
  obtain ⟨counts, hguard⟩ :=
    exists_runOn_eq (x := guardNodes) (c := c) (by decide +kernel)
  have hapart : Apart c' := by decide +kernel
  exact ⟨report, c, counts, c', hanalyse, hguard, by decide +kernel,
    (prepareNodes_accepts hanalyse hguard).2.2 hapart⟩

-- ------------------------------------------------------------------ overloads

/-- All names under which members are added for a node. -/
def addedNames (c : Compilation) (n : DependencyId) : List String :=
  let name := c.graph.name n
  Convention.closeDependantsName name
    :: ((c.graph.get n).stage?.map fun s =>
      [Convention.predicateName name, Convention.closeName name,
        Convention.doCloseName name]
        ++ s.fields.map StageField.name
        ++ s.methods.map fun m =>
          Convention.guardedName (c.sources.method m.location).name).getD []

/-- One type with a stage `X` whose init method calls two overloads of one
method. -/
def overloadSources : Sources :=
  let x : Field :=
    { name := "x", type := .int, init := some (.literal (.int (-1))) }
  let run : Method := { name := "run", returns := .void, body := some [] }
  let initX : Method := { name := "initX", returns := .void, body := some [
    .expr (.call none ⟨"Part", "run", []⟩ []),
    .expr (.call none ⟨"Part", "run", [.int]⟩ [.literal (.int 1)])] }
  let part : TypeDecl :=
    { TypeDecl.participating "Part" with
      fields := [x]
      methods := [initX, run,
        { run with params := [{ name := "n", type := .int }] }] }
  { decls := [part.assignIdentities] }

/-- `X` depends on the groups of both overloads. Each of them gets a method
that closes `X`, and both are named after the group, which has one name for
both. No declared method has a name under which a member is added. -/
theorem prepareNodes_rejects_overloads : ∃ report c counts c',
    analyse.runOn { sources := overloadSources, tree := pairTree }
      = (.ok report, c)
      ∧ guardNodes.runOn c = (.ok counts, c')
      ∧ (∀ d ∈ overloadSources.decls, ∀ m ∈ d.methods, ∀ n ∈ c'.graph.ids,
        m.name ∉ addedNames c' n)
      ∧ (∃ id, (Addition.closing ⟨1⟩).identity? c' = some id
        ∧ (Addition.closing ⟨2⟩).identity? c' = some id)
      ∧ (prepareNodes.runOn c').1.isOk = false := by
  let c := (analyse.runOn { sources := overloadSources, tree := pairTree }).2
  let c' := (guardNodes.runOn c).2
  obtain ⟨report, hanalyse⟩ := exists_runOn_eq (x := analyse)
    (c := { sources := overloadSources, tree := pairTree }) (by decide +kernel)
  obtain ⟨counts, hguard⟩ :=
    exists_runOn_eq (x := guardNodes) (c := c) (by decide +kernel)
  refine ⟨report, c, counts, c', hanalyse, hguard, by decide +kernel,
    ⟨newIdentity c' ⟨1⟩ (Convention.closeDependantsName (c'.graph.name ⟨1⟩)),
      ?_, ?_⟩, by decide +kernel⟩
  · decide +kernel
  · decide +kernel

end Stagewise.Lifecycle
