/-
Which nodes get a method that closes their dependants, and what it calls.

A node gets one exactly when a stage depends on it, directly or through other
nodes. The method calls, in the order of the sorted dependants, what closes
each dependant that is a stage or has such a method itself
(`prepareNodes_closes_dependants`).

# The argument

While nodes are prepared, every close-dependants method that is made calls
what `closeCalls` lists (`Closing`), whichever request it was made for. It
keeps its body: the other members that are made and the statements that are
added belong to methods that are bound with other roles, and a method has
one role (`prepare_onward`). In the end each node had its turn, so each has
its answer, and what `closeCalls` tells of a method group can be read off
that group's own answer.
-/
import Stagewise.Proofs.Lifecycle.Readiness
import Stagewise.Proofs.Lifecycle.Spared

namespace Stagewise.Lifecycle

open Compilation Step
open Relation (TransGen)

variable {K : Location → Prop} {g g' : DependencyGraph} {c c' c₁ : Compilation}
variable {n d : DependencyId} {l : Location} {found : Option Location}
variable {r : Role}

-- ================================================================== the calls

/-- There is something to call exactly if a stage depends on the node. -/
theorem closeCalls_ne_nil_iff (hg : g.Acyclic) (hn : n ∈ g.ids) :
    closeCalls g n ≠ [] ↔ ∃ t ∈ g.stages, TransGen g.Depends t n := by
  rw [← exists_mem_dependants_closes hn, ← List.isEmpty_eq_false_iff,
    List.isEmpty_eq_false_iff_exists_mem]
  exact exists_congr fun d => mem_closeCalls hg hn

/-- Whether a node has a close-dependants method. -/
def hasCloser (c : Compilation) (n : DependencyId) : Bool :=
  (c.closing n).value?.any Option.isSome

/-- The answer is a method exactly if there is something to call. -/
theorem ClosesDependants.isSome_iff (h : ClosesDependants g c n found) :
    found.isSome = true ↔ closeCalls g n ≠ [] := by
  cases found with
  | none => exact iff_of_false nofun fun hne => hne h
  | some l => exact iff_of_true rfl h.1

/-- Once the dependants have their answers, the calls can be told from
them. -/
theorem Closing.closeCalls_eq (h : Closing g c) (hg : g.Acyclic)
    (hn : n ∈ g.ids)
    (hdone : ∀ d ∈ g.ids, ∃ found, c.closing d = .done found) :
    closeCalls g n = (g.sortedDependants n).filter fun d =>
      (g.get d).isStage || hasCloser c d := by
  rw [Lifecycle.closeCalls_eq hg hn]
  refine List.filter_congr fun d hd => congrArg _ ?_
  obtain ⟨found, hfound⟩ := hdone d (mem_ids_of_mem_sortedDependants hd)
  have hanswer := (h.answers d found hfound).isSome_iff
  unfold hasCloser
  rw [hfound, Bool.eq_iff_iff, Bool.not_eq_true', List.isEmpty_eq_false_iff]
  exact hanswer.symm

-- ============================================================= what goes on

/-- That close-dependants methods were made on: those that there were stay,
and all call what they should. -/
structure Onward (g : DependencyGraph) (c c' : Compilation) : Prop where
  keeps : Keeps (ClosesAt c) c c'
  closing : Closing g c'

theorem Onward.trans (h : Onward g c c₁) (h' : Onward g c₁ c') :
    Onward g c c' :=
  ⟨keeps_trans h.keeps h'.keeps, h'.closing⟩

theorem Onward.done (h : Onward g c c') (hn : c.closing n = .done found) :
    c'.closing n = .done found :=
  h.keeps.closing_done hn

namespace Closing

theorem refl (h : Closing g c) : Onward g c c := ⟨.refl _ c, h⟩

/-- Where no answer is added, it is enough that the methods stay. -/
theorem onward (h : Closing g c) (hk : Keeps (ClosesAt c) c c')
    (hsame : c'.closing = c.closing) :
    Onward g c c' :=
  ⟨hk, h.unanswered hk hsame⟩

/-- It does not matter in which of two graphs of one shape the calls are
looked up. -/
theorem ofShape (h : Closing g c) : Closing c.graph c := by
  refine ⟨h.seated, .refl _, fun n found hn => ?_⟩
  have hanswer := h.answers n found hn
  unfold ClosesDependants at hanswer ⊢
  rw [h.shape.closeCalls]
  exact hanswer

/-- Before any method is made. -/
theorem ofUnclosing (hw : Seated K c) (hnew : ∀ n, c.closing n = .notStarted) :
    Closing c.graph c := by
  have hnone : ∀ n found, c.closing n ≠ .done found := fun n found hn => by
    cases (hnew n).symm.trans hn
  exact ⟨{ hw with bodies := fun l ⟨n, hn⟩ => (hnone n _ hn).elim }, .refl _,
    fun n found hn => (hnone n found hn).elim⟩

/-- The body of a method that is bound with another role may change. -/
theorem modifyBody (h : Closing g c) (hb : c.Bound l d r)
    (hr : r ≠ .closeDependants)
    (f : Block → Block) :
    Ensures (modifyBody l f) c fun _ c' => Onward g c c' :=
  ensures_modifySources.2 <| h.onward
    (.ofSources (.modifyMethod (fun _ => rfl) hb.1 (h.not_closesAt hb hr))) rfl

end Closing

theorem predicate_onward (h : Closing g c) :
    Ensures (predicate n) c fun _ c' => Onward g c c' :=
  ((predicate_keeps h.seated).and (Makings.predicate .refl)).mono
    fun _ _ ⟨⟨hk, _⟩, hm⟩ => h.onward hk (Makings.closing hm)

theorem accessor_onward (h : Closing g c) (field : Identity) :
    Ensures (accessor n field) c fun _ c' => Onward g c c' :=
  ((accessor_keeps h.seated).and (Makings.accessor .refl field)).mono
    fun _ _ ⟨⟨hk, _⟩, hm⟩ => h.onward hk (Makings.closing hm)

theorem closeDependants_onward (hg : g.Acyclic) (hn : n ∈ g.ids)
    (h : Closing g c) :
    Ensures (closeDependants n) c fun found c' =>
      Onward g c c' ∧ c'.closing n = .done found := by
  unfold closeDependants
  rw [ensures_bind, ensures_get]
  have hfuel := h.shape.length
  exact (closeDependantsWithin_answers hg hn (by omega) h).mono
    fun found c' ⟨hk, h', hfound⟩ => ⟨⟨hk, h'⟩, hfound⟩

/-- The `doClose` method of a stage that has its close method. -/
theorem doClose_onward (h : Closing g c)
    (hclose : c.progress n .close = .done l) :
    Ensures (doClose n) c fun doClose c' =>
      Onward g c c' ∧ c'.progress n .doClose = .done doClose :=
  (doClose_adds h.seated fun _ _ => ⟨l, hclose⟩).mono
    fun _ _ ⟨hk, hdone, hsame, _⟩ =>
      ⟨h.onward (hk.weaken fun _ => h.seated.has) hsame, hdone⟩

-- ============================================================ one preparation

/-- Letting an init method close the dependants. -/
theorem closeDependantsAfterInit_onward (h : Closing g c)
    {predicate closer init : Location} (hb : c.Bound init n .init) :
    Ensures (closeDependantsAfterInit n predicate closer init) c fun _ c' =>
      Onward g c c' :=
  ensures_closeDependantsAfterInit.2 (h.modifyBody hb (by decide) _)

/-- Letting all init methods of a stage close the dependants. -/
theorem closeDependantsAfterInits_onward (h : Closing g c)
    {predicate closer : Location} {s : Stage}
    (hs : (c.graph.get n).stage? = some s) :
    Ensures (s.initMethods.forM (closeDependantsAfterInit n predicate closer))
      c
      fun _ c' => Onward g c c' := by
  refine ensures_forM (I := fun _ c' => Onward g c c')
    (fun _ init hinit c₁ h₁ => ?_) h.refl
  have hb : c₁.Bound init n .init :=
    (bound_initMethod h.seated hs hinit).keeps h₁.keeps
  exact (closeDependantsAfterInit_onward h₁.closing hb).mono fun _ _ h₂ =>
    h₁.trans h₂

/-- Letting the dependants be closed first. -/
theorem closeDependantsFirst_onward (h : Closing g c)
    {predicate close : Location} {dependants : Option Location}
    (hclose : c.progress n .close = .done close) :
    Ensures (closeDependantsFirst n predicate close dependants) c fun _ c' =>
      Onward g c c' := by
  refine ensures_closeDependantsFirst h.refl fun d _ s hs => ?_
  refine (closeDependantsAfterInits_onward h hs).mono fun _ c₁ h₁ => ?_
  have hb := (h₁.closing.seated.made n _ _ (h₁.keeps.done hclose)).1
  exact (h₁.closing.modifyBody hb (by decide) _).mono fun _ _ h₂ => h₁.trans h₂

/-- The last part of preparing a stage. -/
theorem leaveAndAccess_onward (h : Closing g c)
    {predicate close doClose : Location}
    (hclose : c.progress n .close = .done close)
    (hdoClose : c.progress n .doClose = .done doClose) :
    Ensures (leaveAndAccess n predicate close doClose) c fun _ c' =>
      Onward g c c' := by
  refine ensures_leaveAndAccess ?_ fun c₃ field h₃ => ?_
  · refine (h.modifyBody (h.seated.made n _ _ hclose).1 (by decide) _).mono
      fun _ c₁ h₁ => ?_
    have hb := (h₁.closing.seated.made n _ _ (h₁.keeps.done hdoClose)).1
    exact (h₁.closing.modifyBody hb (by decide) _).mono fun _ c₂ h₂ =>
      h₁.trans h₂
  · exact (accessor_onward h₃.closing field).mono fun _ _ h₄ => h₃.trans h₄

/-- The preparation of a node goes on, and then the node has its answer. -/
theorem prepare_onward (hg : g.Acyclic) (hn : n ∈ g.ids) (h : Closing g c) :
    Ensures (prepare n) c fun _ c' => Onward g c c' ∧ ∃ found,
      c'.closing n = .done found := by
  refine ensures_prepare (fun _ => ?_) fun s _ => ?_
  · exact (closeDependants_onward hg hn h).mono fun found _ ⟨h', hfound⟩ =>
      ⟨h', found, hfound⟩
  refine (predicate_onward h).mono fun predicate c₁ h₁ => ?_
  refine (closeDependants_onward hg hn h₁.closing).mono
    fun closer c₂ ⟨h₂, hcloser⟩ => ?_
  refine (close_closing h₂.closing).mono fun close c₃ ⟨hk₃, hclosing₃,
    hclose⟩ => ?_
  refine (doClose_onward hclosing₃ hclose).mono
    fun doClose c₄ ⟨h₄, hdoClose⟩ => ?_
  have hall : Onward g c c₄ := (h₁.trans h₂).trans (.trans ⟨hk₃, hclosing₃⟩ h₄)
  have hdone : c₄.closing n = .done closer :=
    h₄.done (hk₃.closing_done hcloser)
  have hclose₄ : c₄.progress n .close = .done close := h₄.keeps.done hclose
  refine (closeDependantsFirst_onward h₄.closing hclose₄).mono
    fun _ c₅ h₅ => ?_
  refine (leaveAndAccess_onward h₅.closing (h₅.keeps.done hclose₄)
    (h₅.keeps.done hdoClose)).mono fun _ c₆ h₆ => ?_
  have h' := h₅.trans h₆
  exact ⟨hall.trans h', closer, h'.done hdone⟩

-- =========================================================== all preparations

/-- The preparation of nodes in any order goes on, and then each of them has
its answer. -/
theorem prepareAll_onward {order : List DependencyId} (hg : g.Acyclic)
    (h : Closing g c) (horder : ∀ n ∈ order, n ∈ g.ids) :
    Ensures (order.forM prepare) c fun _ c' =>
      Onward g c c' ∧ ∀ n ∈ order, ∃ found, c'.closing n = .done found := by
  refine ensures_forM (I := fun done c' =>
    Onward g c c' ∧ ∀ n ∈ done, ∃ found, c'.closing n = .done found) ?_
      ⟨h.refl, nofun⟩
  rintro done n hn c₁ ⟨h₁, hdone⟩
  refine (prepare_onward hg (horder n hn) h₁.closing).mono ?_
  rintro _ c₂ ⟨h₂, hlast⟩
  refine ⟨h₁.trans h₂, List.forall_mem_append.2 ⟨fun m hm => ?_, ?_⟩⟩
  · obtain ⟨found, hfound⟩ := hdone m hm
    exact ⟨found, h₂.done hfound⟩
  · exact List.forall_mem_singleton.2 hlast

/-- When all nodes are prepared, each has a close-dependants method exactly
if a stage depends on it, which calls what closes its dependants. -/
theorem prepareNodes_answers (hg : c.graph.Acyclic) (h : Closing c.graph c) :
    Ensures prepareNodes c fun _ c' => c.graph.SameShape c'.graph ∧
      ∀ n ∈ c'.graph.ids, ∃ found, c'.closing n = .done found
        ∧ (found.isSome = true ↔ ∃ t ∈ c'.graph.stages,
          TransGen c'.graph.Depends t n)
        ∧ ∀ l ∈ found,
        ClosesInOrder c' n ((c'.graph.sortedDependants n).filter fun d =>
            (c'.graph.get d).isStage || hasCloser c' d) l := by
  unfold prepareNodes
  simp only [ensures_bind, ensures_get, ensures_pure]
  refine (prepareAll_onward hg h fun _ => id).mono ?_
  rintro _ c' ⟨⟨-, hclosing⟩, hdone⟩
  have hshape := hclosing.shape
  have hclosing' : Closing c'.graph c' := hclosing.ofShape
  have hg' := hshape.links.acyclic hg
  rw [← hshape.links.ids] at hdone
  refine ⟨hshape, fun n hn => ?_⟩
  obtain ⟨found, hfound⟩ := hdone n hn
  have hanswer := hclosing'.answers n found hfound
  have hstage := hanswer.isSome_iff.trans (closeCalls_ne_nil_iff hg' hn)
  refine ⟨found, hfound, hstage, fun l hl => ?_⟩
  obtain rfl : found = some l := hl
  rw [← hclosing'.closeCalls_eq hg' hn hdone]
  exact hanswer.2

-- ================================================================= the result

/-- The preparation of all nodes after an analysis and the guarding. Then a
node has a close-dependants method exactly if a stage depends on it, directly
or through others. The method's body is one call for each direct dependant
that is a stage or has such a method itself, in the order of the sorted
dependants: of the stage's close method or of that method, on the access from
the node to the dependant (`callOf?`). -/
theorem prepareNodes_closes_dependants {sources : Sources} {tree : Composition}
    {options : Options} {report : AnalysisReport} {counts : GuardReport}
    {made : LifecycleReport} {c'' : Compilation}
    (hanalyse : analyse.runOn { sources, tree, options } = (.ok report, c))
    (hguard : guardNodes.runOn c = (.ok counts, c'))
    (hprepare : prepareNodes.runOn c' = (.ok made, c'')) :
    c.graph.SameShape c''.graph ∧
      ∀ n ∈ c''.graph.ids, ∃ found, c''.closing n = .done found
        ∧ (found.isSome = true ↔ ∃ t ∈ c''.graph.stages,
          TransGen c''.graph.Depends t n)
        ∧ ∀ l ∈ found,
        ClosesInOrder c'' n ((c''.graph.sortedDependants n).filter fun d =>
            (c''.graph.get d).isStage || hasCloser c'' d) l := by
  obtain ⟨hpopulated, -⟩ := Analysis.analyse_populated rfl report c hanalyse
  obtain ⟨hsound, hacyclic⟩ := analyse_sound rfl report c hanalyse
  obtain ⟨hlater, -⟩ := guardNodes_closed hpopulated counts c' hguard
  obtain ⟨hrests, hsame⟩ :=
    guardNodes_rests (hsound.idle hpopulated) counts c' hguard
  have hclosing : Closing c'.graph c' :=
      .ofUnclosing (hpopulated.seated.keeps hlater) fun n => by
    rw [hsame]
    exact hsound.unclosing n
  obtain ⟨hshape, hanswers⟩ :=
    prepareNodes_answers (hrests.shape.links.acyclic hacyclic) hclosing made
      c'' hprepare
  exact ⟨hrests.shape.trans hshape, hanswers⟩

/-- One type with a stage `X`, a method that reads its field, and two callers
of this method: the init method of a stage `Y`, and a method that no stage
depends on. -/
def chainedSources : Sources :=
  let field (name : String) : Field :=
    { name, type := .int, init := some (.literal (.int 0)) }
  let half : Method :=
    { name := "half", returns := .int,
      body := some [.ret (some (.field none ⟨"A", "x"⟩))] }
  let callHalf : Expr := .call none (half.ref "A") []
  let initY : Method :=
    { name := "initY", returns := .void, body := some [.expr
      (.assign none (.field none ⟨"A", "y"⟩) callHalf)] }
  let size : Method :=
    { name := "size", returns := .int, body := some [.ret (some callHalf)] }
  let a : TypeDecl :=
    { TypeDecl.participating "A" with
      fields := [field "x", field "y"]
      methods := [half, initY, size] }
  { decls := [a.assignIdentities] }

/-- `X` closes its dependants through the method `half`, which passes over
the first of its dependants and closes `Y`. -/
theorem prepareNodes_closes_dependants_chained :
    ∃ report c counts c' made c'' x half,
    analyse.runOn { sources := chainedSources, tree := pairTree }
      = (.ok report, c)
      ∧ guardNodes.runOn c = (.ok counts, c')
      ∧ prepareNodes.runOn c' = (.ok made, c'')
      ∧ c''.closing ⟨0⟩ = .done (some x) ∧ ClosesInOrder c'' ⟨0⟩ [⟨2⟩] x
      ∧ c''.closing ⟨2⟩ = .done (some half) ∧ ClosesInOrder c'' ⟨2⟩ [⟨1⟩] half
      ∧ c''.graph.sortedDependants ⟨2⟩ = [⟨3⟩, ⟨1⟩]
      ∧ c''.closing ⟨3⟩ = .done none
      ∧ ¬ ∃ t ∈ c''.graph.stages, TransGen c''.graph.Depends t ⟨3⟩ := by
  let c := (analyse.runOn { sources := chainedSources, tree := pairTree }).2
  let c' := (guardNodes.runOn c).2
  let c'' := (prepareNodes.runOn c').2
  obtain ⟨report, hanalyse⟩ := exists_runOn_eq (x := analyse)
    (c := { sources := chainedSources, tree := pairTree }) (by decide +kernel)
  obtain ⟨counts, hguard⟩ :=
    exists_runOn_eq (x := guardNodes) (c := c) (by decide +kernel)
  obtain ⟨made, hprepare⟩ :=
    exists_runOn_eq (x := prepareNodes) (c := c') (by decide +kernel)
  obtain ⟨-, hanswers⟩ :=
    prepareNodes_closes_dependants hanalyse hguard hprepare
  have hids : ∀ i < 4, (⟨i⟩ : DependencyId) ∈ c''.graph.ids := by
    decide +kernel
  have hclosers : ∀ i < 4, hasCloser c'' ⟨i⟩ = decide (i = 0 ∨ i = 2) := by
    decide +kernel
  have hcalls : ((c''.graph.sortedDependants ⟨0⟩).filter fun d =>
        (c''.graph.get d).isStage || hasCloser c'' d) = [⟨2⟩]
      ∧ ((c''.graph.sortedDependants ⟨2⟩).filter fun d =>
        (c''.graph.get d).isStage || hasCloser c'' d) = [⟨1⟩] := by
          decide +kernel
  have hmade : ∀ i < 4, ∀ found, c''.closing ⟨i⟩ = .done found →
      found.isSome = decide (i = 0 ∨ i = 2) := by
    intro i hi found hfound
    rw [← hclosers i hi]
    unfold hasCloser
    rw [hfound]
    rfl
  obtain ⟨x, hx, -, hxcalls⟩ := hanswers ⟨0⟩ (hids 0 (by decide))
  obtain ⟨half, hhalf, -, hhalfcalls⟩ := hanswers ⟨2⟩ (hids 2 (by decide))
  obtain ⟨size, hsize, hsizeiff, -⟩ := hanswers ⟨3⟩ (hids 3 (by decide))
  obtain ⟨x, rfl⟩ := Option.isSome_iff_exists.1 (hmade 0 (by decide) x hx)
  obtain ⟨half, rfl⟩ :=
    Option.isSome_iff_exists.1 (hmade 2 (by decide) half hhalf)
  obtain rfl : size = none := by simpa using hmade 3 (by decide) size hsize
  refine ⟨report, c, counts, c', made, c'', x, half, hanalyse, hguard,
    hprepare, hx, ?_, hhalf, ?_, by decide +kernel, hsize,
    fun h => nomatch hsizeiff.2 h⟩
  · rw [← hcalls.1]
    exact hxcalls x rfl
  · rw [← hcalls.2]
    exact hhalfcalls half rfl

end Stagewise.Lifecycle
