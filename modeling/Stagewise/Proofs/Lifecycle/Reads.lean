/-
The bodies of a stage are linked and guarded.

The bodies that are linked, those that are guarded and those that run in
the end are the same: the init methods, the tagged methods and the close
method of the stage. Linking sees those that are there, and the initial
value of the sentinel in place of a close method that is yet to be made
(`dependsOn_of_closed`). Guarding sees all of them, and what the lifecycle
adds to them later accesses no field.

The predicate is none of these bodies, declared or made. What a declared
one reads is neither linked nor guarded.
-/
import Stagewise.Proofs.Analysis.Passes
import Stagewise.Proofs.Lifecycle.Guards
import Stagewise.Proofs.Lifecycle.Prepared
import Stagewise.Proofs.Lifecycle.Resets
import Stagewise.Proofs.Lifecycle.Writes

namespace Stagewise.Lifecycle

open Compilation Step

variable {c c' c₁ : Compilation} {n d : DependencyId} {l : Location} {e : Expr}

-- ===================================================================== linked

/-- The bodies of a node are linked. -/
theorem mem_bodyExprs_of_body (hl : l ∈ c.bodyLocations n)
    (he : e ∈ (c.sources.method l).bodyOrEmpty.exprs) :
    e ∈ Analysis.bodyExprs c n := by
  refine List.mem_append_left _ (List.mem_flatMap.2 ⟨l, hl, ?_⟩)
  rwa [Method.exprs_nodes]

/-- The initial value that a reset takes over is linked. -/
theorem mem_bodyExprs_of_reset {s : Stage} {f : StageField} {value : Expr}
    (hs : (c.graph.get n).stage? = some s)
    (hconcrete : s.hasConcreteClose c.sources = false)
    (hf : s.sentinel? = some f) (hvalue : (c.sources.field f.location).init
      = some value)
    (he : e ∈ value.subterms) : e ∈ Analysis.bodyExprs c n := by
  have hpending : (c.graph.get n).stage?.bind (Analysis.pendingReset? c)
      = some value := by
    rw [hs, Option.bind_some, Analysis.pendingReset?, hconcrete, hf]
    exact hvalue
  refine List.mem_append_right _ ?_
  rw [hpending]
  exact he

/-- Once the close methods are made, a stage depends on whatever its bodies
reach. -/
theorem dependsOn_of_linked (hdiscovered : Analysis.Discovered c)
    (hassigned : Analysis.Assigned c) (hlinked : Analysis.Linked c)
    (hid : c.sources.Derived)
    (hclose : closeStages.runOn c = (.ok (), c₁)) (hl : l ∈ c₁.bodyLocations n)
    (he : e ∈ (c₁.sources.method l).bodyOrEmpty.exprs)
    (hreaches : Analysis.Reaches c.tree c.bindings (c.compositionOf n) n e d)
    (hne : d ≠ n) :
    c.graph.dependsOn n d = true := by
  rcases (closeStages_bodies hdiscovered () c₁ hclose).2 n l hl with
    ⟨hbody, hsame⟩ | ⟨s, f, hs, hconcrete, hf, hreset⟩
  · rw [hsame] at he
    exact hlinked n (mem_ids_of_mem_bodyLocations hbody) e
      (mem_bodyExprs_of_body hbody he) d hreaches hne
  · rw [Method.bodyOrEmpty, hreset, Option.getD_some, exprs_resetOf] at he
    rcases List.mem_cons.1 he with rfl | he
    · cases hreaches
    rcases List.mem_cons.1 he with rfl | he
    · -- the sentinel itself is the stage's own
      have hown := (stageOfField?_sentinel hassigned hid hs hf).2
      cases hreaches with
      | read _ hfield =>
          exact absurd (Option.some.inj (hfield.symm.trans hown)) hne
    · unfold initialOf at he
      cases hvalue : (c.sources.field f.location).init with
      | none =>
          rw [hvalue] at he
          obtain rfl := List.mem_singleton.1 he
          cases hreaches
      | some value =>
          rw [hvalue] at he
          exact hlinked n (mem_ids_of_stage? hs) e
            (mem_bodyExprs_of_reset hs hconcrete hf hvalue he) d hreaches hne

theorem dependsOn_of_closed (h : Analysis.Analysed c) (hid : c.sources.Derived)
    (hclose : closeStages.runOn c = (.ok (), c₁)) (hl : l ∈ c₁.bodyLocations n)
    (he : e ∈ (c₁.sources.method l).bodyOrEmpty.exprs)
    (hreaches : Analysis.Reaches c.tree c.bindings (c.compositionOf n) n e d)
    (hne : d ≠ n) :
    c.graph.dependsOn n d = true :=
  dependsOn_of_linked h.discovered h.assigned h.linked hid hclose hl he
    hreaches hne

-- ==================================================================== guarded

/-- What a guarded body accesses is the node's own. -/
theorem Guarded.own_of_mem_fields {former m : Method}
    (h : Guarded c n former m) {f : FieldRef} (hf : f ∈ m.bodyOrEmpty.fields)
    (hd : c.bindings.stageOfField? f.identity = some d) : d = n := by
  obtain ⟨e, he, hfield⟩ := List.mem_filterMap.1 hf
  have hown := h.own e he
  cases e with
  | field t g =>
      obtain rfl := Option.some.inj hfield
      exact hown d hd
  | _ => cases hfield

/-- The bodies of a stage whose close method is made. -/
theorem bodyLocations_of_done {s : Stage} {close : Location}
    (hs : (c.graph.get n).stage? = some s) (hclose : s.close = .done close) :
    c.bodyLocations n = s.initMethods ++ s.methods.map StageMethod.location
      ++ [close] := by
  unfold bodyLocations
  rw [DependencyNode.stage?_eq_some.1 hs]
  dsimp only
  rw [hclose]
  rfl

-- ================================================================ the result

/-- The lifecycle after an analysis, of members with derived identities. In
the end every stage has its close method. Each of its init, tagged and
close methods is linked, a close method made from the sentinel included:
the stage depends on every other node that an expression of the body
reaches. And each is guarded: in the end its body accesses no field of
another stage directly. -/
theorem prepareNodes_links_and_guards {sources : Sources} {tree : Composition}
    {options : Options} {report : AnalysisReport} {counts : GuardReport}
    {made : LifecycleReport} {c'' : Compilation} (hid : sources.Derived)
    (hanalyse : analyse.runOn { sources, tree, options } = (.ok report, c))
    (hguard : guardNodes.runOn c = (.ok counts, c'))
    (hprepare : prepareNodes.runOn c' = (.ok made, c'')) :
    ∃ closed, closeStages.runOn c = (.ok (), closed)
      ∧ (∀ n, ∀ l ∈ c.bodyLocations n, closed.sources.method l
        = sources.method l)
      ∧ ∀ n s, (c''.graph.get n).stage? = some s →
        ∃ close, s.close = .done close
        ∧ ∀ l ∈ s.initMethods ++ s.methods.map StageMethod.location ++ [close],
          (∀ e ∈ (closed.sources.method l).bodyOrEmpty.exprs, ∀ d,
            Analysis.Reaches c.tree c.bindings (c.compositionOf n) n e d →
              d ≠ n →
              c.graph.dependsOn n d = true)
          ∧ ∀ f ∈ (c''.sources.method l).bodyOrEmpty.fields, ∀ d,
            c.bindings.stageOfField? f.identity = some d → d = n := by
  obtain ⟨hanalysed, hsources⟩ := Analysis.analyse_analysed ⟨rfl, rfl, rfl⟩
    (fun _ => Sources.identified_of_has hid.methods) report c hanalyse
  have hid' : c.sources.Derived := by rwa [hsources]
  obtain ⟨closed, hclose, hk, hclosed, hlater, hsettled⟩ :=
    guardNodes_settles hanalysed.discovered counts c' hguard
  have hw : WellMade (HoldsBody closed) c' :=
    (WellMade.ofBodies (hanalysed.discovered.wellMade.keeps hk)).keeps hlater
  have hclosed' : Closed c' := hclosed.keeps hlater
  have hprepares := prepareNodes_prepares hw hclosed' made c'' hprepare
  refine ⟨closed, hclose, fun n l hl => ?_, fun n s hs => ?_⟩
  · rw [hk.sources.kept l ⟨n, hl⟩, hsources]
  obtain ⟨close, hdone⟩ := hclosed'.keeps hprepares.later n s hs
  have hsdone : s.close = .done close := (progress_eq hs).symm.trans hdone
  refine ⟨close, hsdone, fun l hl => ?_⟩
  rw [← bodyLocations_of_done hs hsdone,
    hclosed'.bodyLocations_eq hprepares.later] at hl
  have hlclosed : l ∈ closed.bodyLocations n := by
    rwa [← hclosed.bodyLocations_eq hlater]
  refine ⟨fun e he d => dependsOn_of_closed hanalysed hid' hclose hlclosed he,
    fun f hf d hd => ?_⟩
  rw [hprepares.fields l ⟨n, hl⟩] at hf
  rw [← hk.field, ← hlater.field] at hd
  exact (hsettled n l hlclosed c' (.refl _ c')).own_of_mem_fields hf hd

/-- The init method of `Y` reads the field of `X`: `Y` depends on `X`, and in
the end the method accesses fields of `Y` only. -/
theorem prepareNodes_links_and_guards_pair : ∃ report c counts c' made c'',
    analyse.runOn { sources := pairSources, tree := pairTree }
      = (.ok report, c)
      ∧ guardNodes.runOn c = (.ok counts, c')
      ∧ prepareNodes.runOn c' = (.ok made, c'')
      ∧ c.graph.dependsOn ⟨1⟩ ⟨0⟩ = true
      ∧ ∀ f ∈ (c''.sources.method ⟨⟨0⟩, 0⟩).bodyOrEmpty.fields, ∀ d,
          c.bindings.stageOfField? f.identity = some d → d = ⟨1⟩ := by
  let c₀ : Compilation := { sources := pairSources, tree := pairTree }
  let c := (analyse.runOn c₀).2
  let c' := (guardNodes.runOn c).2
  let c'' := (prepareNodes.runOn c').2
  have hid : pairSources.Derived := ⟨by decide +kernel, by decide +kernel⟩
  obtain ⟨report, hanalyse⟩ :=
    exists_runOn_eq (x := analyse) (c := c₀) (by decide +kernel)
  obtain ⟨counts, hguard⟩ :=
    exists_runOn_eq (x := guardNodes) (c := c) (by decide +kernel)
  obtain ⟨made, hprepare⟩ :=
    exists_runOn_eq (x := prepareNodes) (c := c') (by decide +kernel)
  have hbody : (⟨⟨0⟩, 0⟩ : Location) ∈ c.bodyLocations ⟨1⟩ := by decide +kernel
  have hinit : (c''.graph.get ⟨1⟩).stage?.map Stage.initMethods
      = some [⟨⟨0⟩, 0⟩] := by
    decide +kernel
  have hfield : c.bindings.stageOfField? (FieldRef.identity ⟨"A", "x"⟩)
      = some ⟨0⟩ := by
    decide +kernel
  obtain ⟨closed, -, hsame, hstages⟩ :=
    prepareNodes_links_and_guards hid hanalyse hguard hprepare
  obtain ⟨s, hs, hs'⟩ := Option.map_eq_some_iff.1 hinit
  obtain ⟨close, -, hbodies⟩ := hstages ⟨1⟩ s hs
  obtain ⟨hlinked, hown⟩ := hbodies ⟨⟨0⟩, 0⟩ (by simp [hs'])
  refine ⟨report, c, counts, c', made, c'', hanalyse, hguard,
    hprepare, ?_, hown⟩
  refine hlinked (.field none ⟨"A", "x"⟩) ?_ ⟨0⟩
    (.read .here hfield) (by decide)
  rw [hsame ⟨1⟩ _ hbody]
  exact List.mem_cons_of_mem _ (List.mem_cons_of_mem _ List.mem_cons_self)

-- ============================================================= what is missed

/-- That an expression reads a field of a stage or calls one of its tagged
methods, through a target that leads through the composition. -/
inductive Accesses (t : Composition) (b : Bindings) (home : CompositionId) :
    Expr → DependencyId → Prop
  | read {target : Option Expr} {f : FieldRef} {place : CompositionId}
      {d : DependencyId} :
      Analysis.Leads t b home target place →
        b.stageOfField? f.identity = some d →
      Accesses t b home (.field target f) d
  | call {target : Option Expr} {m : MethodRef} {args : List Expr}
      {place : CompositionId} {d : DependencyId} :
      Analysis.Leads t b home target place →
        b.stageOfMethod? m.identity = some d →
      Accesses t b home (.call target m args) d

/-- That a method bound to a stage with a role accesses another stage, on
which its own does not depend after linking. -/
def Unlinked (s : Sources) (t : Composition) (r : Role) : Prop :=
  ∃ report c closed n d l e, analyse.runOn { sources := s, tree := t }
    = (.ok report, c)
    ∧ closeStages.runOn c = (.ok (), closed)
    ∧ closed.bindings.roleOf? (closed.sources.method l).id = some (n, r)
    ∧ e ∈ (closed.sources.method l).bodyOrEmpty.exprs
    ∧ Accesses c.tree c.bindings (c.compositionOf n) e d ∧ d ≠ n
    ∧ c.graph.dependsOn n d = false

/-- That a method bound to a stage with a role accesses a field of another
one in the end. -/
def Unguarded (s : Sources) (t : Composition) (r : Role) : Prop :=
  ∃ report c counts c' made c'' n d l f,
    analyse.runOn { sources := s, tree := t } = (.ok report, c)
      ∧ guardNodes.runOn c = (.ok counts, c')
      ∧ prepareNodes.runOn c' = (.ok made, c'')
      ∧ c''.bindings.roleOf? (c''.sources.method l).id = some (n, r)
      ∧ f ∈ (c''.sources.method l).bodyOrEmpty.fields
      ∧ c.bindings.stageOfField? f.identity = some d ∧ d ≠ n

/-- The field that an expression accesses, or the method it calls, where it
has no target. -/
def memberHere? : Expr → Option (FieldRef ⊕ MethodRef)
  | .field none f => some (.inl f)
  | .call none m _ => some (.inr m)
  | _ => none

/-- What accesses a stage without a target. -/
theorem accesses_of_memberHere? {t : Composition} {b : Bindings}
    {home : CompositionId} {member : FieldRef ⊕ MethodRef} {body : Block}
    (h : ∃ e ∈ body.exprs, memberHere? e = some member)
    (hd : member.elim (fun f => b.stageOfField? f.identity)
      (fun m => b.stageOfMethod? m.identity) = some d) :
    ∃ e ∈ body.exprs, Accesses t b home e d := by
  obtain ⟨e, he, hmember⟩ := h
  refine ⟨e, he, ?_⟩
  unfold memberHere? at hmember
  split at hmember
  · obtain rfl := Option.some.inj hmember
    exact .read .here hd
  · obtain rfl := Option.some.inj hmember
    exact .call .here hd
  · cases hmember

/-- What the making of all close methods leaves after an analysis. -/
def closedOf (s : Sources) (t : Composition) : Compilation :=
  (closeStages.runOn (analysedOf s t)).2

theorem unlinked_of_memberHere? {s : Sources} {t : Composition} {r : Role}
    (n d : DependencyId) (l : Location) (member : FieldRef ⊕ MethodRef)
    (hruns : (analyse.runOn { sources := s, tree := t }).1.isOk = true
      ∧ (closeStages.runOn (analysedOf s t)).1.isOk = true)
    (hbody : (closedOf s t).bindings.roleOf?
      ((closedOf s t).sources.method l).id = some (n, r)
      ∧ ∃ e ∈ ((closedOf s t).sources.method l).bodyOrEmpty.exprs,
      memberHere? e = some member)
    (hd : member.elim
      (fun f => (analysedOf s t).bindings.stageOfField? f.identity)
        (fun m => (analysedOf s t).bindings.stageOfMethod? m.identity) = some d
      ∧ d ≠ n ∧ (analysedOf s t).graph.dependsOn n d = false) :
    Unlinked s t r := by
  obtain ⟨report, hanalyse⟩ := exists_runOn_eq hruns.1
  obtain ⟨⟨⟩, hclose⟩ := exists_runOn_eq hruns.2
  obtain ⟨e, he, haccesses⟩ := accesses_of_memberHere? hbody.2 hd.1
  exact ⟨report, analysedOf s t, closedOf s t, n, d, l, e, hanalyse, hclose,
    hbody.1, he, haccesses, hd.2⟩

/-- One type with a stage `B` whose predicate reads the field of a stage
`A`. -/
def predicateSources : Sources :=
  let a : Field :=
    { name := "a", type := .int, init := some (.literal (.int (-1))) }
  let b : Field := { name := "b", type := .int }
  let check : Expr := .binary .gt (.field none ⟨"A", "a"⟩) (.literal (.int 0))
  let bInit : Method :=
    { name := "bInit", returns := .boolean, body := some [.ret (some check)] }
  let closeB : Method := { name := "closeB", returns := .void }
  let t : TypeDecl :=
    { TypeDecl.participating "A" with
      fields := [a, b], methods := [bInit, closeB] }
  { decls := [t.assignIdentities] }

/-- An interface with a stage `T` and its tagged method `foo`, and a type
that implements `foo` and calls that of the interface to make its stage
`X`. -/
def standInSources : Sources :=
  let field (name : String) : Field :=
    { name, type := .int, init := some (.literal (.int (-1))) }
  let foo : Method := { name := "foo", returns := .void }
  let make : Stmt := .expr (.call none ⟨"I", "foo", []⟩ [])
  let initX : Method :=
    { name := "initX", returns := .void, body := some [make] }
  let i : TypeDecl :=
    { TypeDecl.participating "I" with
      kind := .interfaceType
      fields := [field "t"]
      methods := [{ foo with markers := [.stage "T"] }] }
  let q : TypeDecl :=
    { TypeDecl.participating "Q" with
      interfaces := [.named "I"]
      fields := [field "x"]
      methods := [initX, foo] }
  { decls := [i.assignIdentities, q.assignIdentities] }

/-- Both types at the root. -/
def standInTree : Composition :=
  { nodes := [{ decls := [⟨0⟩, ⟨1⟩] }]
    leafNodes := [(⟨0⟩, Composition.root), (⟨1⟩, Composition.root)]
    linkNodes := [(⟨0⟩, Composition.root), (⟨1⟩, Composition.root)] }

/-- A declared predicate is neither linked nor guarded. A reset is not
linked to a stage that its sentinel is a field of by its name only, and a
call not to the stage that owns the method where a method group stands in
for it. -/
theorem prepareNodes_misses_predicates :
    Unlinked predicateSources pairTree .predicate
      ∧ Unguarded predicateSources pairTree .predicate
      ∧ Unlinked swappedSources pairTree .close
      ∧ Unlinked standInSources standInTree .init := by
  refine ⟨?_, ?_, ?_, ?_⟩
  · exact unlinked_of_memberHere? ⟨1⟩ ⟨0⟩ ⟨⟨0⟩, 0⟩ (.inl ⟨"A", "a"⟩)
      (by decide +kernel) (by decide +kernel) (by decide +kernel)
  · let c₀ : Compilation := { sources := predicateSources, tree := pairTree }
    let c := (analyse.runOn c₀).2
    let c' := (guardNodes.runOn c).2
    let c'' := (prepareNodes.runOn c').2
    obtain ⟨report, hanalyse⟩ :=
      exists_runOn_eq (x := analyse) (c := c₀) (by decide +kernel)
    obtain ⟨counts, hguard⟩ :=
      exists_runOn_eq (x := guardNodes) (c := c) (by decide +kernel)
    obtain ⟨made, hprepare⟩ :=
      exists_runOn_eq (x := prepareNodes) (c := c') (by decide +kernel)
    have hrole : c''.bindings.roleOf? (c''.sources.method ⟨⟨0⟩, 0⟩).id
        = some (⟨1⟩, .predicate) := by
      decide +kernel
    have hreads :
        ⟨"A", "a"⟩ ∈ (c''.sources.method ⟨⟨0⟩, 0⟩).bodyOrEmpty.fields := by
      decide +kernel
    have hstage : c.bindings.stageOfField? (FieldRef.identity ⟨"A", "a"⟩)
        = some ⟨0⟩ := by
      decide +kernel
    exact ⟨report, c, counts, c', made, c'', ⟨1⟩, ⟨0⟩, ⟨⟨0⟩, 0⟩, ⟨"A", "a"⟩,
      hanalyse, hguard, hprepare, hrole, hreads, hstage, by decide⟩
  · exact unlinked_of_memberHere? ⟨0⟩ ⟨1⟩ ⟨⟨0⟩, 0⟩ (.inl ⟨"A", "x"⟩)
      (by decide +kernel) (by decide +kernel) (by decide +kernel)
  · exact unlinked_of_memberHere? ⟨1⟩ ⟨0⟩ ⟨⟨1⟩, 0⟩ (.inr ⟨"I", "foo", []⟩)
      (by decide +kernel) (by decide +kernel) (by decide +kernel)

end Stagewise.Lifecycle
