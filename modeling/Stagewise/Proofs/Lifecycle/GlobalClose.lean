/-
The global close method closes everything.

# The calls

When it is made every stage has its `doClose` method
(`prepareNodes_ends`), and resolving references leaves what these methods
are called. The body goes through the topological order backwards and
calls the method of each stage, from the root to the node of the stage's
leaf (`ClosesStage`).

# Running it

Such a call ends its stage if that is initialized. When its turn comes,
the stages that depend on it, directly or through method groups, had
theirs. So from any set of stages, none is initialized in the end, and none
is closed while one is that depends on it (`ClosesAll.run`).
-/
import Stagewise.Proofs.Analysis.Frames
import Stagewise.Proofs.Lifecycle.Evolving
import Stagewise.Proofs.Merge.References

namespace Stagewise

namespace Lifecycle

open Compilation Stagewise.Composition Step
open Relation (TransGen)

variable {c c' : Compilation} {g : DependencyGraph} {n : DependencyId}

-- ================================================================= running it

/-- Run the `doClose` method of a stage: the close body of the stage, if it
is initialized. -/
def Cascade.doClose (r : Cascade) (n : DependencyId) : Cascade :=
  if n ∈ r.initialized then r.runBody n else r

/-- Run a call of a `doClose` method. Nothing else has a result. -/
def runCloseCall (b : Bindings) (r : Cascade) : Stmt → Option Cascade
  | .expr (.call (some _) m []) =>
      match b.roleOf? m.identity with
      | some (n, .doClose) => some (r.doClose n)
      | _ => none
  | _ => none

/-- Run a body of such calls while some stages are initialized. -/
def runGlobalClose (b : Bindings) (stages : Finset DependencyId)
    (body : Block) :
    Option Cascade :=
  body.foldlM (runCloseCall b) { initialized := stages }

/-- A call ends its stage, if none that depends on the stage is initialized
any more. -/
theorem doClose_removes {r : Cascade}
    (hn : ∀ u ∈ r.initialized, ¬ TransGen g.Depends u n) :
    Removes g (· = n) r (r.doClose n) := by
  unfold Cascade.doClose
  split
  · rename_i hin
    have hnone : Removes g (fun _ => False) r r := .refl fun _ _ => id
    refine (hnone.runBody hin id fun u hu hun => hn u hu hun).congr
      fun t _ => ?_
    exact or_iff_left id
  · rename_i hin
    refine .refl fun t ht he => hin (he ▸ ht)

/-- Calls for stages in an order in which dependants come first end them
all. -/
theorem foldl_doClose_removes {ns : List DependencyId} {r : Cascade}
    (hg : g.Acyclic)
    (hns : ns.Pairwise fun a b => ¬ TransGen g.Depends b a)
    (hr : ∀ u ∈ r.initialized, u ∈ ns) :
    Removes g (· ∈ ns) r (ns.foldl Cascade.doClose r) := by
  induction ns generalizing r with
  | nil => exact .refl fun _ _ ht => (nomatch ht)
  | cons n ns ih =>
      obtain ⟨hn, hns⟩ := List.pairwise_cons.1 hns
      have hfirst : Removes g (· = n) r (r.doClose n) := by
        refine doClose_removes fun u hu hun => ?_
        rcases List.mem_cons.1 (hr u hu) with rfl | hmem
        · exact hg u hun
        · exact hn u hmem hun
      have hrest := ih (r := r.doClose n) hns fun u hu => by
        obtain ⟨hur, hne⟩ := (hfirst.initialized u).1 hu
        exact (List.mem_cons.1 (hr u hur)).resolve_left hne
      exact (hfirst.trans hrest).congr fun t _ => List.mem_cons.symm

-- ================================================================== the calls

/-- That a statement calls the finished `doClose` method of a stage, on the
access from the root to the node of the stage's leaf. -/
def ClosesStage (c : Compilation) (n : DependencyId) (s : Stmt) : Prop :=
  ∃ place l, ((c.graph.get n).decl, place) ∈ c.tree.leafNodes
    ∧ c.progress n .doClose = .done l ∧ Ends c n l
    ∧ s = .expr (.call (some (c.tree.access c.sources Composition.root place))
        (c.sources.methodRef l) [])

theorem runCloseCall_of_closesStage {s : Stmt} (h : ClosesStage c n s)
    (r : Cascade) :
    runCloseCall c.bindings r s = some (r.doClose n) := by
  obtain ⟨place, l, -, -, hends, rfl⟩ := h
  dsimp only [runCloseCall]
  rw [hends.role]

/-- A body that calls one stage after the other runs them in this order. -/
theorem runGlobalClose_eq {order : List DependencyId} {body : Block}
    {stages : Finset DependencyId}
    (h : List.Forall₂ (ClosesStage c) order body) :
    runGlobalClose c.bindings stages body
      = some (order.foldl Cascade.doClose { initialized := stages }) := by
  unfold runGlobalClose
  generalize ({ initialized := stages } : Cascade) = r
  induction h generalizing r with
  | nil => rfl
  | cons hcall _ ih =>
      rw [List.foldlM_cons, runCloseCall_of_closesStage hcall]
      exact ih _

/-- What is found for the selected ones of a list, in their order. -/
theorem forall₂_filter_filterMap {α β : Type} {R : α → β → Prop} {p : α → Bool}
    {f : α → Option β} {as : List α} (hsome : ∀ a ∈ as, p a = true →
      ∃ b, f a = some b ∧ R a b)
    (hnone : ∀ a ∈ as, p a = false → f a = none) :
    List.Forall₂ R (as.filter p) (as.filterMap f) := by
  induction as with
  | nil => exact .nil
  | cons a as ih =>
      obtain ⟨ha, has⟩ := List.forall_mem_cons.1 hsome
      obtain ⟨ha', has'⟩ := List.forall_mem_cons.1 hnone
      cases hp : p a with
      | true =>
          obtain ⟨b, hb, hR⟩ := ha hp
          rw [List.filter_cons_of_pos hp, List.filterMap_cons_some hb]
          exact .cons hR (ih has has')
      | false =>
          rw [List.filter_cons_of_neg (by simp [hp]),
            List.filterMap_cons_none (ha' hp)]
          exact ih has has'

/-- In an order without repetitions, what must come first does. -/
theorem pairwise_of_sublists {R : DependencyId → DependencyId → Prop}
    {ns : List DependencyId}
    (h : ns.Nodup) (hR : ∀ a ∈ ns, ∀ b ∈ ns, R a b → [a, b].Sublist ns) :
    ns.Pairwise fun a b => ¬ R b a := by
  refine List.pairwise_iff_forall_sublist.2 fun {a b} hab hba => ?_
  have hmem := hab.subset
  have hlt := DependencyGraph.idxOf_lt_of_sublist h hab
  have hlt' := DependencyGraph.idxOf_lt_of_sublist h
    (hR b (hmem (by simp)) a (hmem (by simp)) hba)
  omega

/-- What the body of the global close method calls: the stages in an order
in which dependants come first. -/
structure ClosesAll (g : DependencyGraph) (c : Compilation)
    (order : List DependencyId) (body : Block) : Prop where
  calls : List.Forall₂ (ClosesStage c) order body
  stages : order.Perm g.stages
  before : ∀ a ∈ g.stages, ∀ b ∈ g.stages, TransGen g.Depends a b →
    [a, b].Sublist order

/-- Run from any initialized stages, such a body leaves none, runs no close
body twice, and none while a stage is initialized that depends on its
own. -/
theorem ClosesAll.run {order : List DependencyId} {body : Block}
    (hg : g.Acyclic)
    (h : ClosesAll g c order body) {stages : Finset DependencyId}
    (hstages : ∀ t ∈ stages, t ∈ g.stages) :
    ∃ r, runGlobalClose c.bindings stages body = some r ∧ r.initialized = ∅
      ∧ (r.bodies.map Prod.fst).Nodup
      ∧ ∀ b ∈ r.bodies, ∀ u ∈ b.2, ¬ TransGen g.Depends u b.1 := by
  have hmem : ∀ t, t ∈ order ↔ t ∈ g.stages := fun t => h.stages.mem_iff
  have hnodup : order.Nodup :=
    h.stages.nodup_iff.2 ((DependencyGraph.nodup_ids g).filter _)
  have hpairwise :=
      pairwise_of_sublists (R := TransGen g.Depends) hnodup fun a ha b hb =>
    h.before a ((hmem a).1 ha) b ((hmem b).1 hb)
  have hremoves :=
    foldl_doClose_removes (r := { initialized := stages }) hg hpairwise
    fun u hu => (hmem u).2 (hstages u hu)
  obtain ⟨ran, hran, hran_nodup, hbodies⟩ := hremoves.bodies
  rw [List.append_nil] at hran
  refine ⟨_, runGlobalClose_eq h.calls, ?_, hran ▸ hran_nodup, fun b hb => ?_⟩
  · refine Finset.eq_empty_of_forall_notMem fun t ht => ?_
    obtain ⟨htI, hnot⟩ := (hremoves.initialized t).1 ht
    exact hnot ((hmem t).2 (hstages t htI))
  · exact (hbodies b (hran ▸ hb)).2.2

/-- A stage with a finished `doClose` method is called. -/
theorem globalCloseCall?_of_stage {place : CompositionId} {l : Location}
    (hplace : ((c.graph.get n).decl, place) ∈ c.tree.leafNodes)
    (hcomposition : c.compositionOf n = place)
    (hl : c.progress n .doClose = .done l) (hends : Ends c n l) :
    ∃ s, globalCloseCall? c n = some s ∧ ClosesStage c n s := by
  refine ⟨_, ?_, place, l, hplace, hl, hends, rfl⟩
  obtain ⟨s, hs⟩ := exists_stage_of_done hl
  rw [progress_eq hs] at hl
  have hdone : s.doClose = .done l := hl
  unfold globalCloseCall?
  rw [hs, hcomposition]
  simp [hdone]

/-- The body of the global close method closes all stages, if each has its
`doClose` method and its leaf a node. -/
theorem closesAll_globalCloseBody (hg : c.graph.Acyclic)
    (hplace : ∀ n ∈ c.graph.ids, ((c.graph.get n).decl, c.compositionOf n)
      ∈ c.tree.leafNodes)
    (hends : ∀ n ∈ c.graph.stages, ∃ l, c.progress n .doClose = .done l
      ∧ Ends c n l) :
    ClosesAll c.graph c (c.graph.topologicalOrder.reverse.filter fun n =>
      (c.graph.get n).isStage) (globalCloseBody c) := by
  have hmem : ∀ n, n ∈ c.graph.topologicalOrder.reverse
      ↔ n ∈ c.graph.ids := fun n => by
    rw [List.mem_reverse, DependencyGraph.mem_topologicalOrder hg]
  refine ⟨?_, ?_, fun a ha b hb hab => ?_⟩
  · refine forall₂_filter_filterMap (fun n hn hstage => ?_)
      fun n _ hgroup => ?_
    · have hids := (hmem n).1 hn
      obtain ⟨l, hl, he⟩ := hends n (List.mem_filter.2 ⟨hids, hstage⟩)
      exact globalCloseCall?_of_stage (hplace n hids) rfl hl he
    · have hnone : (c.graph.get n).stage? = none :=
        Option.not_isSome_iff_eq_none.1 fun hstage =>
          Bool.false_ne_true (hgroup.symm.trans hstage)
      unfold globalCloseCall?
      rw [hnone]
      rfl
  · unfold DependencyGraph.stages
    exact ((List.reverse_perm _).trans
      (DependencyGraph.topologicalOrder_perm_ids hg)).filter _
  · have hsublist :=
      (DependencyGraph.sublist_topologicalOrder hg hab).reverse.filter
      fun n => (c.graph.get n).isStage
    have hpair : [a, b].filter (fun n => (c.graph.get n).isStage) = [a, b] :=
      List.filter_eq_self.2
        (by simp [(mem_stages.1 ha).2, (mem_stages.1 hb).2])
    have hreverse : [b, a].reverse = [a, b] := rfl
    rwa [hreverse, hpair] at hsublist

-- ================================================================= the method

/-- Taking on the close interface leaves methods and name. -/
theorem withCloseInterface_keeps (options : Options) (d : TypeDecl) :
    ((options.closeInterface.map (addInterface d)).getD d).methods = d.methods
      ∧ ((options.closeInterface.map (addInterface d)).getD d).name
        = d.name := by
  cases options.closeInterface with
  | none => exact ⟨rfl, rfl⟩
  | some i =>
      simp only [Option.map_some, Option.getD_some, addInterface]
      split <;> exact ⟨rfl, rfl⟩

/-- The new method stands behind the others of the root's first
declaration. -/
theorem addGlobalClose_adds {d : DeclId}
    (hd : (c.tree.get Composition.root).decls.head? = some d)
    (hlt : d.index < c.sources.decls.length) :
    ∃ close c', addGlobalClose.runOn c = (.ok (globalCloseBody c).length, c')
      ∧ (c'.sources.get d).methods = (c.sources.get d).methods ++ [close]
      ∧ close.name = "close" ∧ close.params = []
      ∧ close.body = some (globalCloseBody c) := by
  let close := (procedure "close" .void (globalCloseBody c)).withIdentity
    (c.sources.name d)
  let withClose : TypeDecl → TypeDecl := fun t =>
    ((c.options.closeInterface.map (addInterface t)).getD t).addMethod
      (procedure "close" .void (globalCloseBody c))
  refine ⟨close, { c with sources := c.sources.modify d withClose }, ?_,
    ?_, ?_, ?_, ?_⟩
  · unfold addGlobalClose
    rw [runOn_bind, runOn_get]
    simp only [hd]
    rfl
  · show ((c.sources.modify d withClose).get d).methods = _
    obtain ⟨hmethods, hname⟩ :=
      withCloseInterface_keeps c.options (c.sources.get d)
    rw [Sources.get_modify hlt, if_pos rfl]
    simp only [withClose, TypeDecl.addMethod, hmethods, hname]
    rfl
  · simp only [close, Method.withIdentity]
    split <;> rfl
  · simp only [close, Method.withIdentity]
    split <;> rfl
  · exact Method.body_withIdentity _ _

/-- Without a declaration at the root there is nothing to add the method
to. -/
theorem addGlobalClose_empty (hd : (c.tree.get Composition.root).decls = []) :
    addGlobalClose.runOn c
      = (.error (.emptyComposition Composition.root.text), c) := by
  unfold addGlobalClose
  rw [runOn_bind, runOn_get]
  simp only [hd, List.head?_nil]
  rfl

/-- After an analysis, the adding of guards and lifecycle and the
resolution of references, a close method is added to the root's first
declaration, if there is one. It calls the `doClose` method of every stage
once and nothing else, a stage before all that it depends on, directly or
through others, and each on the access from the root to the node of the
stage's leaf. Run from any initialized stages it leaves none initialized,
and runs no close body while a stage is initialized that depends on its
own. -/
theorem addGlobalClose_closes_all {sources : Sources} {tree : Composition}
    {options : Options} {report : AnalysisReport} {guards : GuardReport}
    {lifecycle : LifecycleReport} {references : Merge.ReferenceReport}
    {c₁ c₂ c₃ : Compilation} (htree : Built sources tree)
    (hanalyse : analyse.runOn { sources, tree, options } = (.ok report, c₁))
    (hguard : guardNodes.runOn c₁ = (.ok guards, c₂))
    (hprepare : prepareNodes.runOn c₂ = (.ok lifecycle, c₃))
    (hresolve : Merge.resolveReferences.runOn c₃ = (.ok references, c)) :
    ((tree.get Composition.root).decls = []
        ∧ addGlobalClose.runOn c
          = (.error (.emptyComposition Composition.root.text), c))
      ∨ ∃ d close order body c',
      (tree.get Composition.root).decls.head? = some d
        ∧ addGlobalClose.runOn c = (.ok body.length, c')
        ∧ (c'.sources.get d).methods = (c.sources.get d).methods ++ [close]
        ∧ close.name = "close" ∧ close.params = [] ∧ close.body = some body
        ∧ ClosesAll c₁.graph c order body
        ∧ ∀ stages : Finset DependencyId, (∀ t ∈ stages, t ∈ c₁.graph.stages) →
            ∃ r, runGlobalClose c.bindings stages body = some r
              ∧ r.initialized = ∅
              ∧ (r.bodies.map Prod.fst).Nodup
              ∧ ∀ b ∈ r.bodies, ∀ u ∈ b.2,
              ¬ TransGen c₁.graph.Depends u b.1 := by
  have ht := htree.formed
  obtain ⟨hunmade, hform, hsources, hacyclic⟩ :=
    Analysis.analyse_unmade ht rfl report c₁ hanalyse
  have hevolves : Evolves c₁ c₂ := guardNodes_evolves guards c₂ hguard
  have hending : Ending c₁ := ⟨hunmade.decl, fun n l hl => by
    rw [hunmade.unstarted] at hl
    cases hl⟩
  obtain ⟨hevolves₃, hends⟩ :=
    prepareNodes_ends (hevolves.ending hending) lifecycle c₃ hprepare
  have hevolved : Evolves c₁ c₃ := hevolves.trans hevolves₃
  obtain ⟨s, rfl, hresolved⟩ :=
    Merge.resolveReferences_resolved references c hresolve
  have hshape := hevolved.sameShape
  have hform₃ : SameForm tree c₃.tree := hevolved.tree ▸ hform
  have hdecls : (c₃.tree.get Composition.root).decls
      = (tree.get Composition.root).decls :=
    hform₃.decls Composition.root
  cases hd : (tree.get Composition.root).decls.head? with
  | none =>
      rw [List.head?_eq_none_iff] at hd
      exact Or.inl ⟨hd, addGlobalClose_empty (c := { c₃ with sources := s })
        (hdecls.trans hd)⟩
  | some d =>
      -- a method that is done is called as before the references were resolved
      have hends' : ∀ n ∈ c₃.graph.stages, ∃ l,
          c₃.progress n .doClose = .done l
            ∧ Ends { c₃ with sources := s } n l := by
        intro n hn
        obtain ⟨l, hl, he⟩ := hends n hn
        refine ⟨l, hl, hresolved.has.2 he.has, ?_⟩
        show c₃.bindings.roleOf? (s.methodRef l).identity = _
        rw [hresolved.methodRef]
        exact he.role
      have hplace : ∀ n ∈ c₃.graph.ids,
          ((c₃.graph.get n).decl, c₃.compositionOf n) ∈ c₃.tree.leafNodes := by
        intro n hn
        obtain ⟨place, hleaf⟩ := Formed.exists_node
          (hevolved.decl n ▸ hunmade.leaf n (hevolved.mem_ids.1 hn))
        rw [hform.leafNodes, ← hform₃.leafNodes] at hleaf
        have hnode : c₃.tree.nodeOf? (c₃.graph.get n).decl = some place :=
          (hform₃.formed ht).nodeOf?_of_leaf hleaf
        unfold Compilation.compositionOf
        rw [hnode]
        exact hleaf
      have hcloses := closesAll_globalCloseBody (c := { c₃ with sources := s })
        (fun n hn => hacyclic n (hshape.links.depends ▸ hn)) hplace hends'
      have hcloses₁ : ClosesAll c₁.graph { c₃ with sources := s } _ _ :=
        ⟨hcloses.calls, hshape.stages ▸ hcloses.stages, by
          rw [← hshape.stages, ← hshape.links.depends]
          exact hcloses.before⟩
      have hlt : d.index < s.decls.length := by
        rw [hresolved.length, hevolved.sources.length, hsources]
        have hleaf := ht.mem_decls.1 (List.mem_of_mem_head? hd)
        exact Sources.lt_of_isParticipating
          (ht.participating d (List.mem_map.2 ⟨_, hleaf, rfl⟩))
      obtain ⟨close, c', hrun, hmethods, hname, hparams, hbody⟩ :=
        addGlobalClose_adds (c := { c₃ with sources := s }) (hdecls ▸ hd) hlt
      exact Or.inr ⟨d, close, _, _, c', rfl, hrun, hmethods, hname, hparams,
        hbody, hcloses₁,
        fun stages hstages => hcloses₁.run hacyclic hstages⟩

/-- Of a type with a stage `X` and a stage `Y` that is made from it, the
method closes both. -/
theorem addGlobalClose_closes_pair :
    ∃ (c₁ c c' : Compilation) (d : DeclId) (close : Method)
    (order : List DependencyId) (body : Block),
    Built pairSources pairTree ∧ addGlobalClose.runOn c = (.ok body.length, c')
      ∧ (c'.sources.get d).methods = (c.sources.get d).methods ++ [close]
      ∧ close.body = some body ∧ ClosesAll c₁.graph c order body
      ∧ ∃ r, runGlobalClose c.bindings {⟨0⟩, ⟨1⟩} body = some r
      ∧ r.initialized = ∅ := by
  let c₀ : Compilation := { sources := pairSources, tree := pairTree }
  let c₁ := (analyse.runOn c₀).2
  let c₂ := (guardNodes.runOn c₁).2
  let c₃ := (prepareNodes.runOn c₂).2
  let c := (Merge.resolveReferences.runOn c₃).2
  have htree : Built pairSources pairTree :=
    .add (n := Composition.root) (d := ⟨0⟩) .start (by decide) rfl
  obtain ⟨report, hanalyse⟩ :=
    exists_runOn_eq (x := analyse) (c := c₀) (by decide +kernel)
  obtain ⟨guards, hguard⟩ :=
    exists_runOn_eq (x := guardNodes) (c := c₁) (by decide +kernel)
  obtain ⟨made, hprepare⟩ :=
    exists_runOn_eq (x := prepareNodes) (c := c₂) (by decide +kernel)
  obtain ⟨references, hresolve⟩ :=
    exists_runOn_eq (x := Merge.resolveReferences) (c := c₃)
      (by decide +kernel)
  have hstages : c₁.graph.stages = [⟨0⟩, ⟨1⟩] := by decide +kernel
  obtain ⟨hempty, -⟩ | ⟨d, close, order, body, c', -, hclose, hmethods, -, -,
      hbody, hcloses, hrun⟩ :=
    addGlobalClose_closes_all htree hanalyse hguard hprepare hresolve
  · cases hempty
  · obtain ⟨r, hr, hnone, -⟩ := hrun {⟨0⟩, ⟨1⟩} fun t ht => by
      rw [hstages]
      simpa using ht
    exact ⟨c₁, c, c', d, close, order, body, htree, hclose, hmethods, hbody,
      hcloses, r, hr, hnone⟩

end Lifecycle

end Stagewise
