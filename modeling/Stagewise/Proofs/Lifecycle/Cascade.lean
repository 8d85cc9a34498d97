/-
Closing a stage closes all that depends on it, once each and dependants
first.

# The procedures

The close method of a stage returns at once when the stage is not
initialized. Otherwise it calls what `closeCalls` lists, in that order,
and then its body ends the stage; a method group only has the calls. The
methods that a compilation makes have these calls
(`closeDependants_closes`).
`closeNode` runs them over the set of initialized stages and keeps a log
of the bodies run, each with the stages that were initialized when it
began.

# The argument

Running the procedure of a node `Removes` the node and all that depends on
it, from any set of stages that is `Initialized`, that is, closed under
dependencies. This also holds where the method returns at once, for then
nothing that depends on the stage is initialized; so it does not matter
that a shared dependant is met along several ways. A procedure that
follows another runs no body a second time, since the stage of a body is
not initialized afterwards.

The depth of the calls is bounded by the places that are left in the
topological order.
-/
import Mathlib.Data.Finset.Basic
import Stagewise.Proofs.Dependency.Order

namespace Stagewise.Lifecycle

open DependencyGraph (Acyclic)
open Relation (TransGen)

variable {g : DependencyGraph} {n d s t : DependencyId}

-- ========================================================== the procedures

/-- The direct dependants that a close-dependants method calls, in the
order of its body: stages, and method groups with such a method of their
own. An empty list stands for no method. -/
def closeCallsWithin (g : DependencyGraph) : Nat → DependencyId →
    List DependencyId
  | 0, _ => []
  | fuel + 1, n => (g.sortedDependants n).filter fun d =>
      (g.get d).isStage || !(closeCallsWithin g fuel d).isEmpty

/-- The calls of a node's close-dependants method. -/
def closeCalls (g : DependencyGraph) (n : DependencyId) : List DependencyId :=
  closeCallsWithin g g.depth n

/-- The stages that are initialized, and the close bodies that were run,
last one first, each with the stages that were initialized before it. -/
structure Cascade where
  initialized : Finset DependencyId
  bodies : List (DependencyId × Finset DependencyId) := []

namespace Cascade

/-- Run the close body of a stage. -/
def runBody (r : Cascade) (n : DependencyId) : Cascade :=
  ⟨r.initialized.erase n, (n, r.initialized) :: r.bodies⟩

end Cascade

/-- Run the close method of a stage, or the close-dependants method of a
method group. Calls nested more than so deep have no result. -/
def closeNode (g : DependencyGraph) : Nat → Cascade → DependencyId →
    Option Cascade
  | 0, _, _ => none
  | depth + 1, r, n =>
      if (g.get n).isStage then
        if n ∈ r.initialized then do
          let r ← (closeCalls g n).foldlM (closeNode g depth) r
          return r.runBody n
        else return r
      else (closeCalls g n).foldlM (closeNode g depth) r

/-- Run the close method of a stage while some stages are initialized. -/
def runClose (g : DependencyGraph) (stages : Finset DependencyId)
    (n : DependencyId) : Option Cascade :=
  closeNode g g.depth { initialized := stages } n

-- =============================================================== the calls

/-- That a node has something to close below it: it is a stage, or a stage
depends on it. -/
def Closes (g : DependencyGraph) (d : DependencyId) : Prop :=
  (g.get d).isStage = true ∨ ∃ t ∈ g.stages, TransGen g.Depends t d

theorem mem_stages : t ∈ g.stages ↔ t ∈ g.ids ∧ (g.get t).isStage = true :=
  List.mem_filter

/-- What depends on a node depends on one of its dependants or is one. -/
theorem exists_dependant_of_transGen (h : TransGen g.Depends t n) :
    ∃ d ∈ g.dependants n, t = d ∨ TransGen g.Depends t d := by
  obtain ⟨d, htd, hdn⟩ := TransGen.tail'_iff.1 h
  refine ⟨d, hdn.mem_dependants, ?_⟩
  rcases Relation.reflTransGen_iff_eq_or_transGen.1 htd with rfl | htd
  · exact Or.inl rfl
  · exact Or.inr htd

/-- The dependants of a node depend on it, and so does what depends on
them. -/
theorem transGen_of_mem_dependants (hn : n ∈ g.ids) (hd : d ∈ g.dependants n)
    (ht : t = d ∨ TransGen g.Depends t d) : TransGen g.Depends t n := by
  have hdn : g.Depends d n :=
    DependencyGraph.depends_iff_mem_dependants.2 ⟨hn, hd⟩
  rcases ht with rfl | ht
  · exact .single hdn
  · exact ht.tail hdn

/-- A node calls something exactly when a stage depends on it. -/
theorem exists_mem_dependants_closes (hn : n ∈ g.ids) :
    (∃ d ∈ g.dependants n, Closes g d) ↔ ∃ t ∈ g.stages,
      TransGen g.Depends t n := by
  constructor
  · intro h
    rcases h with ⟨d, hd, hstage | ⟨t, ht, htd⟩⟩
    · exact ⟨d, mem_stages.2 ⟨DependencyGraph.mem_ids_of_mem_dependants hd,
        hstage⟩, transGen_of_mem_dependants hn hd (Or.inl rfl)⟩
    · exact ⟨t, ht, transGen_of_mem_dependants hn hd (Or.inr htd)⟩
  · intro h
    obtain ⟨t, ht, htn⟩ := h
    obtain ⟨d, hd, rfl | htd⟩ := exists_dependant_of_transGen htn
    · exact ⟨t, hd, Or.inl (mem_stages.1 ht).2⟩
    · exact ⟨d, hd, Or.inr ⟨t, ht, htd⟩⟩

/-- The calls of a node are its dependants that close something, if the
search may go as deep as there are places after the node. -/
theorem mem_closeCallsWithin (hg : g.Acyclic) {fuel : Nat} (hn : n ∈ g.ids)
    (hfuel : g.nodes.length ≤ fuel + g.topologicalOrder.idxOf n) :
    d ∈ closeCallsWithin g fuel n ↔ d ∈ g.dependants n ∧ Closes g d := by
  induction fuel generalizing n d with
  | zero =>
      have := DependencyGraph.idxOf_topologicalOrder_lt_length hg hn
      omega
  | succ fuel ih =>
      rw [closeCallsWithin, List.mem_filter,
        DependencyGraph.mem_sortedDependants hg hn]
      refine and_congr_right fun hd => ?_
      have hids : d ∈ g.ids := DependencyGraph.mem_ids_of_mem_dependants hd
      have hlt := DependencyGraph.idxOf_topologicalOrder_lt hg
        (.single (DependencyGraph.depends_iff_mem_dependants.2 ⟨hn, hd⟩))
      have hcalls : (closeCallsWithin g fuel d).isEmpty = false
          ↔ ∃ t ∈ g.stages, TransGen g.Depends t d := by
        rw [← exists_mem_dependants_closes hids,
          List.isEmpty_eq_false_iff_exists_mem]
        exact exists_congr fun e => ih hids (by omega)
      rw [Bool.or_eq_true, Bool.not_eq_true', hcalls]
      exact Iff.rfl

/-- The calls of a node are its dependants that close something. -/
theorem mem_closeCalls (hg : g.Acyclic) (hn : n ∈ g.ids) :
    d ∈ closeCalls g n ↔ d ∈ g.dependants n ∧ Closes g d := by
  refine mem_closeCallsWithin hg hn ?_
  unfold DependencyGraph.depth
  omega

/-- The calls of a node are the dependants in their order, without the
method groups that have no calls. -/
theorem closeCalls_eq (hg : g.Acyclic) (hn : n ∈ g.ids) :
    closeCalls g n = (g.sortedDependants n).filter fun d =>
      (g.get d).isStage || !(closeCalls g d).isEmpty := by
  have hunfold : closeCalls g n = (g.sortedDependants n).filter fun d =>
      (g.get d).isStage || !(closeCallsWithin g g.nodes.length d).isEmpty :=
        rfl
  rw [hunfold]
  refine List.filter_congr fun d hd => ?_
  have hids : d ∈ g.ids := DependencyGraph.mem_ids_of_mem_dependants
    ((DependencyGraph.mem_sortedDependants hg hn).1 hd)
  have hsame : (closeCallsWithin g g.nodes.length d).isEmpty
      = (closeCalls g d).isEmpty := by
    rw [Bool.eq_iff_iff, List.isEmpty_iff, List.isEmpty_iff,
      List.eq_nil_iff_forall_not_mem, List.eq_nil_iff_forall_not_mem]
    refine forall_congr' fun e => not_congr ?_
    rw [mem_closeCalls hg hids, mem_closeCallsWithin hg hids (by omega)]
  rw [hsame]

/-- The calls of a node reach exactly the stages that depend on it. -/
theorem exists_mem_closeCalls (hg : g.Acyclic) (hn : n ∈ g.ids)
    (ht : t ∈ g.stages) :
    (∃ d ∈ closeCalls g n, t = d ∨ TransGen g.Depends t d)
      ↔ TransGen g.Depends t n := by
  constructor
  · intro h
    obtain ⟨d, hd, htd⟩ := h
    exact transGen_of_mem_dependants hn ((mem_closeCalls hg hn).1 hd).1 htd
  · intro h
    obtain ⟨d, hd, htd⟩ := exists_dependant_of_transGen h
    refine ⟨d, (mem_closeCalls hg hn).2 ⟨hd, ?_⟩, htd⟩
    rcases htd with rfl | htd
    · exact Or.inl (mem_stages.1 ht).2
    · exact Or.inr ⟨t, ht, htd⟩

-- ============================================================ what is removed

/-- A set of stages that holds, with each of them, every stage that it
needs. -/
structure Initialized (g : DependencyGraph) (I : Finset DependencyId) :
    Prop where
  stages : ∀ t ∈ I, t ∈ g.stages
  closed : ∀ t ∈ I, ∀ s ∈ g.stages, TransGen g.Depends t s → s ∈ I

variable {P Q : DependencyId → Prop} {r r₁ r₂ : Cascade}

/-- That a procedure removes exactly the stages of a kind, runs the close
body of each of them at most once, and none while a stage is initialized
that depends on it. -/
structure Removes (g : DependencyGraph) (P : DependencyId → Prop)
    (r r₁ : Cascade) : Prop where
  initialized : ∀ t, t ∈ r₁.initialized ↔ t ∈ r.initialized ∧ ¬ P t
  bodies : ∃ ran, r₁.bodies = ran ++ r.bodies ∧ (ran.map Prod.fst).Nodup
    ∧ ∀ b ∈ ran, b.1 ∈ r.initialized ∧ P b.1
      ∧ ∀ u ∈ b.2, ¬ TransGen g.Depends u b.1

/-- Doing nothing removes what is not there. -/
theorem Removes.refl (h : ∀ t ∈ r.initialized, ¬ P t) : Removes g P r r := by
  refine ⟨fun t => ?_, [], rfl, List.nodup_nil, fun _ hb => (nomatch hb)⟩
  exact ⟨fun ht => ⟨ht, h t ht⟩, fun ht => ht.1⟩

/-- Only the initialized stages count among those to remove. -/
theorem Removes.congr (h : Removes g P r r₁)
    (hPQ : ∀ t ∈ r.initialized, P t ↔ Q t) :
    Removes g Q r r₁ := by
  obtain ⟨hin, ran, hran, hnodup, hb⟩ := h
  refine ⟨fun t => ?_, ran, hran, hnodup, fun b hbr => ?_⟩
  · rw [hin]
    exact and_congr_right fun ht => not_congr (hPQ t ht)
  · obtain ⟨hbin, hbP, hbu⟩ := hb b hbr
    exact ⟨hbin, (hPQ _ hbin).1 hbP, hbu⟩

/-- Two procedures in sequence. No body runs in both, for after the first
one its stages are not initialized. -/
theorem Removes.trans (h : Removes g P r r₁) (h' : Removes g Q r₁ r₂) :
    Removes g (fun t => P t ∨ Q t) r r₂ := by
  obtain ⟨hin, ran, hran, hnodup, hb⟩ := h
  obtain ⟨hin', ran', hran', hnodup', hb'⟩ := h'
  refine ⟨fun t => ?_, ran' ++ ran, ?_, ?_, fun b hbr => ?_⟩
  · rw [hin', hin, not_or, and_assoc]
  · rw [hran', hran, List.append_assoc]
  · rw [List.map_append, List.nodup_append]
    refine ⟨hnodup', hnodup, ?_⟩
    rintro s hs' _ hs rfl
    obtain ⟨b', hbr', rfl⟩ := List.mem_map.1 hs'
    obtain ⟨b, hbr, hbb'⟩ := List.mem_map.1 hs
    have hleft := ((hin _).1 (hb' b' hbr').1).2
    exact hleft (hbb' ▸ (hb b hbr).2.1)
  · rcases List.mem_append.1 hbr with hbr | hbr
    · obtain ⟨hbin, hbQ, hbu⟩ := hb' b hbr
      exact ⟨((hin _).1 hbin).1, Or.inr hbQ, hbu⟩
    · obtain ⟨hbin, hbP, hbu⟩ := hb b hbr
      exact ⟨hbin, Or.inl hbP, hbu⟩

/-- The close body of a stage, when nothing that depends on the stage is
initialized any more. -/
theorem Removes.runBody (h : Removes g P r r₁) (hn : n ∈ r.initialized)
    (hP : ¬ P n) (hu : ∀ u ∈ r.initialized, TransGen g.Depends u n → P u) :
    Removes g (fun t => t = n ∨ P t) r (r₁.runBody n) := by
  have hstep : Removes g (· = n) r₁ (r₁.runBody n) := by
    refine ⟨fun t => ?_, [(n, r₁.initialized)], rfl,
      List.nodup_singleton n, ?_⟩
    · show t ∈ r₁.initialized.erase n ↔ _
      rw [Finset.mem_erase, and_comm]
    · intro b hb
      obtain rfl := List.mem_singleton.1 hb
      refine ⟨(h.initialized n).2 ⟨hn, hP⟩, rfl, fun u hur hun => ?_⟩
      obtain ⟨hui, huP⟩ := (h.initialized u).1 hur
      exact huP (hu u hui hun)
  exact (h.trans hstep).congr fun t _ => or_comm

/-- Removing stages together with all that depends on them leaves a set
closed under dependencies. -/
theorem Removes.closed (h : Removes g P r r₁)
    (hr : Initialized g r.initialized)
    (hP : ∀ t s, P s → TransGen g.Depends t s → P t) :
    Initialized g r₁.initialized := by
  refine ⟨fun t ht => hr.stages t ((h.initialized t).1 ht).1, ?_⟩
  intro t ht s hs hts
  obtain ⟨htr, htP⟩ := (h.initialized t).1 ht
  exact (h.initialized s).2
    ⟨hr.closed t htr s hs hts, fun hsP => htP (hP t s hsP hts)⟩

-- ============================================================== the cascade

/-- That a procedure, run for a node, removes the node and all that
depends on it. -/
def ClosesFrom (g : DependencyGraph)
    (f : Cascade → DependencyId → Option Cascade) (n : DependencyId) : Prop :=
  ∀ r, Initialized g r.initialized → ∃ r₁, f r n = some r₁
    ∧ Removes g (fun t => t = n ∨ TransGen g.Depends t n) r r₁

/-- One call after the other removes what each of them removes. -/
theorem foldlM_removes {f : Cascade → DependencyId → Option Cascade}
    {calls : List DependencyId} (hf : ∀ d ∈ calls, ClosesFrom g f d)
    (hr : Initialized g r.initialized) :
    ∃ r₁, calls.foldlM f r = some r₁
      ∧ Removes g (fun t => ∃ d ∈ calls, t = d ∨ TransGen g.Depends t d) r
        r₁ := by
  induction calls generalizing r with
  | nil => exact ⟨r, rfl, Removes.refl fun t _ ⟨_, hd, _⟩ => (nomatch hd)⟩
  | cons d calls ih =>
      obtain ⟨r₁, hrun, hremoves⟩ := hf d List.mem_cons_self r hr
      have hclosed : Initialized g r₁.initialized := by
        refine hremoves.closed hr fun t s hs hts => Or.inr ?_
        rcases hs with rfl | hs
        · exact hts
        · exact hts.trans hs
      obtain ⟨r₂, hrun', hremoves'⟩ :=
        ih (fun e he => hf e (List.mem_cons_of_mem _ he)) hclosed
      refine ⟨r₂, ?_, (hremoves.trans hremoves').congr fun t _ => ?_⟩
      · rw [List.foldlM_cons, hrun]
        exact hrun'
      · rw [List.exists_mem_cons_iff]

/-- The procedure of a node removes the node and all that depends on it,
if calls may nest as deep as there are places after the node. -/
theorem closeNode_closesFrom (hg : g.Acyclic) {depth : Nat} (hn : n ∈ g.ids)
    (hdepth : g.nodes.length ≤ depth + g.topologicalOrder.idxOf n) :
    ClosesFrom g (closeNode g depth) n := by
  induction depth generalizing n with
  | zero =>
      have := DependencyGraph.idxOf_topologicalOrder_lt_length hg hn
      omega
  | succ depth ih =>
      intro r hr
      have hcalls : ∀ d ∈ closeCalls g n,
          ClosesFrom g (closeNode g depth) d := by
        intro d hd
        have hd := ((mem_closeCalls hg hn).1 hd).1
        have hlt := DependencyGraph.idxOf_topologicalOrder_lt hg
          (.single (DependencyGraph.depends_iff_mem_dependants.2 ⟨hn, hd⟩))
        exact ih (DependencyGraph.mem_ids_of_mem_dependants hd) (by omega)
      obtain ⟨r₁, hrun, hremoves⟩ := foldlM_removes hcalls hr
      have hremoves : Removes g (TransGen g.Depends · n) r r₁ :=
        hremoves.congr fun t ht => exists_mem_closeCalls hg hn (hr.stages t ht)
      rw [closeNode]
      split
      · rename_i hstage
        split
        · rename_i hin
          -- the calls come first, so that nothing needs the stage any more
          refine ⟨r₁.runBody n, ?_, hremoves.runBody hin (hg n)
            fun _ _ hu => hu⟩
          rw [hrun]
          rfl
        · rename_i hin
          -- the early return: what needs the stage is not initialized either
          refine ⟨r, rfl, Removes.refl fun t ht htn => ?_⟩
          rcases htn with rfl | htn
          · exact hin ht
          · exact hin (hr.closed t ht n (mem_stages.2 ⟨hn, hstage⟩) htn)
      · rename_i hstage
        refine ⟨r₁, hrun, hremoves.congr fun t ht => (or_iff_right ?_).symm⟩
        intro he
        subst he
        exact hstage (mem_stages.1 (hr.stages t ht)).2

/-- Closing an initialized stage ends exactly the stage and the initialized
stages that depend on it, directly or not. It runs the close body of each
stage at most once, and none while a stage that depends on it is
initialized. -/
theorem runClose_removes (hg : g.Acyclic) {stages : Finset DependencyId}
    (hI : Initialized g stages) (hs : s ∈ stages) :
    ∃ r, runClose g stages s = some r
      ∧ (∀ t, t ∈ r.initialized
          ↔ t ∈ stages ∧ ¬ (t = s ∨ TransGen g.Depends t s))
      ∧ (r.bodies.map Prod.fst).Nodup
      ∧ ∀ b ∈ r.bodies, ∀ u ∈ b.2, ¬ TransGen g.Depends u b.1 := by
  have hids : s ∈ g.ids := (mem_stages.1 (hI.stages s hs)).1
  have hdepth : g.nodes.length ≤ g.depth + g.topologicalOrder.idxOf s := by
    unfold DependencyGraph.depth
    omega
  obtain ⟨r, hrun, hremoves⟩ :=
    closeNode_closesFrom hg hids hdepth { initialized := stages } hI
  obtain ⟨ran, hran, hnodup, hb⟩ := hremoves.bodies
  rw [List.append_nil] at hran
  subst hran
  exact ⟨r, hrun, hremoves.initialized, hnodup, fun b hbr => (hb b hbr).2.2⟩

/-- In the diamond with all stages initialized, closing `A` ends `C` too, to
which two ways lead. -/
theorem runClose_removes_diamond :
    Initialized .diamond {⟨0⟩, ⟨1⟩, ⟨3⟩}
      ∧ ∃ r, runClose .diamond {⟨0⟩, ⟨1⟩, ⟨3⟩} ⟨0⟩ = some r
        ∧ ⟨3⟩ ∉ r.initialized := by
  have hg : Acyclic .diamond := DependencyGraph.checkAcyclic_eq_ok_iff.1 rfl
  have hall : ∀ t, t ∈ DependencyGraph.diamond.stages
      ↔ t ∈ ({⟨0⟩, ⟨1⟩, ⟨3⟩} : Finset DependencyId) := by
    intro t
    rw [show DependencyGraph.diamond.stages = [⟨0⟩, ⟨1⟩, ⟨3⟩] from rfl]
    simp
  have hI : Initialized .diamond {⟨0⟩, ⟨1⟩, ⟨3⟩} :=
    ⟨fun t => (hall t).2, fun _ _ s hs _ => (hall s).1 hs⟩
  have hCB : DependencyGraph.diamond.Depends ⟨3⟩ ⟨1⟩ := by
    rw [DependencyGraph.depends_iff]
    decide
  have hBA : DependencyGraph.diamond.Depends ⟨1⟩ ⟨0⟩ := by
    rw [DependencyGraph.depends_iff]
    decide
  obtain ⟨r, hrun, hleft, -⟩ := runClose_removes hg hI (s := ⟨0⟩) (by simp)
  exact ⟨hI, r, hrun, fun h =>
    ((hleft _).1 h).2 (Or.inr (.tail (.single hCB) hBA))⟩

end Stagewise.Lifecycle
