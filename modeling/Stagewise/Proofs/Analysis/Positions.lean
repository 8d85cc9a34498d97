/-
The positions of the nodes of an acyclic graph.

Numbering a list of distinct nodes gives each its place in the list
(`position?_setPositions`). Since the topological order lists every node
once, and each after all that it needs, the positions are the numbers from
one to the number of nodes, each given once, and rise along every
dependency (`placeNodes_orders`).
-/
import Mathlib
import Stagewise.Analysis.Positions
import Stagewise.Proofs.Dependency.Order
import Stagewise.Proofs.Step

namespace Stagewise.Analysis

open Relation (TransGen)

variable {b : Bindings} {c : Compilation} {ns : List DependencyId}

-- ================================================================ numbering

/-- Distinct nodes get their places in the list; others keep what they
had. -/
theorem position?_setPositions (h : ns.Nodup) (position : Nat)
    (n : DependencyId) :
    (setPositions b position ns).position? n
      = if n ∈ ns then some (Int.ofNat (position + ns.idxOf n))
        else b.position? n := by
  induction ns generalizing b position with
  | nil => simp [setPositions]
  | cons m ns ih =>
      obtain ⟨hm, hns⟩ := List.nodup_cons.1 h
      rw [setPositions, ih hns]
      by_cases hn : n ∈ ns
      · have hne : m ≠ n := fun he => hm (he ▸ hn)
        rw [if_pos hn, if_pos (List.mem_cons_of_mem _ hn),
          List.idxOf_cons_ne _ hne]
        congr 2
        omega
      · rw [if_neg hn, Bindings.position?_setPosition]
        by_cases he : n = m
        · rw [if_pos he, he, if_pos List.mem_cons_self, List.idxOf_cons_self,
            Nat.add_zero]
        · rw [if_neg he, if_neg (by simp [he, hn])]

/-- Placing the nodes of an acyclic graph numbers them in topological
order. -/
theorem placeNodes_runOn (h : c.graph.checkAcyclic = .ok ()) :
    placeNodes.runOn c = (.ok c.graph.topologicalOrder,
      { c with
        bindings := setPositions c.bindings 1 c.graph.topologicalOrder }) := by
  simp [placeNodes, Step.modifyBindings, Step.runOn_bind, Step.runOn_map, h]

-- ============================================================ the positions

variable {g : DependencyGraph}

/-- The position that a node of an acyclic graph gets. -/
theorem position?_topologicalOrder (h : g.Acyclic) {n : DependencyId}
    (hn : n ∈ g.ids) :
    (setPositions b 1 g.topologicalOrder).position? n
      = some (Int.ofNat (1 + g.topologicalOrder.idxOf n)) := by
  rw [position?_setPositions (DependencyGraph.nodup_topologicalOrder h),
    if_pos ((DependencyGraph.mem_topologicalOrder h).2 hn)]

/-- The positions count the nodes of an acyclic graph from one. -/
theorem bijOn_position? (h : g.Acyclic) :
    Set.BijOn (setPositions b 1 g.topologicalOrder).position? {n | n ∈ g.ids}
      (some '' Set.Icc 1 (Int.ofNat g.nodes.length)) := by
  have hlen := DependencyGraph.length_topologicalOrder h
  refine ⟨fun n hn => ?_, fun n hn m hm he => ?_, ?_⟩
  · have hidx : g.topologicalOrder.idxOf n < g.topologicalOrder.length :=
      List.idxOf_lt_length_of_mem
        ((DependencyGraph.mem_topologicalOrder h).2 hn)
    refine ⟨_, ⟨?_, ?_⟩, (position?_topologicalOrder h hn).symm⟩
    · exact Int.ofNat_le.2 (Nat.le_add_right 1 _)
    · exact Int.ofNat_le.2 (by omega)
  · rw [position?_topologicalOrder h hn, position?_topologicalOrder h hm] at he
    have hidx := Int.ofNat.inj (Option.some.inj he)
    exact (List.idxOf_inj ((DependencyGraph.mem_topologicalOrder h).2 hn)).1
      (by omega)
  · intro _ hp
    obtain ⟨p, ⟨hlow, hhigh⟩, rfl⟩ := hp
    -- the node that stands at the place of the position
    have hp : p.toNat - 1 < g.topologicalOrder.length := by
      have : (p : Int) ≤ (g.nodes.length : Int) := hhigh
      omega
    have hmem := List.getElem_mem hp
    refine ⟨g.topologicalOrder[p.toNat - 1],
      (DependencyGraph.mem_topologicalOrder h).1 hmem, ?_⟩
    rw [position?_topologicalOrder h
      ((DependencyGraph.mem_topologicalOrder h).1 hmem),
      (DependencyGraph.nodup_topologicalOrder h).idxOf_getElem]
    congr 1
    show ((1 + (p.toNat - 1) : Nat) : Int) = p
    omega

/-- The positions rise along dependencies. -/
theorem position?_lt (h : g.Acyclic) {n d : DependencyId}
    (hnd : TransGen g.Depends n d) :
    ∃ p q, (setPositions b 1 g.topologicalOrder).position? n = some p
      ∧ (setPositions b 1 g.topologicalOrder).position? d = some q
      ∧ q < p := by
  obtain ⟨hn, hd⟩ := DependencyGraph.mem_ids_of_transGen hnd
  refine ⟨_, _, position?_topologicalOrder h hn,
    position?_topologicalOrder h hd, ?_⟩
  have hlt := DependencyGraph.idxOf_topologicalOrder_lt h hnd
  exact Int.ofNat_lt.2 (by omega)

/-- Where the check for cycles passes, the topological order lists every
node once, and each node after all that it needs. Placing the nodes then
succeeds with this order, the positions count the nodes from one, and they
rise along every dependency. -/
theorem placeNodes_orders (h : c.graph.checkAcyclic = .ok ()) :
    c.graph.topologicalOrder.Perm c.graph.ids
      ∧ (∀ n d, TransGen c.graph.Depends n d →
          [d, n].Sublist c.graph.topologicalOrder)
      ∧ ∃ c', placeNodes.runOn c = (.ok c.graph.topologicalOrder, c')
          ∧ Set.BijOn c'.bindings.position? {n | n ∈ c.graph.ids}
              (some '' Set.Icc 1 (Int.ofNat c.graph.nodes.length))
          ∧ ∀ n d, TransGen c.graph.Depends n d →
              ∃ p q, c'.bindings.position? n = some p
                ∧ c'.bindings.position? d = some q ∧ q < p := by
  have hg : c.graph.Acyclic := DependencyGraph.checkAcyclic_eq_ok_iff.1 h
  refine ⟨DependencyGraph.topologicalOrder_perm_ids hg,
    fun n d hnd => DependencyGraph.sublist_topologicalOrder hg hnd,
    _, placeNodes_runOn h, bijOn_position? hg, ?_⟩
  exact fun n d hnd => position?_lt hg hnd

/-- In the diamond, `C` needs `A` through `B`, so it stands after it. -/
theorem placeNodes_orders_diamond :
    DependencyGraph.diamond.checkAcyclic = .ok ()
      ∧ [⟨0⟩, ⟨3⟩].Sublist DependencyGraph.diamond.topologicalOrder := by
  let c : Compilation :=
    { sources := {}, tree := {}, graph := DependencyGraph.diamond }
  have h : c.graph.checkAcyclic = .ok () := rfl
  have hCB : c.graph.Depends ⟨3⟩ ⟨1⟩ := by
    rw [DependencyGraph.depends_iff]
    decide
  have hBA : c.graph.Depends ⟨1⟩ ⟨0⟩ := by
    rw [DependencyGraph.depends_iff]
    decide
  obtain ⟨-, hbefore, -⟩ := placeNodes_orders h
  exact ⟨h, hbefore _ _ (.tail (.single hCB) hBA)⟩

end Stagewise.Analysis
