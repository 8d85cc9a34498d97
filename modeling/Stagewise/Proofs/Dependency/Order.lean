/-
The orders of an acyclic graph.

Depth-first order over dependants is ordered in the sense of `DepthFirst`,
for a node leads to exactly the nodes that depend on it. So every node of
a search stands before whatever depends on it, directly or not
(`sublist_orderFrom`).

The topological order is complete besides: a node that no root leads to
would begin a walk back that closes a cycle (`mem_topologicalOrder`).

The sorted dependants of a node are its direct dependants, each once
(`sortedDependants_sorts`). They are picked out of all that the node leads
to, so the order holds between them also where what one needs of the other
runs through nodes that were not picked.
-/
import Mathlib.Data.List.Perm.Basic
import Stagewise.Proofs.DepthFirst
import Stagewise.Proofs.Dependency.Cycles

namespace Stagewise.DependencyGraph

open Relation (TransGen)
open DepthFirst (Leads Ordered)

variable {g : DependencyGraph} {a b n d : DependencyId}
variable {starts : List DependencyId}

-- ====================================================== the search of nodes

/-- Along dependants a node leads to what depends on it. -/
theorem leads_dependants (g : DependencyGraph) :
    Leads g.dependants g.ids = Function.swap g.Depends := by
  funext a b
  exact propext depends_iff_mem_dependants.symm

theorem transGen_leads_iff :
    TransGen (Leads g.dependants g.ids) a b ↔ TransGen g.Depends b a := by
  rw [leads_dependants, Relation.transGen_swap]

theorem dependants_subset_ids (g : DependencyGraph) :
    ∀ n ∈ g.ids, g.dependants n ⊆ g.ids :=
  fun _ _ _ hd => mem_ids_of_mem_dependants hd

/-- In an acyclic graph no node leads back to itself. -/
theorem Acyclic.not_leads (h : g.Acyclic) (n : DependencyId) :
    ¬ TransGen (Leads g.dependants g.ids) n n :=
  fun hn => h n (transGen_leads_iff.1 hn)

theorem ordered_orderFrom (h : g.Acyclic) (hs : starts ⊆ g.ids) :
    Ordered g.dependants (g.orderFrom starts) := by
  unfold orderFrom
  rw [← length_ids]
  exact DepthFirst.ordered_order (dependants_subset_ids g) h.not_leads hs

theorem subset_orderFrom (h : g.Acyclic) (hs : starts ⊆ g.ids) :
    starts ⊆ g.orderFrom starts := by
  unfold orderFrom
  rw [← length_ids]
  exact DepthFirst.subset_order (dependants_subset_ids g) h.not_leads hs

theorem orderFrom_subset (hs : starts ⊆ g.ids) : g.orderFrom starts ⊆ g.ids :=
  DepthFirst.order_subset (dependants_subset_ids g) hs

/-- A node that is found stands before all that needs it. -/
theorem sublist_orderFrom (h : g.Acyclic) (hs : starts ⊆ g.ids)
    (hb : b ∈ g.orderFrom starts) (hab : TransGen g.Depends a b) :
    [b, a].Sublist (g.orderFrom starts) :=
  (ordered_orderFrom h hs).sublist hb (transGen_leads_iff.2 hab)

-- ==================================================== the topological order

theorem roots_subset_ids (g : DependencyGraph) : g.roots ⊆ g.ids :=
  fun _ h => (List.mem_filter.1 h).1

theorem nodup_topologicalOrder (h : g.Acyclic) : g.topologicalOrder.Nodup :=
  (ordered_orderFrom h (roots_subset_ids g)).nodup

/-- The topological order holds all nodes. One left out would be led to by
no root, and the walk back from it would find a cycle. -/
theorem mem_topologicalOrder (h : g.Acyclic) :
    n ∈ g.topologicalOrder ↔ n ∈ g.ids := by
  have hs := roots_subset_ids g
  refine ⟨fun hn => orderFrom_subset hs hn, fun hn => ?_⟩
  by_contra hu
  have hset : Settled g g.topologicalOrder :=
    ⟨fun m hm => (ordered_orderFrom h hs).closed hm, fun m _ => h m⟩
  have hwalk : ∃ cycle, g.walkBack g.depth [] n = .error (.cycle cycle)
      ∧ g.IsCycle cycle :=
    walkBack_eq_cycle hset (subset_orderFrom h hs) (by unfold depth; simp)
      (walk_nil hn) hu
  obtain ⟨cycle, -, hcycle⟩ := hwalk
  exact hcycle.not_acyclic h

/-- The topological order lists every node once. -/
theorem topologicalOrder_perm_ids (h : g.Acyclic) :
    g.topologicalOrder.Perm g.ids :=
  (List.perm_ext_iff_of_nodup (nodup_topologicalOrder h) (nodup_ids g)).2
    fun _ => mem_topologicalOrder h

/-- In topological order a node stands before all that needs it. -/
theorem sublist_topologicalOrder (h : g.Acyclic)
    (hab : TransGen g.Depends a b) :
    [b, a].Sublist g.topologicalOrder :=
  sublist_orderFrom h (roots_subset_ids g)
    ((mem_topologicalOrder h).2 (mem_ids_of_transGen hab).2) hab

-- ================================================= places in the order

theorem length_topologicalOrder (h : g.Acyclic) :
    g.topologicalOrder.length = g.nodes.length := by
  rw [(topologicalOrder_perm_ids h).length_eq, length_ids]

/-- In a list of distinct nodes, what stands before has the smaller
index. -/
theorem idxOf_lt_of_sublist {ns : List DependencyId} (h : ns.Nodup)
    (hs : [d, n].Sublist ns) : ns.idxOf d < ns.idxOf n := by
  induction ns with
  | nil => cases hs
  | cons m ns ih =>
      obtain ⟨hm, hns⟩ := List.nodup_cons.1 h
      cases hs with
      | cons _ hs =>
          have hmd : m ≠ d := fun he => hm (he ▸ hs.subset List.mem_cons_self)
          have hmn : m ≠ n := fun he => hm (he ▸ hs.subset (by simp))
          have hlt := ih hns hs
          rw [List.idxOf_cons_ne _ hmd, List.idxOf_cons_ne _ hmn]
          omega
      | cons_cons _ hs =>
          have hdn : d ≠ n := fun he => hm (he ▸ List.singleton_sublist.1 hs)
          rw [List.idxOf_cons_self, List.idxOf_cons_ne _ hdn]
          omega

/-- A node has a greater place in the topological order than what it
needs. -/
theorem idxOf_topologicalOrder_lt (h : g.Acyclic)
    (hab : TransGen g.Depends a b) :
    g.topologicalOrder.idxOf b < g.topologicalOrder.idxOf a :=
  idxOf_lt_of_sublist (nodup_topologicalOrder h)
    (sublist_topologicalOrder h hab)

/-- The places in the topological order are less than the number of
nodes. -/
theorem idxOf_topologicalOrder_lt_length (h : g.Acyclic) (hn : n ∈ g.ids) :
    g.topologicalOrder.idxOf n < g.nodes.length := by
  rw [← length_topologicalOrder h]
  exact List.idxOf_lt_length_of_mem ((mem_topologicalOrder h).2 hn)

-- ==================================================== the sorted dependants

/-- The sorted dependants of a node are its direct dependants. -/
theorem mem_sortedDependants (h : g.Acyclic) (hn : n ∈ g.ids) :
    d ∈ g.sortedDependants n ↔ d ∈ g.dependants n := by
  have hs : [n] ⊆ g.ids := List.cons_subset.2 ⟨hn, List.nil_subset _⟩
  unfold sortedDependants
  rw [List.mem_filter, List.contains_iff_mem]
  refine ⟨fun hd => hd.2, fun hd => ⟨?_, hd⟩⟩
  have hfound : n ∈ g.orderFrom [n] := subset_orderFrom h hs List.mem_cons_self
  exact (ordered_orderFrom h hs).closed hfound hd

theorem nodup_sortedDependants (h : g.Acyclic) (hn : n ∈ g.ids) :
    (g.sortedDependants n).Nodup := by
  have hs : [n] ⊆ g.ids := List.cons_subset.2 ⟨hn, List.nil_subset _⟩
  exact (ordered_orderFrom h hs).nodup.filter _

/-- A sorted dependant stands before all others that need it. -/
theorem sublist_sortedDependants (h : g.Acyclic) (hn : n ∈ g.ids)
    (ha : a ∈ g.sortedDependants n) (hb : b ∈ g.sortedDependants n)
    (hab : TransGen g.Depends a b) :
    [b, a].Sublist (g.sortedDependants n) := by
  have hs : [n] ⊆ g.ids := List.cons_subset.2 ⟨hn, List.nil_subset _⟩
  obtain ⟨hbo, hbn⟩ := List.mem_filter.1 hb
  have han := (List.mem_filter.1 ha).2
  -- both are picked, so they stay in the order in which they were found
  have hpick :=
    (sublist_orderFrom h hs hbo hab).filter (g.dependants n).contains
  rwa [List.filter_cons_of_pos hbn, List.filter_cons_of_pos han] at hpick

/-- The sorted dependants of a node are all nodes that depend on it
directly, each once. Where one of them needs another, directly or through
any nodes of the graph, the other one comes first. -/
theorem sortedDependants_sorts (h : g.Acyclic) (hn : n ∈ g.ids) :
    (∀ d, d ∈ g.sortedDependants n ↔ g.Depends d n)
      ∧ (g.sortedDependants n).Nodup
      ∧ ∀ x ∈ g.sortedDependants n, ∀ y ∈ g.sortedDependants n,
          TransGen g.Depends x y → [y, x].Sublist (g.sortedDependants n) := by
  refine ⟨fun d => ?_, nodup_sortedDependants h hn,
    fun x hx y hy => sublist_sortedDependants h hn hx hy⟩
  rw [mem_sortedDependants h hn, depends_iff_mem_dependants]
  exact (and_iff_right hn).symm

/-- A graph in which `C` needs `B` through `M` only, and both depend on `A`
while `M` does not. `C` is recorded before `B`. -/
def detour : DependencyGraph where
  nodes :=
    [.ofStage { name := "A", decl := ⟨0⟩ },
      .ofStage { name := "C", decl := ⟨0⟩ },
      .ofGroup "M" { decl := ⟨0⟩ }, .ofStage { name := "B", decl := ⟨0⟩ }]
  edges :=
    [⟨⟨1⟩, ⟨0⟩, {}⟩, ⟨⟨3⟩, ⟨0⟩, {}⟩, ⟨⟨2⟩, ⟨3⟩, {}⟩, ⟨⟨1⟩, ⟨2⟩, {}⟩]

theorem sortedDependants_detour :
    detour.sortedDependants ⟨0⟩ = [⟨3⟩, ⟨1⟩]
      ∧ TransGen detour.Depends ⟨1⟩ ⟨3⟩
      ∧ [(⟨3⟩ : DependencyId), ⟨1⟩].Sublist (detour.sortedDependants ⟨0⟩) := by
  have hacyclic : detour.Acyclic := checkAcyclic_eq_ok_iff.1 rfl
  have hneeds : TransGen detour.Depends ⟨1⟩ ⟨3⟩ :=
    .head (b := ⟨2⟩) ⟨by decide, by decide⟩ (.single ⟨by decide, by decide⟩)
  have hsorts := sortedDependants_sorts hacyclic (n := ⟨0⟩) (by decide)
  have h1 : (⟨1⟩ : DependencyId) ∈ detour.sortedDependants ⟨0⟩ :=
    (hsorts.1 _).2 ⟨by decide, by decide⟩
  have h3 : (⟨3⟩ : DependencyId) ∈ detour.sortedDependants ⟨0⟩ :=
    (hsorts.1 _).2 ⟨by decide, by decide⟩
  exact ⟨rfl, hneeds, hsorts.2.2 _ h1 _ h3 hneeds⟩

end Stagewise.DependencyGraph
