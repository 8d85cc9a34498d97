/-
The dependency relation of a graph and its cycles, said without any
search.

`Depends` is the relation between direct neighbours, its transitive
closure is what a node needs in all. A graph is `Acyclic` when no node
needs itself. A list is a cycle (`IsCycle`) when its nodes are distinct,
each is followed by one of its direct dependants, and the first is a
dependant of the last. One cycle is enough to refute acyclicity
(`IsCycle.not_acyclic`); that a graph without listed cycles is acyclic is
what the search in `Cycles` shows.
-/
import Mathlib.Data.List.Chain
import Mathlib.Data.List.Nodup
import Mathlib.Logic.Relation
import Stagewise.Dependency.Order

namespace Stagewise.DependencyGraph

open Relation (TransGen)

variable {g : DependencyGraph} {a b n : DependencyId}

-- ============================================================ the relation

/-- That one node of the graph depends directly on another, itself
perhaps. -/
def Depends (g : DependencyGraph) (a b : DependencyId) : Prop :=
  a ∈ g.ids ∧ b ∈ g.dependencies a

/-- That no node depends on itself, directly or through others. -/
def Acyclic (g : DependencyGraph) : Prop := ∀ n, ¬ TransGen g.Depends n n

/-- The relation holds between nodes of the graph only, and there it is
what was recorded. -/
theorem depends_iff :
    g.Depends a b ↔ a ∈ g.ids ∧ b ∈ g.ids ∧ g.dependsOn a b = true := by
  unfold Depends
  rw [mem_dependencies]

/-- The relation read from its other end. -/
theorem depends_iff_mem_dependants :
    g.Depends a b ↔ b ∈ g.ids ∧ a ∈ g.dependants b := by
  rw [depends_iff, mem_dependants]
  tauto

theorem Depends.mem_ids (h : g.Depends a b) : a ∈ g.ids ∧ b ∈ g.ids :=
  ⟨h.1, (mem_dependencies.1 h.2).1⟩

theorem Depends.mem_dependants (h : g.Depends a b) : a ∈ g.dependants b :=
  (depends_iff_mem_dependants.1 h).2

theorem mem_ids_of_mem_dependants (h : a ∈ g.dependants b) : a ∈ g.ids :=
  (mem_dependants.1 h).1

/-- What needs something is a node, and so is what is needed. -/
theorem mem_ids_of_transGen (h : TransGen g.Depends a b) :
    a ∈ g.ids ∧ b ∈ g.ids := by
  induction h with
  | single h => exact h.mem_ids
  | tail _ h ih => exact ⟨ih.1, h.mem_ids.2⟩

theorem length_ids (g : DependencyGraph) : g.ids.length = g.nodes.length := by
  unfold ids
  rw [List.length_map, List.length_range]

theorem nodup_ids (g : DependencyGraph) : g.ids.Nodup := by
  have hinj : Function.Injective DependencyId.mk :=
    fun _ _ h => congrArg DependencyId.index h
  exact List.Nodup.map hinj List.nodup_range

/-- A list of distinct nodes is no longer than the graph. This bounds
every walk that stops where it has been before. -/
theorem length_le_of_nodup {ns : List DependencyId} (hd : ns.Nodup)
    (hs : ns ⊆ g.ids) : ns.length ≤ g.nodes.length := by
  rw [← length_ids]
  exact hd.length_le_of_subset hs

-- ================================================================= cycles

/-- A cycle, listed once around: distinct nodes, each followed by one of
its direct dependants, and the last one by the first. -/
structure IsCycle (g : DependencyGraph) (ns : List DependencyId) : Prop where
  nonempty : ns ≠ []
  nodup : ns.Nodup
  nodes : ns ⊆ g.ids
  next : ns.IsChain fun a b => b ∈ g.dependants a
  closes : ∀ last ∈ ns.getLast?, ∀ first ∈ ns.head?, first ∈ g.dependants last

/-- Along a chain of dependants every node needs the one it began with. -/
theorem transGen_getLast_of_isChain {ns : List DependencyId}
    (hs : n :: ns ⊆ g.ids)
    (hc : (n :: ns).IsChain fun a b => b ∈ g.dependants a) :
    ∀ last ∈ (n :: ns).getLast?, last = n ∨ TransGen g.Depends last n := by
  induction ns generalizing n with
  | nil =>
      intro last h
      exact Or.inl (Option.some.inj h).symm
  | cons m ns ih =>
      intro last h
      obtain ⟨hm, hc⟩ := List.isChain_cons_cons.1 hc
      have hmn : g.Depends m n :=
        depends_iff_mem_dependants.2 ⟨hs List.mem_cons_self, hm⟩
      rw [List.getLast?_cons_cons] at h
      rcases ih (List.subset_of_cons_subset hs) hc last h with rfl | h
      · exact Or.inr (.single hmn)
      · exact Or.inr (h.tail hmn)

/-- A graph with a cycle is not acyclic: the cycle's first node needs
itself. -/
theorem IsCycle.not_acyclic {ns : List DependencyId} (h : g.IsCycle ns) :
    ¬ g.Acyclic := by
  intro hg
  cases ns with
  | nil => exact h.nonempty rfl
  | cons n ns =>
      obtain ⟨last, hl⟩ := Option.isSome_iff_exists.1
        (List.getLast?_isSome.2 (List.cons_ne_nil n ns))
      have hlast : last ∈ g.ids := h.nodes (List.mem_of_getLast? hl)
      have hclose : g.Depends n last :=
        depends_iff_mem_dependants.2 ⟨hlast, h.closes last hl n rfl⟩
      rcases transGen_getLast_of_isChain h.nodes h.next last hl with rfl | hn
      · exact hg _ (.single hclose)
      · exact hg _ (.head hclose hn)

-- ================================================================ a diamond

/-- A small graph of stages `A`, `B` and `C` and a method group `M`: `B` and
`M` depend on `A`, and `C` on both. -/
def diamond : DependencyGraph where
  nodes :=
    [.ofStage { name := "A", decl := ⟨0⟩ },
      .ofStage { name := "B", decl := ⟨0⟩ },
      .ofGroup "M" { decl := ⟨0⟩ }, .ofStage { name := "C", decl := ⟨0⟩ }]
  edges :=
    [⟨⟨1⟩, ⟨0⟩, {}⟩, ⟨⟨2⟩, ⟨0⟩, {}⟩, ⟨⟨3⟩, ⟨1⟩, {}⟩, ⟨⟨3⟩, ⟨2⟩, {}⟩]

end Stagewise.DependencyGraph
