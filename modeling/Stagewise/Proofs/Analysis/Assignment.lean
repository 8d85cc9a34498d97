/-
What discovery assigns: the bindings say what the nodes say.

A node is only added if all its members can be bound, and what is bound
once cannot be bound again. So while nodes are added, a method or field is
bound to a node just when it is one of the node's (`Assigned`). All of them
stand in links of the leaves' chains.
-/
import Stagewise.Proofs.Analysis.Discovery

namespace Stagewise.Analysis

open Compilation Step

variable {c c' : Compilation} {n : DependencyId} {d : DependencyNode}
variable {l : Location}

/-- That the bindings say of every identity what the nodes say, that the
members of nodes stand in links, and that no close method is made. -/
structure Assigned (c : Compilation) : Prop where
  method : ∀ n, ∀ p ∈ (c.graph.get n).members,
    ∃ leaf ∈ c.tree.leaves, c.sources.HasIn leaf p.1
  field : ∀ n, ∀ l ∈ (c.graph.get n).fields,
    ∃ leaf ∈ c.tree.leaves, c.sources.HasFieldIn leaf l
  role : ∀ id n r, c.bindings.roleOf? id = some (n, r)
    ↔ ∃ l, (l, r) ∈ (c.graph.get n).members ∧ (c.sources.method l).id = id
  stage : ∀ id n, c.bindings.stageOfField? id = some n
    ↔ ∃ l ∈ (c.graph.get n).fields, (c.sources.field l).id = id
  unclosed : ∀ n s, (c.graph.get n).stage? = some s → s.close = .notStarted

theorem Assigned.has (h : Assigned c) {p : Location × Role}
    (hp : p ∈ (c.graph.get n).members) : c.sources.Has p.1 := by
  obtain ⟨leaf, -, hhas, -⟩ := h.method n p hp
  exact hhas

theorem Assigned.hasField (h : Assigned c) (hl : l ∈ (c.graph.get n).fields) :
    c.sources.HasField l := by
  obtain ⟨leaf, -, hhas, -⟩ := h.field n l hl
  exact hhas

/-- A handle without a node has no members. -/
theorem get_of_not_mem_ids (hn : n ∉ c.graph.ids) :
    (c.graph.get n).kind = .group { decl := ⟨0⟩ } := by
  have hge : c.graph.nodes.length ≤ n.index :=
    Nat.le_of_not_lt fun hlt => hn (DependencyGraph.mem_ids.2 hlt)
  unfold DependencyGraph.get
  rw [List.getD_eq_getElem?_getD, List.getElem?_eq_none hge]
  rfl

/-- Whoever owns a field is a node. -/
theorem Assigned.mem_ids_of_field (h : Assigned c) {id : Identity}
    (hn : c.bindings.stageOfField? id = some n) : n ∈ c.graph.ids := by
  refine Decidable.byContradiction fun hnot => ?_
  obtain ⟨l, hl, -⟩ := (h.stage id n).1 hn
  unfold DependencyNode.fields at hl
  rw [get_of_not_mem_ids hnot] at hl
  cases hl

/-- What a method is bound to is a node. -/
theorem Assigned.mem_ids_of_role (h : Assigned c) {id : Identity} {r : Role}
    (hn : c.bindings.roleOf? id = some (n, r)) : n ∈ c.graph.ids := by
  refine Decidable.byContradiction fun hnot => ?_
  obtain ⟨l, hl, -⟩ := (h.role id n r).1 hn
  unfold DependencyNode.members at hl
  rw [get_of_not_mem_ids hnot] at hl
  cases hl

/-- Whoever a method is tagged with is a node. -/
theorem Assigned.mem_ids_of_method (h : Assigned c) {id : Identity}
    (hn : c.bindings.stageOfMethod? id = some n) : n ∈ c.graph.ids :=
  h.mem_ids_of_role (Bindings.nodeWithRole?_eq_some_iff.1 hn)

-- =================================================================== at first

/-- Before discovery there is nothing to say. -/
theorem assigned_of_empty (hgraph : c.graph = {})
    (hfields : c.bindings.fieldStages = [])
    (hroles : c.bindings.methodRoles = []) : Assigned c := by
  have hmembers : ∀ n, (c.graph.get n).members = [] := by
    rw [hgraph]
    exact fun _ => rfl
  have hnone : ∀ n, (c.graph.get n).fields = [] := by
    rw [hgraph]
    exact fun _ => rfl
  refine ⟨?_, ?_, ?_, ?_, ?_⟩
  · simp [hmembers]
  · simp [hnone]
  · simp [hmembers, Bindings.roleOf?, hroles]
  · simp [hnone, Bindings.stageOfField?, hfields]
  · rw [hgraph]
    intro n s hs
    cases hs

-- ================================================================== new nodes

/-- The place of a new node held nothing before. -/
theorem get_length (c : Compilation) :
    c.graph.get ⟨c.graph.nodes.length⟩
      = ⟨"", ⟨0⟩, .group { decl := ⟨0⟩ }, .notStarted⟩ := by
  unfold DependencyGraph.get
  rw [List.getD_eq_getElem?_getD, List.getElem?_eq_none (Nat.le_refl _)]
  rfl

/-- A node that binds its members may be added. -/
theorem Assigned.adds (h : Assigned c) (hadds : Adds d c c')
    (hmethod : ∀ p ∈ d.members, ∃ leaf ∈ c.tree.leaves,
      c.sources.HasIn leaf p.1)
    (hfield : ∀ l ∈ d.fields, ∃ leaf ∈ c.tree.leaves,
      c.sources.HasFieldIn leaf l)
    (hclose : ∀ s, d.stage? = some s → s.close = .notStarted) :
    Assigned c' := by
  have hmembers : (c.graph.get ⟨c.graph.nodes.length⟩).members = [] := by
    rw [get_length]
    rfl
  have hfields : (c.graph.get ⟨c.graph.nodes.length⟩).fields = [] := by
    rw [get_length]
    rfl
  obtain ⟨b, t, rfl, hleaves, hbinds⟩ := hadds
  refine ⟨fun n p hp => ?_, fun n l hl => ?_, fun id n r => ?_, fun id n => ?_,
    fun n s hs => ?_⟩
  · rw [get_addNode] at hp
    rw [hleaves]
    split at hp
    · exact hmethod p hp
    · exact h.method n p hp
  · rw [get_addNode] at hl
    rw [hleaves]
    split at hl
    · exact hfield l hl
    · exact h.field n l hl
  · rw [hbinds.role, h.role, get_addNode]
    by_cases hn : n = ⟨c.graph.nodes.length⟩
    · subst hn
      simp [hmembers]
    · simp [hn, Ne.symm hn]
  · rw [hbinds.field, h.stage, get_addNode]
    by_cases hn : n = ⟨c.graph.nodes.length⟩
    · subst hn
      simp [hfields]
    · simp [hn, Ne.symm hn]
  · rw [get_addNode] at hs
    split at hs
    · exact hclose s hs
    · exact h.unclosed n s hs

theorem Adds.role_mono (h : Adds d c c') {id : Identity}
    {x : DependencyId × Role}
    (hx : c.bindings.roleOf? id = some x) :
    c'.bindings.roleOf? id = some x := by
  obtain ⟨b, t, rfl, -, hbinds⟩ := h
  exact (hbinds.role id x).2 (Or.inl hx)

theorem Adds.field_mono (h : Adds d c c') {id : Identity}
    (hn : c.bindings.stageOfField? id = some n) :
    c'.bindings.stageOfField? id = some n := by
  obtain ⟨b, t, rfl, -, hbinds⟩ := h
  exact (hbinds.field id n).2 (Or.inl hn)

/-- The methods of the new node are bound to it. -/
theorem Adds.role_of_mem (h : Adds d c c') {p : Location × Role}
    (hp : p ∈ d.members) :
    c'.bindings.roleOf? (c.sources.method p.1).id
      = some (⟨c.graph.nodes.length⟩, p.2) := by
  obtain ⟨b, t, rfl, -, hbinds⟩ := h
  exact (hbinds.role _ _).2 (Or.inr ⟨p, hp, rfl, rfl⟩)

/-- The fields of the new node are bound to it. -/
theorem Adds.field_of_mem (h : Adds d c c') (hl : l ∈ d.fields) :
    c'.bindings.stageOfField? (c.sources.field l).id
      = some ⟨c.graph.nodes.length⟩ := by
  obtain ⟨b, t, rfl, -, hbinds⟩ := h
  exact (hbinds.field _ _).2 (Or.inr ⟨l, hl, rfl, rfl⟩)

-- ===================================================================== sweeps

variable {leaf : DeclId}

theorem Assigned.addsStage (h : Assigned c) {stage : Stage}
    (hleaf : leaf ∈ c.tree.leaves)
    (hstage : Stage.discover c.sources leaf l = .ok stage)
    (hadds : Adds (.ofStage stage) c c') : Assigned c' := by
  have hfound := Stage.found_discover hstage
  refine h.adds hadds
    (fun p hp => ⟨leaf, hleaf, hasIn_of_mem_members hfound p hp⟩) ?_ ?_
  · intro l hl
    obtain ⟨f, hf, rfl⟩ := List.mem_map.1 hl
    exact ⟨leaf, hleaf, (hfound.fields f hf).1⟩
  · intro s hs
    obtain rfl := Option.some.inj hs
    exact hfound.unstarted.2.1

theorem Assigned.addsGroup (h : Assigned c) {name : String} {seed : Method}
    (hleaf : leaf ∈ c.tree.leaves)
    (hadds : Adds (.ofGroup name (.discover c.sources leaf seed)) c c') :
    Assigned c' := by
  refine h.adds hadds
    (fun p hp => ⟨leaf, hleaf, hasIn_of_mem_groupMembers p hp⟩) ?_ ?_
  · intro l hl
    cases hl
  · intro s hs
    cases hs

/-- Both sweeps preserve that the bindings say what the nodes say. -/
theorem discoverNodes_assigned (h : Assigned c) :
    Ensures discoverNodes c fun _ c' =>
      Assigned c' ∧ c'.sources = c.sources
          ∧ c'.tree.leaves = c.tree.leaves := by
  refine ensures_discoverNodes h fun c₁ c₂ h₁ hs hl hfinds => ?_
  cases hfinds with
  | stage hleaf _ hstage hadds =>
      exact h₁.addsStage (hl ▸ hleaf) (hs ▸ hstage) hadds
  | group hleaf _ hadds => exact h₁.addsGroup (hl ▸ hleaf) (hs ▸ hadds)

-- ===================================================================== bodies

/-- The bodies of a node are among its methods. -/
theorem Assigned.mem_members (h : Assigned c) (hl : l ∈ c.bodyLocations n) :
    ∃ r, (l, r) ∈ (c.graph.get n).members := by
  unfold bodyLocations at hl
  unfold DependencyNode.members
  split at hl
  · rename_i g hkind
    rw [hkind]
    exact ⟨.grouped, List.mem_map.2 ⟨l, hl, rfl⟩⟩
  · rename_i s hkind
    have hclose := h.unclosed n s (DependencyNode.stage?_eq_some.2 hkind)
    rw [hkind]
    simp only [hclose, Progress.value?, Option.orElse_none, List.mem_append,
      Option.mem_toList, Option.filter_eq_some_iff, List.mem_map] at hl
    simp only [List.mem_append, List.mem_map, Option.mem_toList, Prod.mk.injEq]
    rcases hl with (hinit | ⟨m, hm, rfl⟩) | ⟨hdeclared, -⟩
    · exact ⟨.init, Or.inl (Or.inl (Or.inr ⟨l, hinit, rfl, rfl⟩))⟩
    · exact ⟨.stageMethod, Or.inr ⟨m, hm, rfl, rfl⟩⟩
    · exact ⟨.close, Or.inl (Or.inr ⟨l, hdeclared, rfl, rfl⟩)⟩

end Stagewise.Analysis
