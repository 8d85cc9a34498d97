/-
What the passes of the analysis leave of the tree and of the references.

Discovery lets interface methods stand for groups and binds members;
linking records edges, and placing records positions. None of them concerns
the form of the tree, its parent accesses and paths, or where reference
fields lead (`Traced`).

Nodes are found in leaves, and nothing is made for them yet (`Unmade`).
-/
import Stagewise.Proofs.Analysis.Assignment
import Stagewise.Proofs.Analysis.References
import Stagewise.Proofs.Dependency.Cycles

namespace Stagewise

namespace Composition

variable {t t' t₁ : Composition} {n : CompositionId}

/-- A node without the groups that interface methods stand for. -/
def uninterfaced (x : CompositionNode) : CompositionNode :=
  { x with interfaceMethods := [] }

/-- That two trees are the same up to the groups that interface methods
stand for. -/
structure Reinterfaces (t t' : Composition) : Prop where
  form : SameForm t t'
  node : ∀ n, uninterfaced (t'.get n) = uninterfaced (t.get n)

namespace Reinterfaces

theorem refl (t : Composition) : Reinterfaces t t := ⟨.refl t, fun _ => rfl⟩

theorem trans (h : Reinterfaces t t₁) (h' : Reinterfaces t₁ t') :
    Reinterfaces t t' :=
  ⟨h.form.trans h'.form, fun n => (h'.node n).trans (h.node n)⟩

theorem bindInterfaceMethod {method : Identity} {methodName groupName : String}
    {group : DependencyId}
    (h : t.bindInterfaceMethod n method methodName group groupName = .ok t') :
    Reinterfaces t t' := by
  unfold Composition.bindInterfaceMethod at h
  split at h
  · split at h
    · obtain rfl := Except.ok.inj h
      exact refl t
    · cases h
  · obtain rfl := Except.ok.inj h
    exact ⟨.modify n _ (fun _ => rfl) fun _ => rfl,
      get_modify_congr (g := uninterfaced) (f := fun d => { d with
        interfaceMethods := (method, group, groupName) :: d.interfaceMethods })
          fun _ => rfl⟩

theorem parentAccess (h : Reinterfaces t t') (n : CompositionId) :
    (t'.get n).parentAccess = (t.get n).parentAccess := by
  have hnode := congrArg CompositionNode.parentAccess (h.node n)
  exact hnode

theorem path (h : Reinterfaces t t') (n : CompositionId) :
    (t'.get n).path = (t.get n).path := by
  have hnode := congrArg CompositionNode.path (h.node n)
  exact hnode

end Reinterfaces

end Composition

namespace Analysis

open Compilation Stagewise.Composition Step

variable {c c' c₀ c₁ : Compilation} {n : DependencyId}

-- ======================================================== tree and references

/-- That a compilation still knows where reference fields lead, in a tree
that is the same up to the groups that interface methods stand for. -/
structure Traced (c c' : Compilation) : Prop where
  tree : Reinterfaces c.tree c'.tree
  references : c'.bindings.references = c.bindings.references

namespace Traced

theorem refl (c : Compilation) : Traced c c := ⟨.refl _, rfl⟩

theorem trans (h : Traced c c₁) (h' : Traced c₁ c') : Traced c c' :=
  ⟨h.tree.trans h'.tree, h'.references.trans h.references⟩

theorem bindMethod (h : Traced c₀ c) (method : Identity) (r : Role) :
    Ensures (bindMethod method n r) c fun _ c' => Traced c₀ c' := by
  refine ensures_bindMethod.2 fun b hb => ⟨h.tree, Eq.trans ?_ h.references⟩
  unfold Bindings.bindMethod at hb
  split at hb
  · cases hb
  · obtain rfl := Except.ok.inj hb
    rfl

theorem bindField (h : Traced c₀ c) (field : Identity) :
    Ensures (bindField n field) c fun _ c' => Traced c₀ c' := by
  unfold Analysis.bindField
  simp only [ensures_bind, ensures_get, ensures_ofExcept,
    ensures_modifyBindings]
  refine fun b hb => ⟨h.tree, Eq.trans ?_ h.references⟩
  unfold Bindings.bindField at hb
  split at hb
  · cases hb
  · obtain rfl := Except.ok.inj hb
    rfl

theorem addStage (h : Traced c₀ c) (stage : Stage) :
    Ensures (addStage stage) c fun _ c' => Traced c₀ c' := by
  unfold Analysis.addStage
  simp only [ensures_bind, ensures_get, ensures_modify]
  refine Ensures.mono (ensures_forM (I := fun _ c' => Traced c₀ c')
    (fun _ f _ _ h' => h'.bindField f.id) ⟨h.tree, h.references⟩)
    fun _ c₁ h₁ => ?_
  exact ensures_forM (I := fun _ c' => Traced c₀ c')
    (fun _ p _ _ h' => h'.bindMethod p.1 p.2) h₁

theorem addGroup (h : Traced c₀ c) (name : String) (group : MethodGroup) :
    Ensures (addGroup name group) c fun _ c' => Traced c₀ c' := by
  unfold Analysis.addGroup
  simp only [ensures_bind, ensures_get, ensures_modify]
  refine Ensures.mono (ensures_forM (I := fun _ c' => Traced c₀ c')
    (fun _ l _ _ h' => h'.bindMethod _ .grouped) ⟨h.tree, h.references⟩)
    fun _ c₁ h₁ => ?_
  refine ensures_forM (I := fun _ c' => Traced c₀ c') (fun _ m _ _ h' => ?_) h₁
  unfold Analysis.bindInterfaceMethod
  simp only [ensures_bind, ensures_get, ensures_ofExcept, ensures_modifyTree]
  exact fun t ht => ⟨h'.tree.trans (.bindInterfaceMethod ht), h'.references⟩

end Traced

theorem discoverNodes_traced :
    Ensures discoverNodes c fun _ c' => Traced c c' := by
  unfold discoverNodes
  simp only [ensures_bind, ensures_get]
  refine Ensures.mono
    (ensures_mapM (I := fun _ c' => Traced c c') ?_ (.refl c))
    fun _ c₁ h₁ =>
      Ensures.mono (ensures_mapM (I := fun _ c' => Traced c c') ?_ h₁)
    fun _ c₂ h₂ => ensures_pure.2 h₂
  · rintro _ ⟨leaf, l⟩ _ c₁ h₁
    unfold discoverStage
    simp only [ensures_bind, ensures_get]
    split
    · simp only [ensures_bind, ensures_ofExcept, ensures_pure]
      exact fun stage _ => h₁.addStage stage
    · exact ensures_pure.2 h₁
  · rintro _ ⟨leaf, l⟩ _ c₁ h₁
    unfold discoverGroup
    simp only [ensures_bind, ensures_get]
    split
    · simp only [ensures_bind, ensures_pure]
      exact h₁.addGroup _ _
    · exact ensures_pure.2 h₁

theorem linkNodes_traced : Ensures linkNodes c fun _ c' => Traced c c' :=
  linkNodes_frame.mono fun _ _ ⟨_, hc'⟩ => hc' ▸ ⟨.refl _, rfl⟩

theorem placeNodes_traced : Ensures placeNodes c fun _ c' => Traced c c' :=
  placeNodes_frame.mono fun _ _ ⟨_, hc'⟩ => hc' ▸ ⟨.refl _, rfl⟩

-- ================================================================ found nodes

/-- That every node was found in a leaf, and that nothing is made for it
yet. -/
structure Unmade (c : Compilation) : Prop where
  leaf : ∀ n ∈ c.graph.ids, (c.graph.get n).decl ∈ c.tree.leaves
  decl : ∀ n ∈ c.graph.ids, (c.graph.get n).decl.index < c.sources.decls.length
  unstarted : ∀ n a, c.progress n a = .notStarted

theorem unmade_of_empty (h : c.graph = {}) : Unmade c := by
  have hids : c.graph.ids = [] := by
    rw [h]
    rfl
  refine ⟨by simp [hids], by simp [hids], fun n a => ?_⟩
  unfold Compilation.progress
  rw [h]
  rfl

theorem Unmade.adds {d : DependencyNode} (h : Unmade c) (hadds : Adds d c c')
    (hleaf : d.decl ∈ c.tree.leaves)
    (hdecl : d.decl.index < c.sources.decls.length)
    (hprogress : ∀ s, d.stage? = some s → ∀ a, s.progress a = .notStarted) :
    Unmade c' := by
  obtain ⟨b, t, rfl, hleaves, -⟩ := hadds
  have hold : ∀ n ∈ (c.graph.addNode d).2.ids, n ≠ ⟨c.graph.nodes.length⟩ →
      n ∈ c.graph.ids := by
    intro n hn hne
    have hlt := DependencyGraph.mem_ids.1 hn
    have hi : n.index ≠ c.graph.nodes.length :=
      fun e => hne (congrArg DependencyId.mk e)
    simp only [DependencyGraph.addNode, List.length_append,
      List.length_singleton] at hlt
    exact DependencyGraph.mem_ids.2 (by omega)
  refine ⟨fun n hn => ?_, fun n hn => ?_, fun n a => ?_⟩
  · rw [get_addNode, hleaves]
    split
    · exact hleaf
    · rename_i hne
      exact h.leaf n (hold n hn hne)
  · rw [get_addNode]
    split
    · exact hdecl
    · rename_i hne
      exact h.decl n (hold n hn hne)
  · unfold Compilation.progress
    rw [get_addNode]
    split
    · cases hs : d.stage? with
      | none => rfl
      | some s => exact hprogress s hs a
    · exact h.unstarted n a

theorem discoverNodes_unmade (h : Unmade c) :
    Ensures discoverNodes c fun _ c' => Unmade c' := by
  refine (ensures_discoverNodes h fun c₁ c₂ h₁ hs hl hfinds => ?_).mono
    fun _ _ h' => h'.1
  cases hfinds with
  | stage hleaf hlt hstage hadds =>
      have hfound := Stage.found_discover hstage
      rw [← hl, ← hfound.decl] at hleaf
      rw [← hs, ← hfound.decl] at hlt
      refine h₁.adds hadds hleaf hlt fun s hs a => ?_
      obtain rfl := Option.some.inj hs
      exact hfound.progress a
  | group hleaf hlt hadds =>
      exact h₁.adds hadds (hl ▸ hleaf) (hs ▸ hlt) fun _ hs' =>
        absurd hs' not_stage?_ofGroup

/-- Linking and placing leave the nodes. -/
theorem Unmade.sameMembers (h : Unmade c) (hsame : SameMembers c c')
    (hleaves : c'.tree.leaves = c.tree.leaves) : Unmade c' := by
  have hget : c'.graph.get = c.graph.get := by
    funext n
    unfold DependencyGraph.get
    rw [hsame.nodes]
  have hids : c'.graph.ids = c.graph.ids := by
    unfold DependencyGraph.ids
    rw [hsame.nodes]
  refine ⟨?_, ?_, fun n a => ?_⟩
  · rw [hget, hids, hleaves]
    exact h.leaf
  · rw [hget, hids, hsame.sources]
    exact h.decl
  · unfold Compilation.progress
    rw [hget]
    exact h.unstarted n a

-- ========================================================= the whole analysis

/-- Placing nodes finds no cycle. -/
theorem placeNodes_acyclic :
    Ensures placeNodes c fun _ c' => c'.graph = c.graph ∧ c.graph.Acyclic := by
  unfold placeNodes
  simp only [ensures_bind, ensures_get, ensures_ofExcept,
    ensures_modifyBindings, ensures_pure]
  exact fun _ hcheck =>
    ⟨trivial, DependencyGraph.checkAcyclic_eq_ok_iff.1 hcheck⟩

/-- An analysis finds nodes in the leaves and places them, and leaves the
declarations and the form of the tree. -/
theorem analyse_unmade (ht : Formed c.sources c.tree) (hgraph : c.graph = {}) :
    Ensures analyse c fun _ c' => Unmade c' ∧ SameForm c.tree c'.tree
      ∧ c'.sources = c.sources ∧ c'.graph.Acyclic := by
  unfold analyse Stagewise.checkWrites
  simp only [ensures_bind, ensures_get, ensures_ofExcept, ensures_pure]
  refine ((bindReferences_referenced ht).and bindReferences_sameMembers).mono
    ?_
  rintro _ c₁ ⟨⟨hreferenced, -⟩, hsame₁⟩
  have hunmade₁ : Unmade c₁ :=
    (unmade_of_empty hgraph).sameMembers hsame₁ hreferenced.form.leaves
  refine ((discoverNodes_unmade hunmade₁).and
    (discoverNodes_traced.and discoverNodes_sources)).mono ?_
  rintro _ c₂ ⟨hunmade₂, htraced₂, hsources₂⟩ _ _
  refine (linkNodes_sameMembers.and linkNodes_traced).mono ?_
  rintro _ c₃ ⟨hsame₃, htraced₃⟩
  refine (placeNodes_sameMembers.and
    (placeNodes_traced.and placeNodes_acyclic)).mono ?_
  rintro _ c₄ ⟨hsame₄, htraced₄, hgraph₄, hacyclic⟩
  refine ⟨?_, ?_, ?_, ?_⟩
  · exact (hunmade₂.sameMembers hsame₃ htraced₃.tree.form.leaves).sameMembers
      hsame₄ htraced₄.tree.form.leaves
  · exact hreferenced.form.trans
      ((htraced₂.trans htraced₃).trans htraced₄).tree.form
  · rw [hsame₄.sources, hsame₃.sources, hsources₂, hreferenced.sources]
  · rw [hgraph₄]
    exact hacyclic

end Analysis

end Stagewise
