/-
After the analysis every node has its members, bound with their roles, and
nothing is made yet.

A new node binds all its members; that none of them could be bound before
keeps what the other nodes have. So each turn of the two sweeps preserves
`Populated`. The steps before and after the discovery change neither
nodes nor roles nor declarations (`SameMembers`).
-/
import Mathlib.Logic.Basic
import Stagewise.Compile
import Stagewise.Proofs.Lifecycle.Making
import Stagewise.Proofs.Stage.Discovery

namespace Stagewise.Analysis

open Compilation Step

variable {c c' : Compilation} {n : DependencyId}

-- =================================================================== binding

/-- A loop that binds methods to a node binds these methods and nothing
else. -/
theorem bindMethods_ensures {α : Type} {as : List α} {id : α → Identity}
    {role : α → Role} :
    Ensures (as.forM fun a => bindMethod (id a) n (role a)) c fun _ c' =>
      ∃ b, c' = { c with bindings := b }
        ∧ (∀ m x, b.roleOf? m = some x
          ↔ c.bindings.roleOf? m = some x ∨ ∃ a ∈ as, id a = m
          ∧ (n, role a) = x)
        ∧ ∀ f, b.stageOfField? f = c.bindings.stageOfField? f := by
  refine ensures_forM (I := fun done c' => ∃ b, c' = { c with bindings := b }
    ∧ (∀ m x, b.roleOf? m = some x
      ↔ c.bindings.roleOf? m = some x ∨ ∃ a ∈ done, id a = m ∧ (n, role a) = x)
    ∧ ∀ f, b.stageOfField? f = c.bindings.stageOfField? f) ?_ ?_
  · intro done a _ _ hc
    obtain ⟨b, rfl, hrole, hfield⟩ := hc
    rw [ensures_bindMethod]
    intro b' hbind
    refine ⟨b', rfl, fun m x => ?_,
      fun f => (Bindings.stageOfField?_of_bindMethod hbind f).trans (hfield f)⟩
    have hnew : (∃ a' ∈ done ++ [a], id a' = m ∧ (n, role a') = x)
        ↔ (∃ a' ∈ done, id a' = m ∧ (n, role a') = x) ∨ id a = m
        ∧ (n, role a) = x := by
      simp [or_and_right, exists_or]
    rw [hnew, ← or_assoc, ← hrole]
    constructor
    · intro hx
      rw [Bindings.roleOf?_of_bindMethod hbind] at hx
      split at hx
      · rename_i he
        exact Or.inr ⟨he.symm, Option.some.inj hx⟩
      · exact Or.inl hx
    · rintro (hx | ⟨rfl, rfl⟩)
      · exact Bindings.roleOf?_mono hbind hx
      · rw [Bindings.roleOf?_of_bindMethod hbind, if_pos rfl]
  · exact ⟨c.bindings, rfl, by simp, fun _ => rfl⟩

/-- A loop that binds fields to a node binds these fields and nothing
else. -/
theorem bindFields_ensures {fields : List StageField} :
    Ensures (fields.forM fun f => bindField n f.id) c fun _ c' =>
      ∃ b, c' = { c with bindings := b }
        ∧ (∀ m, b.roleOf? m = c.bindings.roleOf? m)
        ∧ ∀ id m, b.stageOfField? id = some m
          ↔ c.bindings.stageOfField? id = some m
            ∨ ∃ f : StageField, f ∈ fields ∧ f.id = id ∧ n = m := by
  refine ensures_forM (I := fun done c' => ∃ b, c' = { c with bindings := b }
    ∧ (∀ m, b.roleOf? m = c.bindings.roleOf? m)
    ∧ ∀ id m, b.stageOfField? id = some m
      ↔ c.bindings.stageOfField? id = some m
        ∨ ∃ f : StageField, f ∈ done ∧ f.id = id ∧ n = m) ?_ ?_
  · intro done f _ _ hc
    obtain ⟨b, rfl, hroles, hfield⟩ := hc
    unfold bindField
    simp only [ensures_bind, ensures_get, ensures_ofExcept,
      ensures_modifyBindings]
    intro b' hbind
    refine ⟨b', rfl, fun m => (Bindings.roleOf?_of_bindField hbind m).trans
      (hroles m),
      fun id m => ?_⟩
    have hnew : (∃ f' : StageField, f' ∈ done ++ [f] ∧ f'.id = id ∧ n = m)
        ↔ (∃ f' : StageField, f' ∈ done ∧ f'.id = id ∧ n = m) ∨ f.id = id
        ∧ n = m := by
      simp [or_and_right, exists_or]
    rw [hnew, ← or_assoc, ← hfield, Bindings.stageOfField?_of_bindField hbind]
    by_cases he : id = f.id
    · have hfree := Bindings.stageOfField?_eq_none_of_bindField hbind
      simp [he, hfree]
    · rw [if_neg he]
      simp [Ne.symm he]
  · exact ⟨c.bindings, rfl, fun _ => rfl, by simp⟩

/-- A loop that lets interface methods stand for a group changes the tree
only, and not its leaves. -/
theorem bindInterfaceMethods_ensures {place : CompositionId} {name : String}
    {methods : List (Identity × String)} :
    Ensures (methods.forM (bindInterfaceMethod place n name)) c fun _ c' =>
      ∃ t, c' = { c with tree := t } ∧ t.leaves = c.tree.leaves := by
  refine ensures_forM (I := fun _ c' => ∃ t, c' = { c with tree := t }
    ∧ t.leaves = c.tree.leaves) ?_ ⟨c.tree, rfl, rfl⟩
  intro done m _ _ hc
  obtain ⟨t, rfl, hleaves⟩ := hc
  unfold bindInterfaceMethod
  simp only [ensures_bind, ensures_get, ensures_ofExcept, ensures_modifyTree]
  intro t' ht'
  refine ⟨t', rfl, Eq.trans ?_ hleaves⟩
  unfold Composition.bindInterfaceMethod at ht'
  split at ht'
  · split at ht'
    · exact congrArg Composition.leaves (Except.ok.inj ht').symm
    · cases ht'
  · obtain rfl := Except.ok.inj ht'
    rfl

-- ================================================================== new nodes

/-- That every node has its members and none is made. -/
structure Populated (c : Compilation) : Prop where
  seated : Seated (fun _ => False) c
  unstarted : ∀ n a, c.progress n a = .notStarted

/-- What holds of a compilation before anything is made, its methods being
identified by their declarations. -/
structure Discovered (c : Compilation) : Prop extends Populated c where
  identified : ∀ l, c.sources.Has l → c.sources.Identified l

theorem Discovered.wellMade (h : Discovered c) : WellMade (fun _ => False) c :=
  { h.seated with identified := h.identified }

theorem get_addNode {g : DependencyGraph} {d : DependencyNode}
    (m : DependencyId) :
    (g.addNode d).2.get m = if m = ⟨g.nodes.length⟩ then d else g.get m := by
  unfold DependencyGraph.addNode DependencyGraph.get
  rcases m with ⟨i⟩
  simp only [DependencyId.mk.injEq, List.getD_eq_getElem?_getD]
  rcases Nat.lt_trichotomy i g.nodes.length with h | rfl | h
  · rw [if_neg (by omega), List.getElem?_append_left h]
  · simp
  · rw [if_neg (by omega), List.getElem?_eq_none (by simp; omega),
      List.getElem?_eq_none (by omega)]

/-- What the bindings of a new node add to those there were. -/
structure Binds (s : Sources) (d : DependencyNode) (n : DependencyId)
    (b b' : Bindings) :
    Prop where
  role : ∀ m x, b'.roleOf? m = some x
    ↔ b.roleOf? m = some x ∨ ∃ p ∈ d.members, (s.method p.1).id = m
    ∧ (n, p.2) = x
  field : ∀ id m, b'.stageOfField? id = some m
    ↔ b.stageOfField? id = some m ∨ ∃ l ∈ d.fields, (s.field l).id = id ∧ n = m

/-- That a compilation is another one with a new node, whose members are
bound. -/
def Adds (d : DependencyNode) (c c' : Compilation) : Prop :=
  ∃ b t, c' = { c with
    graph := (c.graph.addNode d).2, bindings := b, tree := t }
    ∧ t.leaves = c.tree.leaves
    ∧ Binds c.sources d ⟨c.graph.nodes.length⟩ c.bindings b

/-- The roles that are bound for a discovered stage are those of its
members. -/
theorem stageRoles_eq {s : Sources} {leaf : DeclId} {stage : Stage}
    (h : Stage.Found s leaf stage) :
    stageRoles s stage
      = (DependencyNode.ofStage stage).members.map fun p =>
        ((s.method p.1).id, p.2) := by
  have hmethods : stage.methods.map (fun m => (m.id, Role.stageMethod))
      = stage.methods.map fun m =>
        ((s.method m.location).id, Role.stageMethod) :=
    List.map_congr_left fun m hm => by rw [(h.methods m hm).2.1]
  unfold stageRoles
  rw [hmethods]
  simp only [DependencyNode.ofStage, DependencyNode.members, List.map_append,
    List.map_map]
  rfl

theorem addStage_adds {leaf : DeclId} {stage : Stage}
    (hfound : Stage.Found c.sources leaf stage) :
    Ensures (addStage stage) c fun _ c' => Adds (.ofStage stage) c c' := by
  unfold addStage
  simp only [ensures_bind, ensures_get, ensures_modify]
  refine bindFields_ensures.mono fun _ c₁ h₁ => ?_
  obtain ⟨b₁, rfl, hroles₁, hfields₁⟩ := h₁
  refine bindMethods_ensures.mono fun _ c₂ h₂ => ?_
  obtain ⟨b₂, rfl, hroles₂, hfields₂⟩ := h₂
  refine ⟨b₂, c.tree, rfl, rfl, fun m x => ?_, fun id m => ?_⟩
  · rw [hroles₂, hroles₁, stageRoles_eq hfound]
    simp only [List.mem_map, exists_exists_and_eq_and]
    rfl
  · rw [hfields₂, hfields₁]
    refine or_congr_right ?_
    simp only [DependencyNode.ofStage, DependencyNode.fields, List.mem_map,
      exists_exists_and_eq_and]
    refine exists_congr fun f => and_congr_right fun hf => ?_
    rw [(hfound.fields f hf).2.1]
    rfl

/-- A group node carries no stage. -/
theorem not_stage?_ofGroup {name : String} {group : MethodGroup} {s : Stage} :
    (DependencyNode.ofGroup name group).stage? ≠ some s := nofun

theorem addGroup_adds {name : String} {group : MethodGroup} :
    Ensures (addGroup name group) c fun _ c' =>
      Adds (.ofGroup name group) c c' := by
  unfold addGroup
  simp only [ensures_bind, ensures_get, ensures_modify]
  refine bindMethods_ensures.mono fun _ c₁ h₁ => ?_
  obtain ⟨b, rfl, hroles, hfields⟩ := h₁
  refine bindInterfaceMethods_ensures.mono fun _ c₂ h₂ => ?_
  obtain ⟨t, rfl, hleaves⟩ := h₂
  refine ⟨b, t, rfl, hleaves, fun m x => ?_, fun id m => ?_⟩
  · rw [hroles]
    simp only [DependencyNode.ofGroup, DependencyNode.members, List.mem_map,
      exists_exists_and_eq_and]
    rfl
  · rw [hfields]
    simp [DependencyNode.ofGroup, DependencyNode.fields]

/-- A node whose members are there and not made yet may be added. -/
theorem Populated.adds (h : Populated c) {d : DependencyNode}
    (hadds : Adds d c c') (hdecl : d.decl.index < c.sources.decls.length)
    (hmembers : ∀ p ∈ d.members, c.sources.Has p.1)
    (hdeclared : ∀ s, d.stage? = some s → ∀ a l, s.declared? a = some l →
      c.sources.Has l)
    (hprogress : ∀ s, d.stage? = some s → ∀ a, s.progress a = .notStarted) :
    Populated c' := by
  obtain ⟨b, t, rfl, -, hbinds⟩ := hadds
  have hunstarted : ∀ n a, Compilation.progress
      { c with graph := (c.graph.addNode d).2, bindings := b, tree := t } n a
        = .notStarted := by
    intro n a
    unfold Compilation.progress
    rw [get_addNode]
    split
    · cases hd : d.stage? with
      | none => rfl
      | some s => exact hprogress s hd a
    · exact h.unstarted n a
  refine ⟨⟨?_, ?_, ?_, ?_, fun _ hl => hl.elim⟩, hunstarted⟩
  · intro n hn
    rw [get_addNode]
    split
    · exact hdecl
    · rename_i hne
      refine h.seated.decl n (DependencyGraph.mem_ids.2 ?_)
      have hlt := DependencyGraph.mem_ids.1 hn
      have hi : n.index ≠ c.graph.nodes.length :=
        fun e => hne (congrArg DependencyId.mk e)
      simp only [DependencyGraph.addNode, List.length_append,
        List.length_singleton] at hlt
      omega
  · intro n p hp
    rw [get_addNode] at hp
    split at hp
    · rename_i hn
      subst hn
      exact ⟨hmembers p hp, (hbinds.role _ _).2 (Or.inr ⟨p, hp, rfl, rfl⟩)⟩
    · obtain ⟨hhas, hrole⟩ := h.seated.members n p hp
      exact ⟨hhas, (hbinds.role _ _).2 (Or.inl hrole)⟩
  · intro n a l hl
    unfold Compilation.declared? at hl
    rw [get_addNode] at hl
    split at hl
    · obtain ⟨s, hs, hl⟩ := Option.bind_eq_some_iff.1 hl
      exact hdeclared s hs a l hl
    · exact h.seated.declared n a l hl
  · intro n a l hl
    rw [hunstarted] at hl
    cases hl

/-- The methods of a discovered stage stand in the chain. -/
theorem hasIn_of_mem_members {s : Sources} {leaf : DeclId} {stage : Stage}
    (h : Stage.Found s leaf stage) :
    ∀ p ∈ (DependencyNode.ofStage stage).members, s.HasIn leaf p.1 := by
  intro p hp
  simp only [DependencyNode.ofStage, DependencyNode.members, List.mem_append,
    List.mem_map, Option.mem_toList] at hp
  rcases hp with ((⟨l, hl, rfl⟩ | ⟨l, hl, rfl⟩) | ⟨l, hl, rfl⟩) | ⟨m, hm, rfl⟩
  · exact h.predicate l hl
  · exact h.init l hl
  · exact h.close l hl
  · exact (h.methods m hm).1

/-- The methods of a discovered group stand in the chain. -/
theorem hasIn_of_mem_groupMembers {s : Sources} {leaf : DeclId} {seed : Method}
    {name : String} :
    ∀ p ∈ (DependencyNode.ofGroup name (.discover s leaf seed)).members,
      s.HasIn leaf p.1 := by
  intro p hp
  obtain ⟨l, hl, rfl⟩ := List.mem_map.1 hp
  exact MethodGroup.hasIn_of_mem_discover hl

-- ==================================================================== sweeps

theorem mem_membersOfChains {members : Sources → DeclId → List Location}
    {leaf : DeclId} {l : Location} : (leaf, l) ∈ membersOfChains c members
      ↔ leaf ∈ c.tree.leaves
        ∧ l ∈ (c.sources.extensionChain leaf).flatMap (members c.sources) := by
  unfold membersOfChains Compilation.chains
  simp only [List.mem_flatMap, List.mem_map, Prod.mk.injEq]
  constructor
  · rintro ⟨_, ⟨leaf', hleaf, rfl⟩, l', hl, rfl, rfl⟩
    exact ⟨hleaf, hl⟩
  · rintro ⟨hleaf, hl⟩
    exact ⟨_, ⟨leaf, hleaf, rfl⟩, l, hl, rfl, rfl⟩

/-- A member of a chain has a leaf that is a declaration of the set. -/
theorem lt_of_mem_membersOfChains {members : Sources → DeclId → List Location}
    {leaf : DeclId} {l : Location}
    (h : (leaf, l) ∈ membersOfChains c members) :
    leaf.index < c.sources.decls.length := by
  obtain ⟨link, hlink, -⟩ := List.mem_flatMap.1 (mem_membersOfChains.1 h).2
  exact Sources.lt_of_mem_extensionChain hlink

/-- A turn of the first sweep adds the stage of a field that starts one. -/
theorem discoverStage_ensures {leaf : DeclId} {l : Location} :
    Ensures (discoverStage leaf l) c fun _ c' =>
      (startsStage c (c.sources.field l) = false ∧ c' = c)
        ∨ ∃ stage, startsStage c (c.sources.field l) = true
          ∧ Stage.discover c.sources leaf l = .ok stage
          ∧ Adds (.ofStage stage) c c' := by
  unfold discoverStage
  simp only [ensures_bind, ensures_get]
  split
  · rename_i hstarts
    simp only [ensures_bind, ensures_ofExcept, ensures_pure]
    intro stage hstage
    refine (addStage_adds (Stage.found_discover hstage)).mono
      fun _ c' hadds => ?_
    exact Or.inr ⟨stage, hstarts, hstage, hadds⟩
  · rename_i hstarts
    exact ensures_pure.2 (Or.inl ⟨Bool.eq_false_iff.2 hstarts, rfl⟩)

/-- A turn of the second sweep adds the group of a method that starts
one. -/
theorem discoverGroup_ensures {leaf : DeclId} {l : Location} :
    Ensures (discoverGroup leaf l) c fun _ c' =>
      (startsGroup c (c.sources.method l) = false ∧ c' = c)
        ∨ ∃ name, startsGroup c (c.sources.method l) = true
          ∧ Adds (.ofGroup name
            (.discover c.sources leaf (c.sources.method l))) c c' := by
  unfold discoverGroup
  simp only [ensures_bind, ensures_get]
  split
  · rename_i hstarts
    simp only [ensures_bind, ensures_pure]
    exact addGroup_adds.mono fun _ c' hadds => Or.inr ⟨_, hstarts, hadds⟩
  · rename_i hstarts
    exact ensures_pure.2 (Or.inl ⟨Bool.eq_false_iff.2 hstarts, rfl⟩)

theorem Adds.sources {d : DependencyNode} (h : Adds d c c') :
    c'.sources = c.sources := by
  obtain ⟨b, t, rfl, -⟩ := h
  rfl

theorem Adds.leaves {d : DependencyNode} (h : Adds d c c') :
    c'.tree.leaves = c.tree.leaves := by
  obtain ⟨b, t, rfl, hleaves, -⟩ := h
  exact hleaves

/-- A turn that finds a node, in a chain of `c`. -/
inductive Finds (c c₁ c₂ : Compilation) : Prop
  | stage {leaf : DeclId} {l : Location} {stage : Stage} :
      leaf ∈ c.tree.leaves →
      leaf.index < c.sources.decls.length →
        Stage.discover c.sources leaf l = .ok stage →
      Adds (.ofStage stage) c₁ c₂ → Finds c c₁ c₂
  | group {leaf : DeclId} {name : String} {seed : Method} :
      leaf ∈ c.tree.leaves →
      leaf.index < c.sources.decls.length →
      Adds (.ofGroup name (.discover c.sources leaf seed)) c₁ c₂ →
        Finds c c₁ c₂

/-- What withstands the finding of a node holds after discovery, which
changes no declaration and no leaf. -/
theorem ensures_discoverNodes {I : Compilation → Prop} (h : I c)
    (hfinds : ∀ c₁ c₂, I c₁ → c₁.sources = c.sources →
      c₁.tree.leaves = c.tree.leaves →
      Finds c c₁ c₂ → I c₂) :
    Ensures discoverNodes c fun _ c' =>
      I c' ∧ c'.sources = c.sources ∧ c'.tree.leaves = c.tree.leaves := by
  unfold discoverNodes
  simp only [ensures_bind, ensures_get]
  refine Ensures.mono (ensures_mapM (I := fun _ c' =>
    I c' ∧ c'.sources = c.sources ∧ c'.tree.leaves = c.tree.leaves) ?_
      ⟨h, rfl, rfl⟩)
    fun _ c₁ h₁ => Ensures.mono (ensures_mapM (I := fun _ c' =>
    I c' ∧ c'.sources = c.sources ∧ c'.tree.leaves = c.tree.leaves) ?_ h₁)
    fun _ c₂ h₂ => ensures_pure.2 h₂
  · rintro _ ⟨leaf, l⟩ hp c₁ ⟨hI, hs, hl⟩
    refine discoverStage_ensures.mono fun _ c₂ hturn => ?_
    rcases hturn with ⟨-, rfl⟩ | ⟨stage, -, hstage, hadds⟩
    · exact ⟨hI, hs, hl⟩
    · refine ⟨hfinds c₁ c₂ hI hs hl ?_, hadds.sources.trans hs,
        hadds.leaves.trans hl⟩
      exact .stage (mem_membersOfChains.1 hp).1 (lt_of_mem_membersOfChains hp)
        (hs ▸ hstage) hadds
  · rintro _ ⟨leaf, l⟩ hp c₁ ⟨hI, hs, hl⟩
    refine discoverGroup_ensures.mono fun _ c₂ hturn => ?_
    rcases hturn with ⟨-, rfl⟩ | ⟨name, -, hadds⟩
    · exact ⟨hI, hs, hl⟩
    · refine ⟨hfinds c₁ c₂ hI hs hl ?_, hadds.sources.trans hs,
        hadds.leaves.trans hl⟩
      exact .group (mem_membersOfChains.1 hp).1 (lt_of_mem_membersOfChains hp)
        (hs ▸ hadds)

/-- A node that is found has its members. -/
theorem Populated.finds {c₁ c₂ : Compilation} (h : Populated c₁)
    (hs : c₁.sources = c.sources) (hfinds : Finds c c₁ c₂) : Populated c₂ := by
  cases hfinds with
  | stage _ hlt hstage hadds =>
      have hfound := Stage.found_discover hstage
      rw [← hs] at hfound hlt
      refine h.adds hadds ?_
        (fun p hp => (hasIn_of_mem_members hfound p hp).1) ?_ ?_
      · rw [← hfound.decl] at hlt
        exact hlt
      · intro s hs a l hl
        obtain rfl := Option.some.inj hs
        exact hfound.declared? hl
      · intro s hs a
        obtain rfl := Option.some.inj hs
        exact hfound.progress a
  | group _ hlt hadds =>
      rw [← hs] at hlt hadds
      exact h.adds hadds hlt (fun p hp => (hasIn_of_mem_groupMembers p hp).1)
        (fun _ hs' => absurd hs' not_stage?_ofGroup) fun _ hs' =>
        absurd hs' not_stage?_ofGroup

/-- Both sweeps preserve that every node has its members. -/
theorem discoverNodes_populated (h : Populated c) :
    Ensures discoverNodes c fun _ c' =>
      Populated c' ∧ c'.sources = c.sources :=
  (ensures_discoverNodes h fun _ _ h₁ hs _ hfinds => h₁.finds hs hfinds).mono
    fun _ _ ⟨h', hs, _⟩ => ⟨h', hs⟩

theorem discoverNodes_discovered (h : Discovered c) :
    Ensures discoverNodes c fun _ c' =>
      Discovered c' ∧ c'.sources = c.sources :=
  (discoverNodes_populated h.toPopulated).mono fun _ _ ⟨h', hs⟩ =>
    ⟨⟨h', hs ▸ h.identified⟩, hs⟩

/-- Discovery changes no declaration. -/
theorem discoverNodes_sources :
    Ensures discoverNodes c fun _ c' => c'.sources = c.sources :=
  (ensures_discoverNodes (I := fun _ => True) trivial fun _ _ _ _ _ _ =>
    trivial).mono
    fun _ _ h => h.2.1

-- ================================================================== analysis

/-- That two compilations have the same declarations, nodes and roles. -/
structure SameMembers (c c' : Compilation) : Prop where
  sources : c'.sources = c.sources
  nodes : c'.graph.nodes = c.graph.nodes
  roles : c'.bindings.methodRoles = c.bindings.methodRoles

theorem SameMembers.populated (h : SameMembers c c') (hc : Populated c) :
    Populated c' := by
  have hget : ∀ n, c'.graph.get n = c.graph.get n := by
    intro n
    unfold DependencyGraph.get
    rw [h.nodes]
  have hids : c'.graph.ids = c.graph.ids := by
    unfold DependencyGraph.ids
    rw [h.nodes]
  have hbound : ∀ {l n r}, c.Bound l n r → c'.Bound l n r := by
    intro l n r hb
    unfold Compilation.Bound Bindings.roleOf?
    rw [h.sources, h.roles]
    exact hb
  have hunstarted : ∀ n a, c'.progress n a = .notStarted := by
    intro n a
    unfold Compilation.progress
    rw [hget]
    exact hc.unstarted n a
  refine ⟨⟨?_, ?_, ?_, ?_, fun _ hl => hl.elim⟩, hunstarted⟩
  · rw [h.sources, hids]
    intro n hn
    rw [hget]
    exact hc.seated.decl n hn
  · intro n p hp
    rw [hget] at hp
    exact hbound (hc.seated.members n p hp)
  · intro n a l hl
    unfold Compilation.declared? at hl
    rw [hget] at hl
    rw [h.sources]
    exact hc.seated.declared n a l hl
  · intro n a l hl
    rw [hunstarted] at hl
    cases hl

theorem SameMembers.discovered (h : SameMembers c c') (hc : Discovered c) :
    Discovered c' :=
  ⟨h.populated hc.toPopulated, h.sources ▸ hc.identified⟩

/-- Binding references changes the tree and where references lead. -/
theorem bindReferences_frame :
    Ensures bindReferences c fun _ c' => ∃ t rs,
      c' = { c with
      tree := t, bindings := { c.bindings with references := rs } } := by
  unfold bindReferences
  simp only [ensures_bind, ensures_get]
  refine Ensures.mono (ensures_mapM (I := fun _ c' => ∃ t rs,
    c' = { c with
    tree := t, bindings := { c.bindings with references := rs } }) ?_
    ⟨c.tree, c.bindings.references, rfl⟩) fun _ c₁ h₁ => ?_
  · intro _ site _ c₁ h₁
    obtain ⟨t, rs, rfl⟩ := h₁
    unfold bindReference
    simp only [ensures_bind, ensures_get]
    split
    · simp only [ensures_bind, ensures_modifyBindings]
      split
      · split
        · simp only [ensures_bind, ensures_modifyTree, ensures_pure]
          exact ⟨_, _, rfl⟩
        · exact ensures_pure.2 ⟨_, _, rfl⟩
      · exact ensures_pure.2 ⟨_, _, rfl⟩
    · exact ensures_throw
  · obtain ⟨t, rs, rfl⟩ := h₁
    unfold computePaths
    simp only [ensures_bind, ensures_get, ensures_modifyTree, ensures_ofExcept,
      ensures_pure]
    exact fun _ _ => ⟨_, _, rfl⟩

theorem bindReferences_sameMembers :
    Ensures bindReferences c fun _ c' => SameMembers c c' := by
  refine bindReferences_frame.mono fun _ c' ⟨t, rs, hc'⟩ => ?_
  subst hc'
  exact ⟨rfl, rfl, rfl⟩

/-- A dependency is recorded among the edges only. -/
theorem addDependency_frame {g g' : DependencyGraph} {n d : DependencyId}
    {route : Route} {new : Bool}
    (h : g.addDependency n d route = .ok (new, g')) :
    ∃ es, g' = { g with edges := es } := by
  unfold DependencyGraph.addDependency at h
  split at h
  · split at h
    · obtain ⟨-, rfl⟩ := Prod.mk.inj (Except.ok.inj h)
      exact ⟨g.edges, rfl⟩
    · cases h
  · obtain ⟨-, rfl⟩ := Prod.mk.inj (Except.ok.inj h)
    exact ⟨_, rfl⟩

/-- Linking an expression changes the edges only. -/
theorem linkExpr_frame {e : Expr} :
    Ensures (linkExpr n e) c fun _ c' =>
      ∃ es, c' = { c with graph := { c.graph with edges := es } } := by
  unfold linkExpr
  simp only [ensures_bind, ensures_get]
  split
  · split
    · exact ensures_pure.2 ⟨_, rfl⟩
    · simp only [ensures_bind, ensures_ofExcept, ensures_modify, ensures_pure]
      intro p hadd
      obtain ⟨es, hg⟩ := addDependency_frame hadd
      exact ⟨es, by rw [hg]⟩
  · exact ensures_pure.2 ⟨_, rfl⟩

/-- Linking changes the edges only. -/
theorem linkNodes_frame :
    Ensures linkNodes c fun _ c' =>
      ∃ es, c' = { c with graph := { c.graph with edges := es } } := by
  unfold linkNodes
  simp only [ensures_bind, ensures_get, ensures_pure]
  refine ensures_mapM (I := fun _ c' =>
    ∃ es, c' = { c with graph := { c.graph with edges := es } }) ?_ ⟨_, rfl⟩
  intro _ p _ c₁ h₁
  obtain ⟨es, rfl⟩ := h₁
  refine linkExpr_frame.mono fun _ c₂ h₂ => ?_
  obtain ⟨es', hc₂⟩ := h₂
  exact ⟨es', hc₂⟩

theorem linkNodes_sameMembers :
    Ensures linkNodes c fun _ c' => SameMembers c c' := by
  refine linkNodes_frame.mono fun _ c' ⟨es, hc'⟩ => ?_
  subst hc'
  exact ⟨rfl, rfl, rfl⟩

theorem setPositions_frame {b : Bindings} {ns : List DependencyId} {i : Nat} :
    ∃ ps, setPositions b i ns = { b with positions := ps } := by
  induction ns generalizing b i with
  | nil => exact ⟨b.positions, rfl⟩
  | cons n ns ih => exact ih

/-- Placing the nodes changes the positions only. -/
theorem placeNodes_frame :
    Ensures placeNodes c fun _ c' =>
      ∃ ps, c' = { c with
          bindings := { c.bindings with positions := ps } } := by
  unfold placeNodes
  simp only [ensures_bind, ensures_get, ensures_ofExcept,
    ensures_modifyBindings, ensures_pure]
  intro _ _
  obtain ⟨ps, hps⟩ := setPositions_frame (b := c.bindings)
  exact ⟨ps, by rw [hps]⟩

theorem placeNodes_sameMembers :
    Ensures placeNodes c fun _ c' => SameMembers c c' := by
  refine placeNodes_frame.mono fun _ c' ⟨ps, hc'⟩ => ?_
  subst hc'
  exact ⟨rfl, rfl, rfl⟩

/-- The empty graph has the nameless node only. -/
theorem get_empty : ({} : DependencyGraph).get n
    = ⟨"", ⟨0⟩, .group { decl := ⟨0⟩ }, .notStarted⟩ :=
  List.getD_nil

/-- Before discovery nothing is made. -/
theorem populated_of_empty (hempty : c.graph = {}) : Populated c := by
  have hget : ∀ n,
      c.graph.get n = ⟨"", ⟨0⟩, .group { decl := ⟨0⟩ }, .notStarted⟩ :=
    fun _ => hempty ▸ get_empty
  have hids : c.graph.ids = [] := by
    rw [hempty]
    rfl
  have hunstarted : ∀ n a, c.progress n a = .notStarted := by
    intro n a
    unfold Compilation.progress
    rw [hget]
    rfl
  refine ⟨⟨?_, ?_, ?_, ?_, fun _ hl => hl.elim⟩, hunstarted⟩
  · rw [hids]
    exact fun _ hn => (nomatch hn)
  · intro n p hp
    rw [hget] at hp
    cases hp
  · intro n a l hl
    unfold Compilation.declared? at hl
    rw [hget] at hl
    cases hl
  · intro n a l hl
    rw [hunstarted] at hl
    cases hl

theorem discovered_of_empty (hempty : c.graph = {})
    (hid : ∀ l, c.sources.Has l → c.sources.Identified l) : Discovered c :=
  ⟨populated_of_empty hempty, hid⟩

/-- After the analysis every node has its members and nothing is made. -/
theorem analyse_populated (hempty : c.graph = {}) :
    Ensures analyse c fun _ c' => Populated c' ∧ c'.sources = c.sources := by
  unfold analyse Stagewise.checkWrites
  simp only [ensures_bind, ensures_get, ensures_ofExcept, ensures_pure]
  refine bindReferences_sameMembers.mono fun _ c₁ h₁ => ?_
  refine (discoverNodes_populated
    (h₁.populated (populated_of_empty hempty))).mono fun _ c₂ h₂ => ?_
  intro _ _
  refine linkNodes_sameMembers.mono fun _ c₃ h₃ => ?_
  refine placeNodes_sameMembers.mono fun _ c₄ h₄ => ?_
  exact ⟨h₄.populated (h₃.populated h₂.1),
    h₄.sources.trans (h₃.sources.trans (h₂.2.trans h₁.sources))⟩

/-- Where the methods of the declarations are identified by them, they are so
afterwards. -/
theorem analyse_discovered (hempty : c.graph = {})
    (hid : ∀ l, c.sources.Has l → c.sources.Identified l) :
    Ensures analyse c fun _ c' => Discovered c' :=
  (analyse_populated hempty).mono fun _ _ ⟨h, hs⟩ => ⟨h, hs ▸ hid⟩

end Stagewise.Analysis
