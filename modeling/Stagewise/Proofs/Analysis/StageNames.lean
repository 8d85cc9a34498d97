/-
For which stage a field is taken.

A field belongs to the stage that its tag names, or else to the one that its
own name names (`Field.stageName`). From there a stage is discovered, and the
discovery reads nothing else of the field that it starts from
(`Stage.discover_eq_ok_iff`). But the scan for the other fields of the stage
takes a field by its tag or by its name, whichever fits. So a field that is
tagged for one stage and named for another one can be taken for the wrong
stage, if a field of the chain belongs there (`Stage.IsTorn`); every other
field is taken for its own (`discoverNodes_takes`).
-/
import Stagewise.Proofs.Analysis.Partition
import Stagewise.Proofs.Stage.Lifecycle

namespace Stagewise

-- ================================================================== one stage

namespace Stage

variable {s : Sources} {leaf : DeclId} {seed l : Location} {stage : Stage}

/-- That a field is tagged for one stage and named for another one, to which a
field of the chain belongs. -/
def IsTorn (s : Sources) (leaf : DeclId) (l : Location) : Prop :=
  (s.field l).stageName ≠ Text.capitalize (s.field l).name
    ∧ ∃ l', s.HasFieldIn leaf l' ∧ (s.field l').isStageField = true
      ∧ (s.field l').stageName = Text.capitalize (s.field l).name

theorem discover_eq_ok (h : discover s leaf seed = .ok stage) :
    stage.name = (s.field seed).stageName ∧ stage.Complete s leaf := by
  rcases discover_cases s leaf seed with
    ⟨e, he, -⟩ | ⟨⟨stage', hstage, hname, hcomplete, -⟩, -⟩ | ⟨⟨detail, he⟩, -⟩
  · cases he.symm.trans h
  · obtain rfl := Except.ok.inj (hstage.symm.trans h)
    exact ⟨hname, hcomplete⟩
  · cases he.symm.trans h

/-- A stage is found again from the fields that belong to it. -/
theorem discover_eq_ok_iff (h : discover s leaf seed = .ok stage) :
    discover s leaf l = .ok stage ↔ (s.field l).stageName = stage.name := by
  constructor
  · exact fun hl => (discover_eq_ok hl).1.symm
  · intro hname
    rw [(discover_eq_ok h).1] at hname
    rw [← h, discover_eq, discover_eq, hname]

/-- A field of a stage belongs to it, or is torn. -/
theorem stageName_or_isTorn (h : discover s leaf seed = .ok stage)
    (hseed : (s.field seed).isStageField = true)
    (hchain : s.HasFieldIn leaf seed)
    {f : StageField} (hf : f ∈ stage.fields) :
    (s.field f.location).stageName = stage.name
      ∨ IsTorn s leaf f.location
        ∧ Text.capitalize (s.field f.location).name = stage.name := by
  obtain ⟨hname, hcomplete⟩ := discover_eq_ok h
  have hmem : f.location ∈ belonging s stage.name (chainFields s leaf) :=
    hcomplete.fields ▸ List.mem_map_of_mem hf
  have hbelongs : Belongs stage.name (s.field f.location) := by
    simpa using (List.mem_filter.1 hmem).2
  by_cases he : (s.field f.location).stageName = stage.name
  · exact Or.inl he
  · have hcapitalized : Text.capitalize (s.field f.location).name
        = stage.name := by
      refine hbelongs.2.resolve_left fun htag => he ?_
      unfold Field.stageName
      rw [htag]
      rfl
    exact Or.inr ⟨⟨fun hsame => he (hsame.trans hcapitalized), seed,
      hchain, hseed, hname.symm.trans hcapitalized.symm⟩, hcapitalized⟩

end Stage

namespace Analysis

open Compilation Step

variable {c c₀ c₁ c₂ c' : Compilation} {leaf : DeclId} {l : Location}
variable {d : DependencyNode}

-- ================================================================= all stages

/-- That the stage of a node has been discovered from a field of its chain. -/
def IsSeeded (c₀ : Compilation) (d : DependencyNode) : Prop :=
  ∀ stage, d.stage? = some stage →
    ∃ seed, c₀.sources.HasFieldIn stage.decl seed
    ∧ (c₀.sources.field seed).isStageField = true
    ∧ Stage.discover c₀.sources stage.decl seed = .ok stage

/-- What holds in the sweeps over `c₀`: the fields whose turn has come are
bound, and every stage has been discovered from a field. -/
structure Seeded (c₀ : Compilation) (fields : List (DeclId × Location))
    (c : Compilation) :
    Prop extends Settled c₀ fields [] c where
  stages : ∀ n, IsSeeded c₀ (c.graph.get n)

variable {fields : List (DeclId × Location)}

theorem seeded_of_empty (hgraph : c.graph = {})
    (hfields : c.bindings.fieldStages = [])
    (hroles : c.bindings.methodRoles = []) : Seeded c [] c where
  sources := rfl
  leaves := rfl
  assigned := assigned_of_empty hgraph hfields hroles
  field := List.forall_mem_nil _
  method := List.forall_mem_nil _
  stages := by
    rw [hgraph]
    exact fun _ _ hstage => nomatch hstage

theorem IsSeeded.adds (h : ∀ n, IsSeeded c₀ (c₁.graph.get n))
    (hadds : Adds d c₁ c₂)
    (hd : IsSeeded c₀ d) : ∀ n, IsSeeded c₀ (c₂.graph.get n) := by
  obtain ⟨b, t, rfl, -⟩ := hadds
  intro n
  rw [get_addNode]
  split
  · exact hd
  · exact h n

theorem discoverStage_seeded (h : Seeded c₀ fields c₁)
    (hleaf : leaf ∈ c₀.tree.leaves) (hl : c₀.sources.HasFieldIn leaf l) :
    Ensures (discoverStage leaf l) c₁ fun _ c₂ =>
      Seeded c₀ (fields ++ [(leaf, l)]) c₂ := by
  intro b c₂ hrun
  refine ⟨discoverStage_settled h.toSettled hleaf hl b c₂ hrun, ?_⟩
  have hturn := discoverStage_ensures b c₂ hrun
  rw [h.sources] at hturn
  rcases hturn with ⟨-, rfl⟩ | ⟨stage, hstarts, hstage, hadds⟩
  · exact h.stages
  · refine IsSeeded.adds h.stages hadds fun stage' hsame => ?_
    obtain rfl := Option.some.inj hsame
    obtain rfl := (Stage.found_discover hstage).decl
    exact ⟨l, hl, (Bool.and_eq_true_iff.1 hstarts).1, hstage⟩

theorem discoverGroup_seeded (h : Seeded c₀ fields c₁)
    (hleaf : leaf ∈ c₀.tree.leaves) :
    Ensures (discoverGroup leaf l) c₁ fun _ c₂ => Seeded c₀ fields c₂ := by
  refine discoverGroup_ensures.mono fun _ c₂ hturn => ?_
  rcases hturn with ⟨-, rfl⟩ | ⟨name, -, hadds⟩
  · exact h
  · exact ⟨h.adds hadds (h.assigned.addsGroup (h.leaves ▸ hleaf) hadds),
      IsSeeded.adds h.stages hadds fun _ hs => absurd hs not_stage?_ofGroup⟩

/-- After both sweeps all fields of all chains are bound, and all stages have
been discovered from fields. -/
theorem discoverNodes_seeded (h : Seeded c [] c) :
    Ensures discoverNodes c fun _ c' =>
      Seeded c (membersOfChains c Stage.fieldLocations) c' := by
  unfold discoverNodes
  simp only [ensures_bind, ensures_get]
  refine Ensures.mono
      (ensures_mapM (I := fun done => Seeded c done) ?_ h) fun _ c₁ h₁ =>
    Ensures.mono (ensures_mapM (I := fun _ => Seeded c _) ?_ h₁) fun _ c₂ h₂ =>
      ensures_pure.2 h₂
  · intro done p hp c₁ h₁
    obtain ⟨hleaf, hl⟩ := mem_membersOfChains.1 hp
    exact discoverStage_seeded h₁ hleaf (Stage.hasFieldIn_iff.2 hl)
  · intro done p hp c₂ h₂
    exact discoverGroup_seeded h₂ (mem_membersOfChains.1 hp).1

/-- Where discovery succeeds, every field of a chain that can belong to a stage
is bound to one that has a field of its identity. A field of a stage belongs to
it, whatever the order of declaration, and leads to the same stage again; or it
is torn, and the stage is the one that it is named for. -/
theorem discoverNodes_takes {report : NodeReport} (hgraph : c.graph = {})
    (hfields : c.bindings.fieldStages = [])
    (hroles : c.bindings.methodRoles = [])
    (hrun : discoverNodes.runOn c = (.ok report, c')) :
    (∀ leaf ∈ c.tree.leaves, ∀ l, c.sources.HasFieldIn leaf l →
        (c.sources.field l).isStageField = true →
        ∃ n stage, c'.bindings.stageOfField? (c.sources.field l).id = some n
          ∧ (c'.graph.get n).stage? = some stage
          ∧ ∃ f ∈ stage.fields, (c.sources.field f.location).id
            = (c.sources.field l).id
            ∧ ((∀ l', c.sources.HasField l' →
              (c.sources.field l').id = (c.sources.field l).id → l' = l) →
            f.location = l))
      ∧ ∀ n stage, (c'.graph.get n).stage? = some stage → ∀ f ∈ stage.fields,
        (stage.name = (c.sources.field f.location).stageName
            ∧ Stage.discover c.sources stage.decl f.location = .ok stage)
          ∨ (Stage.IsTorn c.sources stage.decl f.location
            ∧ stage.name = Text.capitalize (c.sources.field f.location).name
            ∧ Stage.discover c.sources stage.decl f.location ≠ .ok stage) := by
  have h := discoverNodes_seeded
    (seeded_of_empty hgraph hfields hroles) _ _ hrun
  constructor
  · intro leaf hleaf l hl hstage
    have hmem : (leaf, l) ∈ membersOfChains c Stage.fieldLocations :=
      mem_membersOfChains.2 ⟨hleaf, Stage.hasFieldIn_iff.1 hl⟩
    obtain ⟨n, hn⟩ := h.field _ hmem hstage
    obtain ⟨l', hl', hid⟩ := (h.assigned.stage _ n).1 hn
    have hhas := h.assigned.hasField hl'
    rw [h.sources] at hid hhas
    unfold DependencyNode.fields at hl'
    cases hkind : (c'.graph.get n).kind with
    | group g =>
        rw [hkind] at hl'
        cases hl'
    | stage stage =>
        rw [hkind] at hl'
        obtain ⟨f, hf, rfl⟩ := List.mem_map.1 hl'
        exact ⟨n, stage, hn, DependencyNode.stage?_eq_some.2 hkind, f, hf, hid,
          fun honly => honly _ hhas hid⟩
  · intro n stage hstage f hf
    obtain ⟨seed, hchain, hseed, hdiscover⟩ := h.stages n stage hstage
    have hagain := Stage.discover_eq_ok_iff (l := f.location) hdiscover
    rcases Stage.stageName_or_isTorn hdiscover hseed hchain hf with hname
      | ⟨htorn, hname⟩
    · exact Or.inl ⟨hname.symm, hagain.2 hname⟩
    · refine Or.inr ⟨htorn, hname.symm, fun hself => htorn.1 ?_⟩
      exact (hagain.1 hself).trans hname.symm

/-- The field of the derived class is taken for its own stage, and leads to it
again. -/
theorem discoverNodes_takes_base : ∃ report c n stage,
    discoverNodes.runOn { sources := baseSources, tree := baseTree }
      = (.ok report, c)
      ∧ c.bindings.stageOfField? (baseSources.field ⟨⟨1⟩, 0⟩).id = some n
      ∧ (c.graph.get n).stage? = some stage ∧ stage.name = "Y"
      ∧ Stage.discover baseSources stage.decl ⟨⟨1⟩, 0⟩ = .ok stage := by
  have hs : baseSources.Distinct :=
    ⟨by decide +kernel, by decide +kernel, by decide +kernel⟩
  have hl : baseSources.HasFieldIn ⟨1⟩ ⟨⟨1⟩, 0⟩ :=
    Stage.hasFieldIn_iff.2 (by decide +kernel)
  obtain ⟨report, hrun⟩ := exists_runOn_eq (x := discoverNodes)
    (c := { sources := baseSources, tree := baseTree }) (by decide +kernel)
  obtain ⟨hbound, hstages⟩ := discoverNodes_takes rfl rfl rfl hrun
  obtain ⟨n, stage, hn, hstage, f, hf, -, honly⟩ :=
    hbound ⟨1⟩ (by decide) ⟨⟨1⟩, 0⟩ hl (by decide +kernel)
  have hlocation : f.location = ⟨⟨1⟩, 0⟩ :=
    honly fun l' hl' => hs.field_inj hl' hl.1
  have htaken := hstages n stage hstage f hf
  rw [hlocation] at htaken
  have hname : (baseSources.field ⟨⟨1⟩, 0⟩).stageName = "Y" := by
    decide +kernel
  rcases htaken with ⟨hown, hagain⟩ | ⟨⟨htorn, -⟩, -⟩
  · exact ⟨report, _, n, stage, hrun, hn, hstage, hown.trans hname, hagain⟩
  · exact absurd (show _ = _ by decide +kernel) htorn

/-- A class with a field that is tagged for one stage and named for another
one, which its other field is tagged for. -/
def tornSources : Sources :=
  let tagged (name stage : String) (init : Option Expr) : Field :=
    { name, type := .int, markers := [.stage stage], init }
  let p : TypeDecl :=
    { TypeDecl.participating "P" with
      fields := [tagged "x" "Foo" (some (.literal (.int (-1)))),
        tagged "foo" "Bar" none]
      methods :=
        [{ name := "barInit", returns := .boolean },
          { name := "closeBar", returns := .void }] }
  { decls := [p.assignIdentities] }

/-- A class alone at the root. -/
def loneTree : Composition :=
  { nodes := [{ decls := [⟨0⟩] }]
    leafNodes := [(⟨0⟩, Composition.root)]
    linkNodes := [(⟨0⟩, Composition.root)] }

/-- The field is taken for the stage that it is named for, and leads to another
one. -/
theorem discoverNodes_takes_torn : ∃ report c n stage,
    discoverNodes.runOn { sources := tornSources, tree := loneTree }
      = (.ok report, c)
      ∧ c.bindings.stageOfField? (tornSources.field ⟨⟨0⟩, 1⟩).id = some n
      ∧ (c.graph.get n).stage? = some stage
      ∧ stage.name = "Foo" ∧ (tornSources.field ⟨⟨0⟩, 1⟩).stageName = "Bar"
      ∧ Stage.discover tornSources stage.decl ⟨⟨0⟩, 1⟩ ≠ .ok stage := by
  obtain ⟨report, hrun⟩ := exists_runOn_eq (x := discoverNodes)
    (c := { sources := tornSources, tree := loneTree }) (by decide +kernel)
  have hbound :
      ((discoverNodes.runOn
        { sources := tornSources, tree := loneTree }).2.bindings
      |>.stageOfField? (tornSources.field ⟨⟨0⟩, 1⟩).id) = some ⟨0⟩ := by
    decide +kernel
  have hfound :
      (((discoverNodes.runOn
        { sources := tornSources, tree := loneTree }).2.graph.get
      ⟨0⟩).stage?.map fun stage => (stage.name, stage.decl))
    = some ("Foo", ⟨0⟩) := by
    decide +kernel
  have hother :
      (Stage.discover tornSources ⟨0⟩ ⟨⟨0⟩, 1⟩).toOption.map Stage.name
      = some "Bar" := by decide +kernel
  obtain ⟨stage, hstage, hsame⟩ := Option.map_eq_some_iff.1 hfound
  obtain ⟨hname, hdecl⟩ := Prod.mk.inj hsame
  refine ⟨report, _, ⟨0⟩, stage, hrun, hbound, hstage,
    hname, by decide +kernel, fun hself => ?_⟩
  rw [hdecl] at hself
  rw [hself] at hother
  exact absurd (hname.symm.trans (Option.some.inj hother)) (by decide)

end Analysis

end Stagewise
