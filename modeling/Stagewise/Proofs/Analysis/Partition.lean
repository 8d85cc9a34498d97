/-
Discovery deals out the members of the chains: every field of a stage and
every concrete method goes to exactly one node.

The bindings say what the nodes say (`Assigned`), so no member is in two
nodes. That it is in one is settled in its turn of a sweep (`Settled`): a
field that starts a stage is one of its fields, a method that starts a
group is one of its methods, and a member that starts nothing is bound
already.
-/
import Mathlib.Data.List.Nodup
import Stagewise.Proofs.Analysis.Assignment

namespace Stagewise

-- ========================================================== distinct members

namespace Sources

/-- That the methods of one declaration differ in name or parameter types,
and that no two methods and no two fields have one identity. -/
structure Distinct (s : Sources) : Prop where
  signatures : ∀ d ∈ s.decls,
    (d.methods.map fun m => (m.name, m.paramTypes)).Nodup
  methods : (s.decls.flatMap fun d => d.methods.map Method.id).Nodup
  fields : (s.decls.flatMap fun d => d.fields.map Field.id).Nodup

/-- That methods of one declaration with one name and the same parameter
types have one identity. -/
def Coherent (s : Sources) : Prop :=
  ∀ d ∈ s.decls, ∀ m ∈ d.methods, ∀ m' ∈ d.methods, m'.overrides m = true →
    m'.id = m.id

variable {s : Sources} {l l' : Location}

/-- Where signatures differ there is nothing to compare. -/
theorem coherent_of_nodup
    (h : ∀ d ∈ s.decls,
      (d.methods.map fun m => (m.name, m.paramTypes)).Nodup) : s.Coherent := by
  intro d hd m hm m' hm' hoverrides
  unfold Method.overrides at hoverrides
  rw [Bool.and_eq_true, beq_iff_eq, beq_iff_eq] at hoverrides
  rw [List.inj_on_of_nodup_map (h d hd) hm' hm
    (Prod.ext hoverrides.1 hoverrides.2)]

theorem getElem?_decls {d : DeclId} (h : d.index < s.decls.length) :
    s.decls[d.index]? = some (s.get d) := by
  unfold get
  rw [List.getD_eq_getElem?_getD, List.getElem?_eq_getElem h]
  rfl

/-- Where no value occurs twice in the lists of all declarations, it has
one place. -/
theorem location_inj {α : Type} {f : TypeDecl → List α} {a : α}
    (h : (s.decls.flatMap f).Nodup)
    (hd : l.decl.index < s.decls.length)
    (hl : (f (s.get l.decl))[l.index]? = some a)
    (hd' : l'.decl.index < s.decls.length)
    (hl' : (f (s.get l'.decl))[l'.index]? = some a) : l = l' := by
  obtain ⟨hinner, houter⟩ := List.pairwise_flatMap.1 h
  have hapart : ∀ d d' : DeclId, d.index < d'.index →
      d'.index < s.decls.length →
      a ∈ f (s.get d) → a ∉ f (s.get d') := by
    intro d d' hlt hlen ha ha'
    have hne := List.pairwise_iff_getElem.1 houter d.index d'.index
      (by omega) hlen hlt
    have hget := getElem?_decls (s := s) (d := d) (by omega)
    have hget' := getElem?_decls (s := s) hlen
    rw [List.getElem?_eq_some_iff] at hget hget'
    obtain ⟨_, hget⟩ := hget
    obtain ⟨_, hget'⟩ := hget'
    rw [hget, hget'] at hne
    exact hne a ha a ha' rfl
  have ha := List.mem_of_getElem? hl
  have ha' := List.mem_of_getElem? hl'
  rcases Nat.lt_trichotomy l.decl.index l'.decl.index with hlt | heq | hlt
  · exact absurd ha' (hapart _ _ hlt hd' ha)
  · have hdecl : l.decl = l'.decl := congrArg DeclId.mk heq
    rw [← hdecl] at hl'
    obtain ⟨hi, hl⟩ := List.getElem?_eq_some_iff.1 hl
    obtain ⟨hi', hl'⟩ := List.getElem?_eq_some_iff.1 hl'
    have hnodup : (f (s.get l.decl)).Nodup := hinner _ (get_mem hd)
    have hindex := hnodup.getElem_inj_iff.1 (hl.trans hl'.symm)
    rcases l with ⟨d, i⟩
    rcases l' with ⟨d', i'⟩
    exact congr (congrArg Location.mk hdecl) hindex
  · exact absurd ha (hapart _ _ hlt hd ha')

theorem Distinct.method_inj (h : s.Distinct) (hl : s.Has l) (hl' : s.Has l')
    (hid : (s.method l).id = (s.method l').id) : l = l' := by
  have hget : ∀ l, s.Has l →
      ((s.get l.decl).methods.map Method.id)[l.index]? = some (s.method
        l).id := by
    intro l hl
    unfold method
    rw [List.getElem?_map, List.getD_eq_getElem?_getD,
      List.getElem?_eq_getElem hl]
    rfl
  exact location_inj h.methods hl.decl (hget l hl) hl'.decl (hid ▸ hget l' hl')

theorem Distinct.field_inj (h : s.Distinct) (hl : s.HasField l)
    (hl' : s.HasField l')
    (hid : (s.field l).id = (s.field l').id) : l = l' := by
  have hget : ∀ l, s.HasField l →
      ((s.get l.decl).fields.map Field.id)[l.index]? = some (s.field
        l).id := by
    intro l hl
    unfold field
    rw [List.getElem?_map, List.getD_eq_getElem?_getD,
      List.getElem?_eq_getElem hl]
    rfl
  exact location_inj h.fields hl.decl (hget l hl) hl'.decl (hid ▸ hget l' hl')

end Sources

namespace Analysis

open Compilation Step

variable {c c' c₀ : Compilation} {n : DependencyId} {l : Location}

-- ==================================================================== sweeps

/-- Whether a method belongs to some node: it has a body and an object. -/
def IsNodeMethod (m : Method) : Prop :=
  m.modifiers.isStatic = false ∧ m.isAbstract = false

/-- What holds in the sweeps over `c₀`: bindings and nodes agree, and the
members whose turn has come are bound. -/
structure Settled (c₀ : Compilation)
    (fields methods : List (DeclId × Location)) (c : Compilation) : Prop where
  sources : c.sources = c₀.sources
  leaves : c.tree.leaves = c₀.tree.leaves
  assigned : Assigned c
  field : ∀ p ∈ fields, (c₀.sources.field p.2).isStageField = true →
    ∃ n, c.bindings.stageOfField? (c₀.sources.field p.2).id = some n
  method : ∀ p ∈ methods, IsNodeMethod (c₀.sources.method p.2) →
    ∃ x, c.bindings.roleOf? (c₀.sources.method p.2).id = some x

variable {fields methods : List (DeclId × Location)} {leaf : DeclId}
variable {d : DependencyNode}

/-- A new node leaves settled what is settled. -/
theorem Settled.adds (h : Settled c₀ fields methods c) (hadds : Adds d c c')
    (hassigned : Assigned c') : Settled c₀ fields methods c' := by
  refine ⟨hadds.sources.trans h.sources, hadds.leaves.trans h.leaves,
    hassigned,
    fun p hp hstage => ?_, fun p hp hm => ?_⟩
  · obtain ⟨n, hn⟩ := h.field p hp hstage
    exact ⟨n, hadds.field_mono hn⟩
  · obtain ⟨x, hx⟩ := h.method p hp hm
    exact ⟨x, hadds.role_mono hx⟩

/-- A turn of the first sweep settles its field: where the field starts a
stage, it is one of the stage's fields. -/
theorem discoverStage_settled (h : Settled c₀ fields methods c)
    (hleaf : leaf ∈ c₀.tree.leaves) (hl : c₀.sources.HasFieldIn leaf l) :
    Ensures (discoverStage leaf l) c fun _ c' =>
      Settled c₀ (fields ++ [(leaf, l)]) methods c' := by
  refine discoverStage_ensures.mono fun _ c' hturn => ?_
  rw [h.sources] at hturn
  rcases hturn with ⟨hstarts, rfl⟩ | ⟨stage, -, hstage, hadds⟩
  · refine { h with field := List.forall_mem_append.2 ⟨h.field, ?_⟩ }
    rw [List.forall_mem_singleton]
    intro hstage
    simp only [startsStage, hstage, Bool.true_and, Option.isNone_eq_false_iff]
      at hstarts
    exact Option.isSome_iff_exists.1 hstarts
  · have h' : Settled c₀ fields methods c' := h.adds hadds
      (h.assigned.addsStage (h.leaves ▸ hleaf) (h.sources ▸ hstage) hadds)
    refine { h' with field := List.forall_mem_append.2 ⟨h'.field, ?_⟩ }
    rw [List.forall_mem_singleton]
    intro hseed
    have hstages :=
      hadds.field_of_mem (Stage.seed_mem_fields_discover hseed hl hstage)
    rw [h.sources] at hstages
    exact ⟨_, hstages⟩

/-- A turn of the second sweep settles its method: where the method starts
a group, it is one of the group's methods. -/
theorem discoverGroup_settled (h : Settled c₀ fields methods c)
    (hs : c₀.sources.Coherent) (hleaf : leaf ∈ c₀.tree.leaves)
    (hl : c₀.sources.HasIn leaf l) :
    Ensures (discoverGroup leaf l) c fun _ c' =>
      Settled c₀ fields (methods ++ [(leaf, l)]) c' := by
  refine discoverGroup_ensures.mono fun _ c' hturn => ?_
  rw [h.sources] at hturn
  rcases hturn with ⟨hstarts, rfl⟩ | ⟨name, -, hadds⟩
  · refine { h with method := List.forall_mem_append.2 ⟨h.method, ?_⟩ }
    rw [List.forall_mem_singleton]
    intro hm
    simp only [startsGroup, hm.1, hm.2, Bool.not_false, Bool.and_true,
      Bool.true_and, Option.isNone_eq_false_iff] at hstarts
    exact Option.isSome_iff_exists.1 hstarts
  · have h' : Settled c₀ fields methods c' := h.adds hadds
      (h.assigned.addsGroup (h.leaves ▸ hleaf)
        (by rw [h.sources]; exact hadds))
    refine { h' with method := List.forall_mem_append.2 ⟨h'.method, ?_⟩ }
    rw [List.forall_mem_singleton]
    intro _
    obtain ⟨l', hmem, hhas, hdecl, hoverrides⟩ :=
      MethodGroup.seed_mem_discover hl
    have hrole :=
      hadds.role_of_mem (p := (l', .grouped)) (List.mem_map.2 ⟨l', hmem, rfl⟩)
    have hid := hs _ (Sources.get_mem hl.1.decl) _
      (hdecl ▸ Sources.method_mem hhas) _ (Sources.method_mem hl.1) hoverrides
    rw [h.sources, ← hid] at hrole
    exact ⟨_, hrole⟩

/-- After both sweeps all members of all chains are settled. -/
theorem discoverNodes_settled (h : Assigned c) (hs : c.sources.Coherent) :
    Ensures discoverNodes c fun _ c' =>
      Settled c (membersOfChains c Stage.fieldLocations)
        (membersOfChains c Stage.methodLocations) c' := by
  unfold discoverNodes
  simp only [ensures_bind, ensures_get]
  refine Ensures.mono (ensures_mapM (I := fun done => Settled c done []) ?_
    ⟨rfl, rfl, h, List.forall_mem_nil _, List.forall_mem_nil _⟩)
    fun _ c₁ h₁ => ?_
  · intro done p hp c₁ h₁
    obtain ⟨hleaf, hl⟩ := mem_membersOfChains.1 hp
    exact discoverStage_settled h₁ hleaf (Stage.hasFieldIn_iff.2 hl)
  refine Ensures.mono (ensures_mapM (I := fun done => Settled c _ done) ?_ h₁)
    fun _ c₂ h₂ => ensures_pure.2 h₂
  intro done p hp c₂ h₂
  obtain ⟨hleaf, hl⟩ := mem_membersOfChains.1 hp
  exact discoverGroup_settled h₂ hs hleaf (Stage.hasIn_iff.2 hl)

-- ============================================================= the partition

/-- That the members of the chains of some leaves are dealt out to the
nodes, and that the bindings record just this. -/
structure Partitioned (leaves : List DeclId) (c : Compilation) : Prop where
  /-- Every field that is part of some stage is a field of exactly one. -/
  field : ∀ leaf ∈ leaves, ∀ link ∈ c.sources.extensionChain leaf,
    ∀ l ∈ Stage.fieldLocations c.sources link,
      (c.sources.field l).isStageField = true →
      ∃! n, l ∈ (c.graph.get n).fields
  /-- Every concrete method of an object has one role in one node. -/
  method : ∀ leaf ∈ leaves, ∀ link ∈ c.sources.extensionChain leaf,
    ∀ l ∈ Stage.methodLocations c.sources link,
      (c.sources.method l).modifiers.isStatic = false →
      (c.sources.method l).isAbstract = false →
      ∃! p : DependencyId × Role, (l, p.2) ∈ (c.graph.get p.1).members
  stageOfField : ∀ l, c.sources.HasField l → ∀ n,
    c.bindings.stageOfField? (c.sources.field l).id = some n
      ↔ l ∈ (c.graph.get n).fields
  roleOf : ∀ l, c.sources.Has l → ∀ n r,
    c.bindings.roleOf? (c.sources.method l).id = some (n, r)
      ↔ (l, r) ∈ (c.graph.get n).members
  disjoint : ∀ n m, n ≠ m → ∀ l ∈ c.bodyLocations n, l ∉ c.bodyLocations m

/-- Where members have distinct identities, a field is bound to the stages
it is a field of. -/
theorem Assigned.stageOfField?_iff (h : Assigned c) (hs : c.sources.Distinct)
    (hl : c.sources.HasField l) :
    c.bindings.stageOfField? (c.sources.field l).id = some n
      ↔ l ∈ (c.graph.get n).fields := by
  rw [h.stage]
  constructor
  · rintro ⟨l', hl', hid⟩
    exact hs.field_inj (h.hasField hl') hl hid ▸ hl'
  · exact fun hl => ⟨l, hl, rfl⟩

/-- Where members have distinct identities, a method is bound to the nodes
it is a method of. -/
theorem Assigned.roleOf?_iff (h : Assigned c) (hs : c.sources.Distinct)
    {r : Role} (hl : c.sources.Has l) :
    c.bindings.roleOf? (c.sources.method l).id = some (n, r)
      ↔ (l, r) ∈ (c.graph.get n).members := by
  rw [h.role]
  constructor
  · rintro ⟨l', hl', hid⟩
    exact hs.method_inj (h.has hl') hl hid ▸ hl'
  · exact fun hl => ⟨l, hl, rfl⟩

theorem Settled.partitioned
    (h : Settled c (membersOfChains c Stage.fieldLocations)
      (membersOfChains c Stage.methodLocations) c')
    (hs : c.sources.Distinct) : Partitioned c.tree.leaves c' := by
  obtain ⟨hsources, -, hassigned, hfield, hmethod⟩ := h
  rw [← hsources] at hs hfield hmethod
  refine ⟨?_, ?_, fun l hl n => hassigned.stageOfField?_iff hs hl,
    fun l hl n r => hassigned.roleOf?_iff hs hl, ?_⟩
  · intro leaf hleaf link hlink l hl hstage
    rw [hsources] at hlink hl
    have hmem : (leaf, l) ∈ membersOfChains c Stage.fieldLocations :=
      mem_membersOfChains.2 ⟨hleaf, List.mem_flatMap.2 ⟨link, hlink, hl⟩⟩
    rw [← hsources] at hl
    have hhas := (Stage.mem_fieldLocations.1 hl).1
    obtain ⟨n, hn⟩ := hfield _ hmem hstage
    refine ⟨n, (hassigned.stageOfField?_iff hs hhas).1 hn, fun m hm => ?_⟩
    have hm' := (hassigned.stageOfField?_iff hs hhas).2 hm
    exact Option.some.inj (hm'.symm.trans hn)
  · intro leaf hleaf link hlink l hl hstatic habstract
    rw [hsources] at hlink hl
    have hmem : (leaf, l) ∈ membersOfChains c Stage.methodLocations :=
      mem_membersOfChains.2 ⟨hleaf, List.mem_flatMap.2 ⟨link, hlink, hl⟩⟩
    rw [← hsources] at hl
    have hhas := (Stage.mem_methodLocations.1 hl).1
    obtain ⟨x, hx⟩ := hmethod _ hmem ⟨hstatic, habstract⟩
    refine ⟨x, (hassigned.roleOf?_iff hs hhas).1 hx, fun y hy => ?_⟩
    have hy' := (hassigned.roleOf?_iff hs hhas).2 hy
    exact Option.some.inj (hy'.symm.trans hx)
  · intro n m hnm l hn hm
    -- one location would have a role in both nodes
    obtain ⟨r, hr⟩ := hassigned.mem_members hn
    obtain ⟨r', hr'⟩ := hassigned.mem_members hm
    have hhas := hassigned.has hr
    have he := ((hassigned.roleOf?_iff hs hhas).2 hr).symm.trans
      ((hassigned.roleOf?_iff hs hhas).2 hr')
    exact hnm (Prod.mk.inj (Option.some.inj he)).1

/-- Where discovery succeeds on members with distinct identities and
signatures, every field of a stage in any chain is a field of exactly one
stage, every concrete method of an object has one role in one node, the
bindings say of every member what the nodes say, and no two nodes share a
body. -/
theorem discoverNodes_partitions {report : NodeReport} (hgraph : c.graph = {})
    (hfields : c.bindings.fieldStages = [])
    (hroles : c.bindings.methodRoles = [])
    (hs : c.sources.Distinct)
    (hrun : discoverNodes.runOn c = (.ok report, c')) :
    c'.sources = c.sources ∧ Partitioned c.tree.leaves c' := by
  have h := discoverNodes_settled (assigned_of_empty hgraph hfields hroles)
    (Sources.coherent_of_nodup hs.signatures) _ _ hrun
  exact ⟨h.sources, h.partitioned hs⟩

/-- A base with a field `x` and a method `get`, and a class derived from it
with a field `y`, its init method and an overriding `get`. -/
def baseSources : Sources :=
  let field (name : String) : Field :=
    { name, type := .int, init := some (.literal (.int 0)) }
  let get : Method := { name := "get", returns := .void }
  let b : TypeDecl :=
    { TypeDecl.participating "B" with fields := [field "x"], methods := [get] }
  let d : TypeDecl :=
    { TypeDecl.participating "D" with
      superclass := some (.named "B")
      fields := [field "y"]
      methods := [{ name := "initY", returns := .void }, get] }
  { decls := [b.assignIdentities, d.assignIdentities] }

/-- The derived class alone at the root. -/
def baseTree : Composition :=
  { nodes := [{ decls := [⟨1⟩] }]
    leafNodes := [(⟨1⟩, Composition.root)]
    linkNodes := [(⟨1⟩, Composition.root), (⟨0⟩, Composition.root)] }

/-- The field of the base is a field of one stage, and so is that of the
derived class; the method of the base belongs to one node, its group. -/
theorem discoverNodes_partitions_base : ∃ report c,
    discoverNodes.runOn { sources := baseSources, tree := baseTree }
      = (.ok report, c)
      ∧ report.stages = 2 ∧ report.groups = 1
      ∧ (∃! n, ⟨⟨0⟩, 0⟩ ∈ (c.graph.get n).fields)
      ∧ (∃! n, ⟨⟨1⟩, 0⟩ ∈ (c.graph.get n).fields)
      ∧ ∃! p : DependencyId × Role,
      (⟨⟨0⟩, 0⟩, p.2) ∈ (c.graph.get p.1).members := by
  have hs : baseSources.Distinct :=
    ⟨by decide +kernel, by decide +kernel, by decide +kernel⟩
  let c₀ : Compilation := { sources := baseSources, tree := baseTree }
  obtain ⟨report, hrun⟩ :=
    exists_runOn_eq (x := discoverNodes) (c := c₀) (by decide +kernel)
  have hcounts : (discoverNodes.runOn c₀).1.toOption.map
      (fun r => (r.stages, r.groups))
      = some (2, 1) := by decide +kernel
  rw [hrun] at hcounts
  obtain ⟨hstages, hgroups⟩ := Prod.mk.inj (Option.some.inj hcounts)
  obtain ⟨hsources, hc⟩ := discoverNodes_partitions rfl rfl rfl hs hrun
  refine ⟨report, _, hrun, hstages, hgroups, ?_, ?_, ?_⟩
  · refine hc.field ⟨1⟩ (by decide) ⟨0⟩ ?_ ⟨⟨0⟩, 0⟩ ?_ ?_ <;> rw [hsources]
      <;> decide +kernel
  · refine hc.field ⟨1⟩ (by decide) ⟨1⟩ ?_ ⟨⟨1⟩, 0⟩ ?_ ?_ <;> rw [hsources]
      <;> decide +kernel
  · refine hc.method ⟨1⟩ (by decide) ⟨0⟩ ?_ ⟨⟨0⟩, 0⟩ ?_ ?_ ?_
      <;> rw [hsources] <;>
      decide +kernel

end Analysis

end Stagewise
