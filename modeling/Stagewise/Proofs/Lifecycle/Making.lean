/-
What the making of members leaves as it was.

# The relation

`Keeps K c c'` says what a compilation still has at a later time: the
methods at the locations `K` unchanged, all others with their headings;
every binding, and no new owner of a field or tagged method; the composition
tree, the edges and every node as it was discovered; what is made or in
progress. New in `c'` are only members that are bound to their stage with
their role (`Made`), and close-dependants methods.

# The invariant

A compilation is `Seated` when every node's discovered methods are there and
bound with their roles, every made member is bound with its role, and the
locations to be kept hold bodies of nodes. It is `WellMade` when also every
method is identified by its declaration. Whatever is kept keeps this
(`Seated.keeps`, `WellMade.keeps`).

The making of a member begins by putting it in progress and ends by putting
it to done. What is in progress stays so in between, which is why the end
overwrites nothing (`Keeps.finish`).
-/
import Stagewise.Convention
import Stagewise.Proofs.Lifecycle.Artifacts
import Stagewise.Proofs.Sources
import Stagewise.Proofs.Step

namespace Stagewise

-- ================================================================ the graph

/-- Change the stage that a node is, if it is one. -/
def DependencyNode.mapStage (f : Stage → Stage) (d : DependencyNode) :
    DependencyNode :=
  match d.kind with
  | .stage s => { d with kind := .stage (f s) }
  | .group _ => d

/-- The node as it was discovered. -/
def DependencyNode.unmade (d : DependencyNode) : DependencyNode :=
  { d.mapStage Stage.unmade with closeDependants := .notStarted }

namespace DependencyNode

variable {d : DependencyNode} {f : Stage → Stage} {s : Stage}

theorem stage?_eq_some : d.stage? = some s ↔ d.kind = .stage s := by
  unfold stage?
  cases d.kind <;> simp

theorem stage?_mapStage : (d.mapStage f).stage? = d.stage?.map f := by
  unfold mapStage stage?
  cases h : d.kind with
  | stage s => rfl
  | group g => simp [h]

theorem stage?_unmade : d.unmade.stage? = d.stage?.map Stage.unmade :=
  stage?_mapStage

theorem unmade_mapStage (hf : ∀ s, (f s).unmade = s.unmade) :
    (d.mapStage f).unmade = d.unmade := by
  unfold unmade mapStage
  cases h : d.kind with
  | stage s => simp only [hf]
  | group g => simp only [h]

theorem closeDependants_mapStage :
    (d.mapStage f).closeDependants = d.closeDependants := by
  unfold mapStage
  cases d.kind <;> rfl

theorem mapStage_eq_self (hf : ∀ s, d.stage? = some s → f s = s) :
    d.mapStage f = d := by
  unfold mapStage
  cases h : d.kind with
  | stage s =>
      have hs := hf s (stage?_eq_some.2 h)
      simp only [hs, ← h]
  | group g => rfl

/-- The discovered methods of a node with the roles they play. -/
def members (d : DependencyNode) : List (Location × Role) :=
  match d.kind with
  | .stage s =>
      s.declaredPredicate.toList.map (·, .predicate)
        ++ s.initMethods.map (·, .init)
        ++ s.declaredClose.toList.map (·, .close)
        ++ s.methods.map fun m => (m.location, .stageMethod)
  | .group g => g.methods.map (·, .grouped)

/-- The fields of a node. -/
def fields (d : DependencyNode) : List Location :=
  match d.kind with
  | .stage s => s.fields.map StageField.location
  | .group _ => []

theorem members_unmade : d.unmade.members = d.members := by
  unfold unmade mapStage members
  cases h : d.kind with
  | stage s => simp [Stage.unmade, StageMethod.unmade]
  | group g => simp only [h]

theorem decl_unmade : d.unmade.decl = d.decl := by
  unfold unmade mapStage
  cases d.kind <;> rfl

theorem name_unmade : d.unmade.name = d.name := by
  unfold unmade mapStage
  cases d.kind <;> rfl

end DependencyNode

namespace DependencyGraph

variable {g : DependencyGraph} {n m : DependencyId} {f : Stage → Stage}

theorem get_modify_of_ne {k : DependencyNode → DependencyNode} (h : m ≠ n) :
    (g.modify n k).get m = g.get m := by
  have hi : n.index ≠ m.index := fun e => h (congrArg DependencyId.mk e).symm
  unfold get modify
  rw [List.getD_eq_getElem?_getD, List.getElem?_modify,
    List.getD_eq_getElem?_getD]
  cases g.nodes[m.index]? with
  | none => rfl
  | some d => simp [hi]

/-- A change of one stage is seen at its node and nowhere else. -/
theorem get_modify_mapStage (n m : DependencyId) :
    (g.modify n (·.mapStage f)).get m
      = if m = n then (g.get n).mapStage f else g.get m := by
  by_cases h : m = n
  · subst h
    unfold get modify
    rw [if_pos rfl, List.getD_eq_getElem?_getD, List.getElem?_modify,
      List.getD_eq_getElem?_getD]
    cases g.nodes[m.index]? with
    | none => rfl
    | some d => simp
  · rw [if_neg h, get_modify_of_ne h]

theorem length_modify (f : DependencyNode → DependencyNode) :
    (g.modify n f).nodes.length = g.nodes.length :=
  List.length_modify f g.nodes n.index

end DependencyGraph

-- ================================================================= bindings

/-- Whether a method of this role has a body that no making of members
replaces. -/
def Role.isBody : Role → Bool
  | .grouped | .stageMethod | .init | .close | .doClose | .closeDependants =>
      true
  | _ => false

namespace Bindings

variable {b b' : Bindings} {method : Identity} {n : DependencyId} {r : Role}

/-- What is bound stays bound. -/
theorem roleOf?_mono (h : b.bindMethod method n r = .ok b') {other : Identity}
    {x : DependencyId × Role} (hx : b.roleOf? other = some x) :
    b'.roleOf? other = some x := by
  have hfree : b.roleOf? method = none := bindMethod_isOk_iff.1 ⟨b', h⟩
  rw [roleOf?_of_bindMethod h, if_neg, hx]
  intro he
  subst he
  rw [hfree] at hx
  cases hx

/-- Binding a method that is not tagged gives no stage a tagged method. -/
theorem stageOfMethod?_of_bindMethod (h : b.bindMethod method n r = .ok b')
    (hr : r ≠ .stageMethod) (other : Identity) :
    b'.stageOfMethod? other = b.stageOfMethod? other := by
  have hfree : b.roleOf? method = none := bindMethod_isOk_iff.1 ⟨b', h⟩
  unfold stageOfMethod? nodeWithRole?
  rw [roleOf?_of_bindMethod h]
  split
  · rename_i he
    split at he
    · rename_i heq
      obtain ⟨rfl, rfl⟩ := Prod.mk.inj (Option.some.inj he)
      rw [heq, hfree, if_neg hr]
    · rw [he]
  · rename_i he
    split at he
    · cases he
    · rw [he]

/-- Binding a field changes no role. -/
theorem roleOf?_of_bindField {field : Identity}
    (h : b.bindField field n = .ok b')
    (method : Identity) : b'.roleOf? method = b.roleOf? method := by
  unfold bindField at h
  split at h
  · cases h
  · obtain rfl := Except.ok.inj h
    rfl

/-- A field that can be bound is bound to nothing yet. -/
theorem stageOfField?_eq_none_of_bindField {field : Identity}
    (h : b.bindField field n = .ok b') : b.stageOfField? field = none := by
  unfold bindField at h
  split at h
  · cases h
  · assumption

theorem stageOfField?_of_bindMethod (h : b.bindMethod method n r = .ok b')
    (field : Identity) : b'.stageOfField? field = b.stageOfField? field := by
  unfold bindMethod at h
  split at h
  · cases h
  · obtain rfl := Except.ok.inj h
    rfl

end Bindings

-- ============================================================== compilations

namespace Compilation

variable {c c' c₁ c₂ : Compilation} {n m : DependencyId} {a b : Artifact}
variable {l l' : Location} {r : Role} {p : Progress Location}

/-- How far the making of a member is. -/
def progress (c : Compilation) (n : DependencyId) (a : Artifact) :
    Progress Location :=
  ((c.graph.get n).stage?.map (·.progress a)).getD .notStarted

/-- How far the making of a node's close-dependants method is. -/
def closing (c : Compilation) (n : DependencyId) :
    Progress (Option Location) :=
  (c.graph.get n).closeDependants

/-- Change the stage at a node. -/
def mapStage (c : Compilation) (n : DependencyId) (f : Stage → Stage) :
    Compilation :=
  { c with graph := c.graph.modify n (·.mapStage f) }

/-- Record how far the making of a member is. -/
def put (c : Compilation) (n : DependencyId) (p : Progress Location)
    (a : Artifact) :
    Compilation :=
  c.mapStage n (·.put p a)

/-- That a node is a stage with the field or method that a member is made
for. -/
def Offers (c : Compilation) (n : DependencyId) (a : Artifact) : Prop :=
  ∃ s, (c.graph.get n).stage? = some s ∧ s.Offers a

/-- The declared method that a made member implements or stands for. -/
def declared? (c : Compilation) (n : DependencyId) (a : Artifact) :
    Option Location :=
  (c.graph.get n).stage?.bind (·.declared? a)

/-- That a method is there and bound to a node with a role. -/
def Bound (c : Compilation) (l : Location) (n : DependencyId) (r : Role) :
    Prop :=
  c.sources.Has l ∧ c.bindings.roleOf? (c.sources.method l).id = some (n, r)

/-- That a location holds a member made for a stage: it is bound with its
role, and it is the declared method if there is one. A predicate that is not
declared has the name of one. -/
structure Made (c : Compilation) (n : DependencyId) (a : Artifact)
    (l : Location) : Prop where
  bound : c.Bound l n a.role
  declared : ∀ declared ∈ c.declared? n a, l = declared
  named : a = .predicate → c.declared? n a = none →
    (c.sources.method l).name = Convention.predicateName (c.graph.name n)

/-- A method is bound to one node with one role. -/
theorem Bound.unique {m : DependencyId} {r' : Role} (h : c.Bound l n r)
    (h' : c.Bound l m r') : n = m ∧ r = r' := by
  have he := h.2.symm.trans h'.2
  exact Prod.mk.inj (Option.some.inj he)

/-- A declared method is the made member once it is bound with its role. -/
theorem made_of_declared (hb : c.Bound l n a.role)
    (hd : c.declared? n a = some l) :
    c.Made n a l :=
  ⟨hb, fun _ hd' => Option.some.inj (hd.symm.trans hd'),
    fun _ hnone => nomatch hd.symm.trans hnone⟩

/-- Where nothing is declared, any method may be the made member, provided
that a predicate is named as one. -/
theorem made_of_undeclared (hb : c.Bound l n a.role)
    (hd : c.declared? n a = none) (hname : a = .predicate →
      (c.sources.method l).name = Convention.predicateName (c.graph.name n)) :
    c.Made n a l :=
  ⟨hb, fun _ hd' => (nomatch hd.symm.trans hd'), fun ha _ => hname ha⟩

-- ---------------------------------------------------------------- progress

theorem progress_eq {s : Stage} (h : (c.graph.get n).stage? = some s) :
    c.progress n a = s.progress a := by
  unfold progress
  rw [h]
  rfl

theorem declared?_eq {s : Stage} (h : (c.graph.get n).stage? = some s) :
    c.declared? n a = s.declared? a := by
  unfold declared?
  rw [h]
  rfl

theorem get_mapStage (f : Stage → Stage) (m : DependencyId) :
    (c.mapStage n f).graph.get m
      = if m = n then (c.graph.get n).mapStage f else c.graph.get m :=
  DependencyGraph.get_modify_mapStage n m

theorem unmade_mapStage {f : Stage → Stage} (hf : ∀ s, (f s).unmade = s.unmade)
    (m : DependencyId) :
    ((c.mapStage n f).graph.get m).unmade = (c.graph.get m).unmade := by
  rw [get_mapStage]
  split
  · rename_i h
    rw [DependencyNode.unmade_mapStage hf, h]
  · rfl

theorem closing_mapStage (f : Stage → Stage) (m : DependencyId) :
    (c.mapStage n f).closing m = c.closing m := by
  unfold closing
  rw [get_mapStage]
  split
  · rename_i h
    rw [DependencyNode.closeDependants_mapStage, h]
  · rfl

theorem progress_put_self (h : c.Offers n a) :
    (c.put n p a).progress n a = p := by
  obtain ⟨s, hs, ha⟩ := h
  unfold progress put
  rw [get_mapStage, if_pos rfl, DependencyNode.stage?_mapStage, hs]
  exact Stage.progress_put_self ha

theorem progress_put_of_ne (h : ¬ (m = n ∧ b = a)) :
    (c.put n p a).progress m b = c.progress m b := by
  unfold progress put
  rw [get_mapStage]
  split
  · rename_i hm
    subst hm
    have hb : b ≠ a := fun e => h ⟨rfl, e⟩
    rw [DependencyNode.stage?_mapStage, Option.map_map]
    congr 2
    funext s
    exact Stage.progress_put_of_ne hb
  · rfl

/-- Recording what is known already changes nothing. -/
theorem put_progress (h : c.Offers n a) : c.put n (c.progress n a) a = c := by
  obtain ⟨s, hs, -⟩ := h
  have hmap : ∀ d, c.graph.nodes[n.index]? = some d →
      d.mapStage (·.put (c.progress n a) a) = d := by
    intro d hd
    refine DependencyNode.mapStage_eq_self fun s' hs' => ?_
    have hget : c.graph.get n = d := by
      unfold DependencyGraph.get
      rw [List.getD_eq_getElem?_getD, hd]
      rfl
    unfold progress
    rw [hget, hs']
    exact s'.put_progress a
  unfold put mapStage DependencyGraph.modify
  rw [modify_eq_self hmap]

/-- Beginning to make a member either finds it done, which changes nothing,
or puts it in progress. -/
theorem start_cases (hn : c.Offers n a) {node artifact : String}
    {found : Option Location}
    (h : (c.progress n a).start node artifact = .ok (found, p)) :
    (∃ l, found = some l ∧ c.progress n a = .done l ∧ c.put n p a = c)
      ∨ (found = none ∧ c.progress n a = .notStarted ∧ p = .inProgress) := by
  rcases Progress.start_eq_ok_iff.1 h with ⟨l, hp, rfl, rfl⟩ | ⟨hp, rfl, rfl⟩
  · exact Or.inl ⟨l, rfl, hp, hp ▸ put_progress hn⟩
  · exact Or.inr ⟨rfl, hp, rfl⟩

-- -------------------------------------------------------- what is discovered

/-- That two compilations have the same nodes as far as they were
discovered. -/
def SameNodes (c c' : Compilation) : Prop :=
  ∀ n, (c'.graph.get n).unmade = (c.graph.get n).unmade

theorem SameNodes.stage? (h : SameNodes c c') (n : DependencyId) :
    (c'.graph.get n).stage?.map Stage.unmade
      = (c.graph.get n).stage?.map Stage.unmade := by
  rw [← DependencyNode.stage?_unmade, h n, DependencyNode.stage?_unmade]

theorem SameNodes.decl (h : SameNodes c c') (n : DependencyId) :
    (c'.graph.get n).decl = (c.graph.get n).decl := by
  rw [← DependencyNode.decl_unmade, h n, DependencyNode.decl_unmade]

theorem SameNodes.name (h : SameNodes c c') (n : DependencyId) :
    c'.graph.name n = c.graph.name n := by
  unfold DependencyGraph.name
  rw [← DependencyNode.name_unmade, h n, DependencyNode.name_unmade]

/-- What is a stage now was discovered as one. -/
theorem SameNodes.stage_of_stage {s' : Stage} (h : SameNodes c c')
    (hs' : (c'.graph.get n).stage? = some s') :
    ∃ s, (c.graph.get n).stage? = some s := by
  have hstage := h.stage? n
  rw [hs'] at hstage
  obtain ⟨s, hs, -⟩ := Option.map_eq_some_iff.1 hstage.symm
  exact ⟨s, hs⟩

/-- What was discovered as a stage is one still. -/
theorem SameNodes.exists_stage {s : Stage} (h : SameNodes c c')
    (hs : (c.graph.get n).stage? = some s) :
    ∃ s', (c'.graph.get n).stage? = some s' ∧ s'.unmade = s.unmade := by
  have hstage := h.stage? n
  rw [hs] at hstage
  exact Option.map_eq_some_iff.1 hstage

theorem SameNodes.unmade_stage {s s' : Stage} (h : SameNodes c c')
    (hs : (c.graph.get n).stage? = some s)
    (hs' : (c'.graph.get n).stage? = some s') :
    s'.unmade = s.unmade := by
  obtain ⟨_, hs₁, hunmade⟩ := h.exists_stage hs
  obtain rfl := Option.some.inj (hs₁.symm.trans hs')
  exact hunmade

/-- What depends on the discovered part of a stage only is the same. -/
theorem SameNodes.bind {α : Type} {f : Stage → Option α} (h : SameNodes c c')
    (hf : ∀ s, f s.unmade = f s) (n : DependencyId) :
    (c'.graph.get n).stage?.bind f = (c.graph.get n).stage?.bind f := by
  have hd : ∀ s : Option Stage, s.bind f = (s.map Stage.unmade).bind f := by
    intro s
    rw [Option.bind_map]
    congr 1
    funext s
    exact (hf s).symm
  rw [hd, h.stage?, ← hd]

theorem SameNodes.declared? (h : SameNodes c c') :
    c'.declared? n a = c.declared? n a :=
  h.bind (fun _ => Stage.declared?_unmade) n

theorem SameNodes.offers (h : SameNodes c c') (ha : c.Offers n a) :
    c'.Offers n a := by
  obtain ⟨s, hs, ha⟩ := ha
  have hs' := h.stage? n
  rw [hs] at hs'
  obtain ⟨s', hs', he⟩ := Option.map_eq_some_iff.1 hs'
  exact ⟨s', hs', Stage.offers_unmade.1 (he ▸ Stage.offers_unmade.2 ha)⟩

-- ================================================================= keeping

variable {K K' : Location → Prop}

/-- What a compilation still has at a later time. The methods at the
locations `K` are not changed at all. -/
structure Keeps (K : Location → Prop) (c c' : Compilation) : Prop where
  sources : Sources.Keeps K c.sources c'.sources
  field : ∀ id, c'.bindings.stageOfField? id = c.bindings.stageOfField? id
  role : ∀ id x, c.bindings.roleOf? id = some x →
    c'.bindings.roleOf? id = some x
  stageMethod : ∀ id, c'.bindings.stageOfMethod? id
    = c.bindings.stageOfMethod? id
  tree : c'.tree = c.tree
  edges : c'.graph.edges = c.graph.edges
  length : c'.graph.nodes.length = c.graph.nodes.length
  nodes : SameNodes c c'
  progress : ∀ n a, c.progress n a = .notStarted
    ∨ c'.progress n a = c.progress n a
  made : ∀ n a l, c'.progress n a = .done l →
    c.progress n a = .done l ∨ c'.Made n a l
  closing : ∀ n, c.closing n = .notStarted ∨ c'.closing n = c.closing n

/-- A later compilation, of which nothing more is known than that it has
what is always kept. -/
abbrev Later : Compilation → Compilation → Prop := Keeps fun _ => False

theorem Bound.keeps (hb : c.Bound l n r) (h : Keeps K c c') : c'.Bound l n r :=
  ⟨(h.sources.heading l
    hb.1).1, by rw [h.sources.id hb.1]; exact h.role _ _ hb.2⟩

/-- A method is called what it was. -/
theorem Keeps.methodName (h : Keeps K c c') (hl : c.sources.Has l) :
    (c'.sources.method l).name = (c.sources.method l).name :=
  Method.name_eq_of_heading (h.sources.heading l hl).2

theorem Made.keeps (hm : c.Made n a l) (h : Keeps K c c') : c'.Made n a l where
  bound := hm.bound.keeps h
  declared d hd := hm.declared d (by rwa [h.nodes.declared?] at hd)
  named ha hd := by
    rw [h.methodName hm.bound.1, h.nodes.name]
    exact hm.named ha (by rwa [h.nodes.declared?] at hd)

/-- What is a member stays one while only the progress of members changes. -/
theorem Made.of_sameNodes (hm : c.Made n a l) (h : SameNodes c c')
    (hsources : c'.sources = c.sources)
    (hbindings : c'.bindings = c.bindings) :
    c'.Made n a l where
  bound := by
    unfold Bound
    rw [hsources, hbindings]
    exact hm.bound
  declared d hd := hm.declared d (by rwa [h.declared?] at hd)
  named ha hd := by
    rw [hsources, h.name]
    exact hm.named ha (by rwa [h.declared?] at hd)

namespace Keeps

theorem refl (K : Location → Prop) (c : Compilation) : Keeps K c c :=
  ⟨.refl K _, fun _ => rfl, fun _ _ h => h, fun _ => rfl, rfl, rfl, rfl,
    fun _ => rfl,
    fun _ _ => Or.inr rfl, fun _ _ _ h => Or.inl h, fun _ => Or.inr rfl⟩

theorem weaken (h : Keeps K c c') (hK : ∀ l, K' l → K l) : Keeps K' c c' :=
  { h with sources := h.sources.weaken hK }

theorem later (h : Keeps K c c') : Later c c' := h.weaken fun _ hl => hl.elim

theorem mem_ids (h : Keeps K c c') : n ∈ c'.graph.ids ↔ n ∈ c.graph.ids := by
  rw [DependencyGraph.mem_ids, h.length, DependencyGraph.mem_ids]

/-- A member that is done stays done. -/
theorem done (h : Keeps K c c') (hl : c.progress n a = .done l) :
    c'.progress n a = .done l := by
  rcases h.progress n a with hn | hp
  · rw [hn] at hl
    cases hl
  · rw [hp, hl]

theorem trans (h : Keeps K c c₁) (h' : Keeps K c₁ c₂) : Keeps K c c₂ := by
  refine ⟨h.sources.trans h'.sources, fun id => (h'.field id).trans
    (h.field id),
    fun id x hx => h'.role id x (h.role id x hx),
    fun id => (h'.stageMethod id).trans (h.stageMethod id),
    h'.tree.trans h.tree, h'.edges.trans h.edges, h'.length.trans h.length,
    fun n => (h'.nodes n).trans (h.nodes n), ?_, ?_, ?_⟩
  · intro n a
    rcases h.progress n a with hn | hp
    · exact Or.inl hn
    · rcases h'.progress n a with hn | hp'
      · exact Or.inl (hp.symm.trans hn)
      · exact Or.inr (hp'.trans hp)
  · intro n a l hl
    rcases h'.made n a l hl with hl₁ | hm
    · rcases h.made n a l hl₁ with hl₀ | hm
      · exact Or.inl hl₀
      · exact Or.inr (hm.keeps h')
    · exact Or.inr hm
  · intro n
    rcases h.closing n with hn | hp
    · exact Or.inl hn
    · rcases h'.closing n with hn | hp'
      · exact Or.inl (hp.symm.trans hn)
      · exact Or.inr (hp'.trans hp)

-- ------------------------------------------------------------ single changes

/-- A change of the sources keeps the rest. -/
theorem ofSources {s : Sources} (h : Sources.Keeps K c.sources s) :
    Keeps K c { c with sources := s } :=
  ⟨h, fun _ => rfl, fun _ _ h => h, fun _ => rfl, rfl, rfl, rfl, fun _ => rfl,
    fun _ _ => Or.inr rfl, fun _ _ _ h => Or.inl h, fun _ => Or.inr rfl⟩

/-- Binding a method that is not tagged keeps everything. -/
theorem bindMethod {method : Identity} {bindings : Bindings}
    (h : c.bindings.bindMethod method n r = .ok bindings)
    (hr : r ≠ .stageMethod) :
    Keeps K c { c with bindings } :=
  ⟨.refl K _, Bindings.stageOfField?_of_bindMethod h,
    fun _ _ => Bindings.roleOf?_mono h,
    Bindings.stageOfMethod?_of_bindMethod h hr, rfl, rfl, rfl, fun _ => rfl,
    fun _ _ => Or.inr rfl, fun _ _ _ h => Or.inl h, fun _ => Or.inr rfl⟩

/-- A change of a stage that is seen neither in its discovered part nor in
the progress of its members. -/
theorem mapStage {f : Stage → Stage} (hf : ∀ s, (f s).unmade = s.unmade)
    (hp : ∀ s a, (f s).progress a = s.progress a) :
    Keeps K c (c.mapStage n f) := by
  have hprogress : ∀ m a, (c.mapStage n f).progress m a = c.progress m a := by
    intro m a
    unfold Compilation.progress
    rw [get_mapStage]
    split
    · rename_i h
      subst h
      rw [DependencyNode.stage?_mapStage, Option.map_map]
      congr 2
      funext s
      exact hp s a
    · rfl
  refine ⟨.refl K _, fun _ => rfl, fun _ _ h => h, fun _ => rfl, rfl, rfl,
    DependencyGraph.length_modify _, unmade_mapStage hf,
    fun m a => Or.inr (hprogress m a), fun m a l hl => Or.inl ?_,
    fun m => Or.inr (closing_mapStage f m)⟩
  rwa [hprogress] at hl

/-- Putting in progress what was not started. -/
theorem start (hn : c.Offers n a) (h : c.progress n a = .notStarted) :
    Keeps K c (c.put n .inProgress a) := by
  refine ⟨.refl K _, fun _ => rfl, fun _ _ h => h, fun _ => rfl, rfl, rfl,
    DependencyGraph.length_modify _, unmade_mapStage fun _ => Stage.unmade_put,
    ?_, ?_,
    fun m => Or.inr (closing_mapStage _ m)⟩
  · intro m b
    by_cases hmb : m = n ∧ b = a
    · rw [hmb.1, hmb.2]
      exact Or.inl h
    · exact Or.inr (progress_put_of_ne hmb)
  · intro m b l hl
    by_cases hmb : m = n ∧ b = a
    · rw [hmb.1, hmb.2, progress_put_self hn] at hl
      cases hl
    · rw [progress_put_of_ne hmb] at hl
      exact Or.inl hl

/-- The end of making a member. It was put in progress at the beginning and
has been so all the time. -/
theorem finish (hn : c.Offers n a) (h : c.progress n a = .notStarted)
    (hmid : Keeps K (c.put n .inProgress a) c₁) (hl : c₁.Made n a l) :
    Keeps K c (c₁.put n (.done l) a) := by
  have hall := (start hn h).trans hmid
  have hn₁ : c₁.Offers n a := hall.nodes.offers hn
  have hnodes : SameNodes c (c₁.put n (.done l) a) := fun m =>
    (unmade_mapStage (fun _ => Stage.unmade_put) m).trans (hall.nodes m)
  refine ⟨hall.sources, hall.field, hall.role, hall.stageMethod,
    hall.tree, hall.edges, (DependencyGraph.length_modify _).trans hall.length,
    hnodes, ?_, ?_,
    fun m => (hall.closing m).imp_right (closing_mapStage _ m).trans⟩
  · intro m b
    by_cases hmb : m = n ∧ b = a
    · rw [hmb.1, hmb.2]
      exact Or.inl h
    · rw [progress_put_of_ne hmb]
      exact hall.progress m b
  · intro m b l' hl'
    have hsame : SameNodes c₁ (c₁.put n (.done l) a) :=
      unmade_mapStage fun _ => Stage.unmade_put
    by_cases hmb : m = n ∧ b = a
    · rw [hmb.1, hmb.2, progress_put_self hn₁] at hl'
      obtain rfl := Progress.done.inj hl'
      rw [hmb.1, hmb.2]
      exact Or.inr (hl.of_sameNodes hsame rfl rfl)
    · rw [progress_put_of_ne hmb] at hl'
      rcases hall.made m b l' hl' with h | hm
      · exact Or.inl h
      · exact Or.inr (hm.of_sameNodes hsame rfl rfl)

end Keeps

-- ============================================================= the invariant

/-- What holds of a compilation while members are made: all members are
where the nodes say, and bound with their roles. The locations `K` hold
bodies of nodes. -/
structure Seated (K : Location → Prop) (c : Compilation) : Prop where
  decl : ∀ n ∈ c.graph.ids, (c.graph.get n).decl.index < c.sources.decls.length
  members : ∀ n, ∀ p ∈ (c.graph.get n).members, c.Bound p.1 n p.2
  declared : ∀ n a, ∀ l ∈ c.declared? n a, c.sources.Has l
  made : ∀ n a l, c.progress n a = .done l → c.Made n a l
  bodies : ∀ l, K l → ∃ n r, c.Bound l n r ∧ r.isBody = true

/-- That methods are also identified by their declarations, so that a member
is known by how other code refers to it. -/
structure WellMade (K : Location → Prop) (c : Compilation) :
    Prop extends Seated K c where
  identified : ∀ l, c.sources.Has l → c.sources.Identified l

namespace Seated

theorem keeps (h : Seated K c) (hk : Keeps K' c c') : Seated K c' where
  decl n hn := by
    rw [hk.nodes.decl, hk.sources.length]
    exact h.decl n (hk.mem_ids.1 hn)
  members n p hp := by
    rw [← DependencyNode.members_unmade, hk.nodes,
      DependencyNode.members_unmade] at hp
    exact (h.members n p hp).keeps hk
  declared n a l hl := by
    rw [hk.nodes.declared?] at hl
    exact (hk.sources.heading l (h.declared n a l hl)).1
  made n a l hl := by
    rcases hk.made n a l hl with hl | hm
    · exact (h.made n a l hl).keeps hk
    · exact hm
  bodies l hl := by
    obtain ⟨n, r, hb, hr⟩ := h.bodies l hl
    exact ⟨n, r, hb.keeps hk, hr⟩

/-- What is to be kept is there. -/
theorem has (h : Seated K c) (hl : K l) : c.sources.Has l :=
  let ⟨_, _, hb, _⟩ := h.bodies l hl
  hb.1

/-- A location that is not bound to hold a body may be changed. -/
theorem not_kept (h : Seated K c) (hb : c.Bound l n r)
    (hr : r.isBody = false) :
    ¬ K l := by
  intro hl
  obtain ⟨m, r', hb', hr'⟩ := h.bodies l hl
  obtain ⟨-, rfl⟩ := hb.unique hb'
  rw [hr] at hr'
  cases hr'

/-- A method that is bound to nothing may be changed. -/
theorem not_kept_of_unbound (h : Seated K c)
    (hfree : c.bindings.roleOf? (c.sources.method l).id = none) : ¬ K l := by
  intro hl
  obtain ⟨n, r, hb, -⟩ := h.bodies l hl
  have he := hb.2
  rw [hfree] at he
  cases he

end Seated

theorem WellMade.keeps (h : WellMade K c) (hk : Keeps K' c c') :
    WellMade K c' where
  toSeated := h.toSeated.keeps hk
  identified l hl := by
    rcases hk.sources.added l hl with hl | hid
    · exact hk.sources.identified hl (h.identified l hl)
    · exact hid

-- ========================================================== made members

/-- The member that was made, as other code refers to it. -/
def made? (c : Compilation) (n : DependencyId) (a : Artifact) :
    Option MethodRef :=
  (c.progress n a).value?.map c.sources.methodRef

/-- The accessor that was made for a field. -/
def accessor? (c : Compilation) (n : DependencyId) (field : Identity) :
    Option MethodRef :=
  ((c.graph.get n).stage?.bind (·.fieldIndex? field)).bind
    (c.made? n <| .accessor ·)

/-- The guarded wrapper that was made for a tagged method. -/
def guarded? (c : Compilation) (n : DependencyId) (method : Identity) :
    Option MethodRef :=
  ((c.graph.get n).stage?.bind (·.methodIndex? method)).bind
    (c.made? n <| .guarded ·)

variable {f : MethodRef}

theorem made?_eq_some : c.made? n a = some f ↔
    ∃ l, c.progress n a = .done l ∧ c.sources.methodRef l = f := by
  unfold made?
  cases c.progress n a <;> simp [Progress.value?]

/-- A made member is referred to in the same way ever after. -/
theorem Keeps.made? (h : Keeps K c c') (hc : Seated K' c)
    (hf : c.made? n a = some f) :
    c'.made? n a = some f := by
  obtain ⟨l, hl, rfl⟩ := made?_eq_some.1 hf
  exact made?_eq_some.2 ⟨l, h.done hl,
    h.sources.methodRef (hc.made n a l hl).1.1⟩

/-- A made member is not tagged with a stage. -/
theorem WellMade.stageOfMethod?_made (hc : WellMade K c)
    (hf : c.made? n a = some f) :
    c.bindings.stageOfMethod? f.identity = none := by
  obtain ⟨l, hl, rfl⟩ := made?_eq_some.1 hf
  obtain ⟨⟨hhas, hrole⟩, -⟩ := hc.made n a l hl
  have hid : (c.sources.method l).id = (c.sources.methodRef l).identity :=
    hc.identified l hhas
  unfold Bindings.stageOfMethod? Bindings.nodeWithRole?
  rw [← hid, hrole]
  exact if_neg a.role_ne_stageMethod

theorem Keeps.accessor? (h : Keeps K c c') (hc : Seated K' c)
    {field : Identity}
    (hf : c.accessor? n field = some f) : c'.accessor? n field = some f := by
  obtain ⟨i, hi, hf⟩ := Option.bind_eq_some_iff.1 hf
  rw [← h.nodes.bind (fun _ => Stage.fieldIndex?_unmade field)] at hi
  exact Option.bind_eq_some_iff.2 ⟨i, hi, h.made? hc hf⟩

theorem Keeps.guarded? (h : Keeps K c c') (hc : Seated K' c)
    {method : Identity}
    (hf : c.guarded? n method = some f) : c'.guarded? n method = some f := by
  obtain ⟨i, hi, hf⟩ := Option.bind_eq_some_iff.1 hf
  rw [← h.nodes.bind (fun _ => Stage.methodIndex?_unmade method)] at hi
  exact Option.bind_eq_some_iff.2 ⟨i, hi, h.made? hc hf⟩

theorem WellMade.stageOfMethod?_accessor (hc : WellMade K c) {field : Identity}
    (hf : c.accessor? n field = some f) :
    c.bindings.stageOfMethod? f.identity = none := by
  obtain ⟨i, -, hf⟩ := Option.bind_eq_some_iff.1 hf
  exact hc.stageOfMethod?_made hf

theorem WellMade.stageOfMethod?_guarded (hc : WellMade K c) {method : Identity}
    (hf : c.guarded? n method = some f) :
    c.bindings.stageOfMethod? f.identity = none := by
  obtain ⟨i, -, hf⟩ := Option.bind_eq_some_iff.1 hf
  exact hc.stageOfMethod?_made hf

end Compilation

end Stagewise
