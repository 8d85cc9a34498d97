/-
What discovery finds is there.

A scan either leaves the stage as it is or takes over the member it is
given (`Stage.scanMethod_cases`, `Stage.scanField_cases`). So every method
and field that a discovered stage refers to stands in some declaration
(`Stage.Found`), none of the stage's members is made yet, and the field
that a stage is found from is one of its fields. Likewise the method that a
group is found from is one of the group's, provided that its declaration
has no other of its signature.

A leaf whose chain has any link is a declaration that takes part in
merging, and so one of the set.
-/
import Stagewise.Proofs.Lifecycle.Artifacts
import Stagewise.Proofs.Sources
import Stagewise.Stage.Discovery

namespace Stagewise

-- ==================================================================== chains

namespace Sources

variable {s : Sources} {leaf link : DeclId}

theorem lt_of_isParticipating (h : (s.get leaf).isParticipating = true) :
    leaf.index < s.decls.length := by
  rcases Nat.lt_or_ge leaf.index s.decls.length with hlt | hge
  · exact hlt
  · unfold get at h
    rw [List.getD_eq_getElem?_getD, List.getElem?_eq_none hge] at h
    cases h

/-- A leaf whose chain has a link is a declaration of the set. -/
theorem lt_of_mem_extensionChain (h : link ∈ s.extensionChain leaf) :
    leaf.index < s.decls.length := by
  unfold extensionChain at h
  cases hfuel : s.decls.length with
  | zero =>
      rw [hfuel, chainFrom] at h
      cases h
  | succ fuel =>
      rw [hfuel, chainFrom] at h
      split at h
      · cases h
      · rename_i hstop
        rw [← hfuel]
        exact lt_of_isParticipating (by simpa using hstop)

/-- That a method stands in a link of a leaf's chain. -/
def HasIn (s : Sources) (leaf : DeclId) (l : Location) : Prop :=
  s.Has l ∧ l.decl ∈ s.extensionChain leaf

/-- That a field stands in a link of a leaf's chain. -/
def HasFieldIn (s : Sources) (leaf : DeclId) (l : Location) : Prop :=
  s.HasField l ∧ l.decl ∈ s.extensionChain leaf

end Sources

-- ==================================================================== stages

/-- A sequence that does not fail consists of parts that do not. -/
theorem bind_eq_ok {α β : Type} {x : Except Failure α}
    {f : α → Except Failure β} {b : β} (h : (x >>= f) = .ok b) :
    ∃ a, x = .ok a ∧ f a = .ok b := by
  cases x with
  | error e => cases h
  | ok a => exact ⟨a, rfl, h⟩

/-- An invariant of the steps of a fold that may fail. -/
theorem foldlM_invariant {α β : Type} {f : β → α → Except Failure β}
    {I : β → Prop} {as : List α} (hf : ∀ a ∈ as, ∀ b b', I b →
      f b a = .ok b' → I b') :
    ∀ b b', I b → as.foldlM f b = .ok b' → I b' := by
  induction as with
  | nil =>
      intro b b' hb h
      obtain rfl := Except.ok.inj h
      exact hb
  | cons a as ih =>
      intro b b' hb h
      rw [List.foldlM_cons] at h
      obtain ⟨b₁, hab, hrest⟩ := bind_eq_ok h
      exact ih (fun a ha => hf a (List.mem_cons_of_mem _ ha)) b₁ b'
        (hf a List.mem_cons_self b b₁ hb hab) hrest

/-- What one step of a fold establishes holds at the end, if no other step
takes it away. -/
theorem foldlM_establishes {α β : Type} {f : β → α → Except Failure β}
    {I P : β → Prop} {as : List α} {a : α} (ha : a ∈ as)
    (hI : ∀ a ∈ as, ∀ b b', I b → f b a = .ok b' → I b')
    (hP : ∀ a ∈ as, ∀ b b', P b → f b a = .ok b' → P b')
    (hstep : ∀ b b', I b → f b a = .ok b' → P b') :
    ∀ b b', I b → as.foldlM f b = .ok b' → P b' := by
  intro b b' hb h
  obtain ⟨before, after, rfl⟩ := List.append_of_mem ha
  rw [List.foldlM_append] at h
  obtain ⟨b₁, hbefore, h⟩ := bind_eq_ok h
  rw [List.foldlM_cons] at h
  obtain ⟨b₂, hab, hafter⟩ := bind_eq_ok h
  have h₁ : I b₁ := foldlM_invariant
    (fun a ha => hI a (List.mem_append_left _ ha)) b b₁ hb hbefore
  refine foldlM_invariant (fun a ha => hP a ?_) b₂ b'
    (hstep b₁ b₂ h₁ hab) hafter
  exact List.mem_append_right _ (List.mem_cons_of_mem _ ha)

namespace Stage

variable {s : Sources} {leaf : DeclId} {stage stage' : Stage} {l : Location}

/-- A scanned method is taken over in one of four ways, or not at all. -/
theorem scanMethod_cases (h : scanMethod s stage l = .ok stage') :
    (((s.method l).name = Convention.predicateName stage.name
          ∧ stage.declaredPredicate = none)
        ∧ stage' = { stage with declaredPredicate := some l })
      ∨ ((stage.initMethods.any fun o => clashes s (s.method l) (s.method o))
        = false
        ∧ stage' = { stage with initMethods := stage.initMethods ++ [l] })
      ∨ (stage.declaredClose = none ∧ stage' = { stage with
        declaredClose := some l })
      ∨ ((s.method l).stageTag? = some stage.name
        ∧ stage' = { stage with
            methods := stage.methods
              ++ [{ location := l, id := (s.method l).id }] })
      ∨ stage' = stage := by
  unfold scanMethod at h
  dsimp only at h
  split at h
  · rename_i hpredicate
    obtain ⟨_, -, h⟩ := bind_eq_ok h
    simp only [Bool.and_eq_true, beq_iff_eq, Option.isNone_iff_eq_none]
      at hpredicate
    exact Or.inl ⟨hpredicate, (Except.ok.inj h).symm⟩
  split at h
  · split at h
    · cases h
    · rename_i hclash
      exact Or.inr
        (Or.inl ⟨Bool.eq_false_iff.2 hclash, (Except.ok.inj h).symm⟩)
  split at h
  · rename_i hclose
    obtain ⟨_, -, h⟩ := bind_eq_ok h
    simp only [Bool.and_eq_true, Option.isNone_iff_eq_none] at hclose
    exact Or.inr (Or.inr (Or.inl ⟨hclose.2, (Except.ok.inj h).symm⟩))
  split at h
  · rename_i htag
    exact Or.inr (Or.inr (Or.inr (Or.inl
      ⟨beq_iff_eq.1 htag, (Except.ok.inj h).symm⟩)))
  · exact Or.inr (Or.inr (Or.inr (Or.inr (Except.ok.inj h).symm)))

/-- Whether a scan of the fields takes a field into the stage of a name. -/
def Belongs (name : String) (f : Field) : Prop :=
  f.isStageField = true
    ∧ (f.stageTag? = some name ∨ Text.capitalize f.name = name)

/-- A scanned field is taken over if it belongs to the stage. -/
theorem scanField_cases (h : scanField s stage l = .ok stage') :
    (Belongs stage.name (s.field l) ∧ ∃ initialized forces, stage'
      = { stage with
        initialized
        fields := stage.fields ++
          [{ location := l, id := (s.field l).id, name := (s.field l).name,
             declaredAccessor := declaredAccessor? s l,
             forcesAccessor := forces }] })
      ∨ (¬ Belongs stage.name (s.field l) ∧ stage' = stage) := by
  have hadd : ∀ x : Except Failure InitializedFields, ((do
      let initialized ← x
      let declared := declaredAccessor? s l
      return { stage with
        initialized
        fields := stage.fields ++
          [{ location := l, id := (s.field l).id, name := (s.field l).name,
             declaredAccessor := declared,
             forcesAccessor :=
             declared.isSome || hasInterfaceAccessor s l }] } :
        Except Failure Stage) = .ok stage') → ∃ initialized forces,
            stage' = { stage with
        initialized
        fields := stage.fields ++
          [{ location := l, id := (s.field l).id, name := (s.field l).name,
             declaredAccessor := declaredAccessor? s l,
             forcesAccessor := forces }] } := by
    intro x hx
    obtain ⟨initialized, -, hx⟩ := bind_eq_ok hx
    exact ⟨initialized, _, (Except.ok.inj hx).symm⟩
  unfold scanField at h
  dsimp only at h
  split at h
  · rename_i hother
    refine Or.inr ⟨fun hbelongs => ?_, (Except.ok.inj h).symm⟩
    rw [hbelongs.1] at hother
    cases hother
  split at h
  · rename_i hother
    refine Or.inr ⟨fun hbelongs => ?_, (Except.ok.inj h).symm⟩
    simp only [Bool.and_eq_true, bne_iff_ne] at hother
    exact hbelongs.2.elim hother.1 hother.2
  rename_i hstage htag
  have hbelongs : Belongs stage.name (s.field l) := by
    refine ⟨by simpa using hstage, ?_⟩
    simp only [Bool.and_eq_true, bne_iff_ne, not_and,
      Decidable.not_not] at htag
    exact Decidable.or_iff_not_imp_left.2 htag
  refine Or.inl ⟨hbelongs, ?_⟩
  split at h
  · split at h
    · obtain ⟨_, hthrow, -⟩ := bind_eq_ok h
      cases hthrow
    · split at h
      · exact hadd _ h
      · exact hadd _ h
  · split at h
    · exact hadd _ h
    · exact hadd _ h

/-- What is discovered is what the scans of the methods and of the fields
leave, with the first init method that has no parameters, if that is valid. -/
theorem discover_scans {seed : Location}
    (h : discover s leaf seed = .ok stage) :
    ∃ stage₁ stage₂ : Stage,
      ((s.extensionChain leaf).flatMap (methodLocations s)).foldlM
      (scanMethod s)
          { name := (s.field seed).stageName, decl := leaf } = .ok stage₁
        ∧ ((s.extensionChain leaf).flatMap (fieldLocations s)).foldlM
          (scanField s) stage₁
          = .ok stage₂
        ∧ stage.validate s = .ok ()
        ∧ stage = { stage₂ with
            noArgInit := stage₂.initMethods.find? fun l =>
                (s.method l).params.isEmpty } := by
  unfold discover at h
  obtain ⟨stage₁, hmethods, h⟩ := bind_eq_ok h
  obtain ⟨stage₂, hfields, h⟩ := bind_eq_ok h
  obtain ⟨_, hvalid, h⟩ := bind_eq_ok h
  obtain rfl := Except.ok.inj h
  exact ⟨stage₁, stage₂, hmethods, hfields, hvalid, rfl⟩

/-- What holds of a stage while it is discovered: its members stand in the
chain, and none is made. -/
structure Found (s : Sources) (leaf : DeclId) (stage : Stage) : Prop where
  decl : stage.decl = leaf
  predicate : ∀ l ∈ stage.declaredPredicate, s.HasIn leaf l
  init : ∀ l ∈ stage.initMethods, s.HasIn leaf l
  close : ∀ l ∈ stage.declaredClose, s.HasIn leaf l
  methods : ∀ m ∈ stage.methods,
    s.HasIn leaf m.location ∧ m.id = (s.method m.location).id
      ∧ m.guarded = .notStarted
  fields : ∀ f ∈ stage.fields,
    s.HasFieldIn leaf f.location ∧ f.id = (s.field f.location).id
      ∧ (∀ l ∈ f.declaredAccessor, s.Has l) ∧ f.accessor = .notStarted
  unstarted : stage.predicate = .notStarted ∧ stage.close = .notStarted
    ∧ stage.doClose = .notStarted

theorem mem_methodLocations {d : DeclId} :
    l ∈ methodLocations s d ↔ s.Has l ∧ l.decl = d := by
  constructor
  · intro h
    obtain ⟨i, hi, rfl⟩ := List.mem_map.1 h
    exact ⟨List.mem_range.1 hi, rfl⟩
  · rintro ⟨h, rfl⟩
    exact List.mem_map.2 ⟨l.index, List.mem_range.2 h, rfl⟩

theorem mem_fieldLocations {d : DeclId} :
    l ∈ fieldLocations s d ↔ s.HasField l ∧ l.decl = d := by
  constructor
  · intro h
    obtain ⟨i, hi, rfl⟩ := List.mem_map.1 h
    exact ⟨List.mem_range.1 hi, rfl⟩
  · rintro ⟨h, rfl⟩
    exact List.mem_map.2 ⟨l.index, List.mem_range.2 h, rfl⟩

theorem hasIn_iff :
    s.HasIn leaf l
      ↔ l ∈ (s.extensionChain leaf).flatMap (methodLocations s) := by
  simp only [Sources.HasIn, List.mem_flatMap, mem_methodLocations]
  exact ⟨fun h => ⟨_, h.2, h.1, rfl⟩, fun ⟨_, hd, hl, he⟩ => ⟨hl, he ▸ hd⟩⟩

theorem hasFieldIn_iff :
    s.HasFieldIn leaf l
      ↔ l ∈ (s.extensionChain leaf).flatMap (fieldLocations s) := by
  simp only [Sources.HasFieldIn, List.mem_flatMap, mem_fieldLocations]
  exact ⟨fun h => ⟨_, h.2, h.1, rfl⟩, fun ⟨_, hd, hl, he⟩ => ⟨hl, he ▸ hd⟩⟩

theorem has_of_declaredAccessor? {field : Location}
    (h : declaredAccessor? s field = some l) : s.Has l := by
  obtain ⟨i, hi, rfl⟩ := Option.map_eq_some_iff.1 h
  exact (List.findIdx?_eq_some_iff_getElem.1 hi).1

theorem Found.scanMethod (h : Found s leaf stage) (hl : s.HasIn leaf l)
    (hscan : Stage.scanMethod s stage l = .ok stage') :
    Found s leaf stage' := by
  rcases scanMethod_cases hscan with
    ⟨-, rfl⟩ | ⟨-, rfl⟩ | ⟨-, rfl⟩ | ⟨-, rfl⟩ | rfl
  · exact { h with predicate := fun l' hl' => Option.some.inj hl' ▸ hl }
  · have hinit : ∀ l' ∈ stage.initMethods ++ [l], s.HasIn leaf l' :=
      List.forall_mem_append.2 ⟨h.init, List.forall_mem_singleton.2 hl⟩
    exact { h with init := hinit }
  · exact { h with close := fun l' hl' => Option.some.inj hl' ▸ hl }
  · refine { h with methods := List.forall_mem_append.2 ⟨h.methods, ?_⟩ }
    exact List.forall_mem_singleton.2 ⟨hl, rfl, rfl⟩
  · exact h

theorem Found.scanField (h : Found s leaf stage) (hl : s.HasFieldIn leaf l)
    (hscan : Stage.scanField s stage l = .ok stage') :
    Found s leaf stage' := by
  rcases scanField_cases hscan with ⟨-, initialized, forces, rfl⟩ | ⟨-, rfl⟩
  · refine { h with fields := List.forall_mem_append.2 ⟨h.fields, ?_⟩ }
    exact List.forall_mem_singleton.2
      ⟨hl, rfl, fun _ hl => has_of_declaredAccessor? hl, rfl⟩
  · exact h

/-- What is discovered is there. -/
theorem found_discover {seed : Location}
    (h : discover s leaf seed = .ok stage) :
    Found s leaf stage := by
  obtain ⟨stage₁, stage₂, hmethods, hfields, -, rfl⟩ := discover_scans h
  have hempty :
      Found s leaf { name := (s.field seed).stageName, decl := leaf } :=
    ⟨rfl, fun _ hl => (nomatch hl), fun _ hl => (nomatch hl),
      fun _ hl => (nomatch hl),
      fun _ hm => (nomatch hm), fun _ hf => (nomatch hf), rfl, rfl, rfl⟩
  have hfound₁ : Found s leaf stage₁ := foldlM_invariant
    (fun l hl _ _ hstage => hstage.scanMethod (hasIn_iff.2 hl)) _ _
    hempty hmethods
  have hfound₂ : Found s leaf stage₂ := foldlM_invariant
    (fun l hl _ _ hstage => hstage.scanField (hasFieldIn_iff.2 hl)) _ _
    hfound₁ hfields
  exact { hfound₂ with }

/-- A field belongs to the stage it is named or tagged for. -/
theorem belongs_stageName {f : Field} (h : f.isStageField = true) :
    Belongs f.stageName f := by
  refine ⟨h, ?_⟩
  unfold Field.stageName
  cases f.stageTag? with
  | none => exact Or.inr rfl
  | some name => exact Or.inl rfl

/-- The field that a stage is found from is one of its fields: scanning
methods and other fields does not change the name it is taken over for. -/
theorem seed_mem_fields_discover {seed : Location}
    (hseed : (s.field seed).isStageField = true)
    (hchain : s.HasFieldIn leaf seed)
    (h : discover s leaf seed = .ok stage) :
    seed ∈ stage.fields.map StageField.location := by
  obtain ⟨stage₁, stage₂, hmethods, hfields, -, rfl⟩ := discover_scans h
  show seed ∈ stage₂.fields.map StageField.location
  have hname₁ : stage₁.name = (s.field seed).stageName := by
    refine foldlM_invariant
      (I := fun stage => stage.name = (s.field seed).stageName)
      (fun l _ stage stage' hname hscan => ?_) _ _ rfl hmethods
    rcases scanMethod_cases hscan with
      ⟨-, rfl⟩ | ⟨-, rfl⟩ | ⟨-, rfl⟩ | ⟨-, rfl⟩ | rfl <;> exact hname
  refine foldlM_establishes
    (I := fun stage => stage.name = (s.field seed).stageName)
    (P := fun stage => seed ∈ stage.fields.map StageField.location)
    (hasFieldIn_iff.1 hchain) ?_ ?_ ?_ _ _ hname₁ hfields
  · intro l _ stage stage' hname hscan
    rcases scanField_cases hscan with ⟨-, _, _, rfl⟩ | ⟨-, rfl⟩ <;> exact hname
  · intro l _ stage stage' hmem hscan
    rcases scanField_cases hscan with ⟨-, _, _, rfl⟩ | ⟨-, rfl⟩
    · rw [List.map_append]
      exact List.mem_append_left _ hmem
    · exact hmem
  · intro stage stage' hname hscan
    rcases scanField_cases hscan with ⟨-, _, _, rfl⟩ | ⟨hnot, -⟩
    · simp
    · exact absurd (hname ▸ belongs_stageName hseed) hnot

/-- The declared methods that members stand for are there. -/
theorem Found.declared? (h : Found s leaf stage) {a : Artifact}
    (hl : stage.declared? a = some l) : s.Has l := by
  cases a with
  | predicate => exact (h.predicate l hl).1
  | close => exact (h.close l hl).1
  | doClose | guarded i => cases hl
  | accessor i =>
      obtain ⟨f, hf, hl⟩ := Option.bind_eq_some_iff.1 hl
      exact (h.fields f (List.mem_of_getElem? hf)).2.2.1 l hl

/-- No member is made yet. -/
theorem Found.progress (h : Found s leaf stage) (a : Artifact) :
    stage.progress a = .notStarted := by
  cases a with
  | predicate => exact h.unstarted.1
  | close => exact h.unstarted.2.1
  | doClose => exact h.unstarted.2.2
  | accessor i =>
      show (stage.fields[i]?.map StageField.accessor).getD .notStarted
        = .notStarted
      cases hf : stage.fields[i]? with
      | none => rfl
      | some f => exact (h.fields f (List.mem_of_getElem? hf)).2.2.2
  | guarded i =>
      show (stage.methods[i]?.map StageMethod.guarded).getD .notStarted
        = .notStarted
      cases hm : stage.methods[i]? with
      | none => rfl
      | some m => exact (h.methods m (List.mem_of_getElem? hm)).2.2

end Stage

-- ============================================================= method groups

/-- The methods of a discovered group stand in the chain. -/
theorem MethodGroup.hasIn_of_mem_discover {s : Sources} {leaf : DeclId}
    {seed : Method} {l : Location}
    (h : l ∈ (MethodGroup.discover s leaf seed).methods) : s.HasIn leaf l := by
  obtain ⟨link, hlink, hl⟩ := List.mem_filterMap.1 h
  obtain ⟨i, hi, rfl⟩ := Option.map_eq_some_iff.1 hl
  exact ⟨(List.findIdx?_eq_some_iff_getElem.1 hi).1, hlink⟩

/-- A group that is found from a method has one of its name and parameter
types from its declaration. -/
theorem MethodGroup.seed_mem_discover {s : Sources} {leaf : DeclId}
    {l : Location}
    (hl : s.HasIn leaf l) :
    ∃ l' ∈ (MethodGroup.discover s leaf (s.method l)).methods,
      s.Has l' ∧ l'.decl = l.decl
        ∧ (s.method l).overrides (s.method l') = true := by
  obtain ⟨hhas, hchain⟩ := hl
  have hget : ∀ i (hi : i < (s.get l.decl).methods.length),
      s.method ⟨l.decl, i⟩ = (s.get l.decl).methods[i] := by
    intro i hi
    unfold Sources.method
    rw [List.getD_eq_getElem?_getD, List.getElem?_eq_getElem hi]
    rfl
  obtain ⟨i, hi⟩ : ∃ i, (s.get l.decl).methods.findIdx? (s.method l).overrides
      = some i := by
    rw [← Option.isSome_iff_exists, List.findIdx?_isSome, List.any_eq_true]
    have hlt : l.index < (s.get l.decl).methods.length := hhas
    exact ⟨_, List.getElem_mem
      hlt, by rw [← hget _ hlt]; simp [Method.overrides]⟩
  obtain ⟨hilt, hoverrides, -⟩ := List.findIdx?_eq_some_iff_getElem.1 hi
  refine ⟨⟨l.decl, i⟩, ?_, hilt, rfl, hget i hilt ▸ hoverrides⟩
  exact List.mem_filterMap.2 ⟨l.decl, hchain, Option.map_eq_some_iff.2
    ⟨i, hi, rfl⟩⟩

end Stagewise
