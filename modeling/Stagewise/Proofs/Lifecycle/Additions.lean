/-
The members that the preparation of all nodes adds, and the record of them
in the bindings.

# What is added

A stage gets a predicate unless one is declared, a `doClose` method and the
accessors that are forced; a node that anything is to be closed below gets
a close-dependants method (`additions`). Each is bound by an identity that
only depends on names: those of the leaf, of the node, of the field
(`Addition.identity?`). What was discovered stays while members are made,
so these identities can be told beforehand (`Addition.identity?_congr`).

# The record

A binding fails exactly if its identity is taken. So as long as the
bindings are the former ones and those of the members made so far
(`Recorded`), the next addition is refused exactly if it is not `Apart`
from what is bound already (`Recorded.bind`).
-/
import Stagewise.Proofs.Lifecycle.Evolving
import Stagewise.Proofs.Lifecycle.Reentry

namespace Stagewise

namespace Lifecycle

open Compilation Step

-- ================================================================= additions

/-- A member that the preparation of a node asks for: one of a stage's, or
the close-dependants method. -/
inductive Addition where
  | member (n : DependencyId) (a : Artifact)
  | closing (n : DependencyId)
  deriving DecidableEq, Repr

/-- The identity of a method without parameters that is added to a node's
leaf. -/
def newIdentity (c : Compilation) (n : DependencyId) (name : String) :
    Identity :=
  (MethodRef.mk (c.sources.name (c.graph.get n).decl) name []).identity

/-- The identity that the accessor of a field is bound by. -/
def accessorIdentity (c : Compilation) (n : DependencyId) (f : StageField) :
    Identity :=
  match f.declaredAccessor with
  | some l => (c.sources.method l).id
  | none => newIdentity c n (c.sources.field f.location).name

/-- The members that the preparation of a stage asks for. -/
def stageAdditions (n : DependencyId) (s : Stage) : List Addition :=
  .member n .predicate :: .member n .doClose
    :: (s.fields.filter StageField.forcesAccessor).filterMap fun f =>
      (s.fieldIndex? f.id).map fun i => .member n (.accessor i)

/-- The members that the preparation of a node asks for. -/
def additionsOf (c : Compilation) (n : DependencyId) : List Addition :=
  .closing n :: ((c.graph.get n).stage?.map (stageAdditions n)).getD []

namespace Addition

/-- Whether a member is there. -/
def isMade (c : Compilation) : Addition → Bool
  | .member n a => (c.progress n a).isDone
  | .closing n => (c.closing n).isDone

/-- The identity that the making of a member binds. Nothing is bound for a
declared predicate, and for a close-dependants method that has nothing to
call; a declared accessor is bound as it is. -/
def identity? (c : Compilation) : Addition → Option Identity
  | .member n .predicate => (c.graph.get n).stage?.bind fun s =>
      if s.declaredPredicate.isSome then none
      else some (newIdentity c n (Convention.predicateName (c.graph.name n)))
  | .member n .doClose =>
      some (newIdentity c n (Convention.doCloseName (c.graph.name n)))
  | .member n (.accessor i) => (c.graph.get n).stage?.bind fun s =>
      s.fields[i]?.map (accessorIdentity c n)
  | .member _ _ => none
  | .closing n =>
      if (closeCalls c.graph n).isEmpty then none
      else some (newIdentity c n
        (Convention.closeDependantsName (c.graph.name n)))

end Addition

/-- The members that the preparation of all nodes makes. -/
def additions (c : Compilation) : List Addition :=
  (c.graph.ids.flatMap (additionsOf c)).filter (!·.isMade c)

/-- That the members to be made are bound by identities of their own, which
no method has that is bound already. -/
def Apart (c : Compilation) : Prop :=
  ∀ x ∈ additions c, ∀ id ∈ x.identity? c,
    c.bindings.roleOf? id = none ∧ ∀ y ∈ additions c,
    y.identity? c = some id → y = x

instance (c : Compilation) : Decidable (Apart c) :=
  inferInstanceAs (Decidable (∀ x ∈ additions c, ∀ id ∈ x.identity? c,
    c.bindings.roleOf? id = none ∧ ∀ y ∈ additions c, y.identity? c = some id →
      y = x))

variable {c c' c₀ : Compilation} {n : DependencyId} {a : Artifact}
variable {l : Location} {x : Addition}

theorem mem_additions : x ∈ additions c
    ↔ (∃ n ∈ c.graph.ids, x ∈ additionsOf c n) ∧ x.isMade c = false := by
  unfold additions
  rw [List.mem_filter, List.mem_flatMap, Bool.not_eq_true']

theorem isDone_iff {α : Type} {p : Progress α} :
    p.isDone = true ↔ ∃ a, p = .done a := by
  cases p <;> simp [Progress.isDone, Progress.value?]

@[simp] theorem isMade_member :
    (Addition.member n a).isMade c = (c.progress n a).isDone := rfl

@[simp] theorem isMade_closing :
    (Addition.closing n).isMade c = (c.closing n).isDone := rfl

theorem isMade_member_iff : (Addition.member n a).isMade c = true
    ↔ ∃ l, c.progress n a = .done l :=
  isDone_iff

theorem isMade_closing_iff : (Addition.closing n).isMade c = true
    ↔ ∃ found, c.closing n = .done found :=
  isDone_iff

/-- What is made stays made. -/
theorem Addition.isMade_later {K : Location → Prop} (h : Keeps K c c')
    (hx : x.isMade c = true) :
    x.isMade c' = true := by
  cases x with
  | member n a =>
      obtain ⟨l, hl⟩ := isMade_member_iff.1 hx
      exact isMade_member_iff.2 ⟨l, h.done hl⟩
  | closing n =>
      obtain ⟨found, hf⟩ := isMade_closing_iff.1 hx
      exact isMade_closing_iff.2 ⟨found, h.closing_done hf⟩

-- ------------------------------------------------------------ told beforehand

theorem stageAdditions_unmade (s : Stage) :
    stageAdditions n s.unmade = stageAdditions n s := by
  unfold stageAdditions
  congr 2
  show ((s.fields.map StageField.unmade).filter
    StageField.forcesAccessor).filterMap _ = _
  rw [List.filter_map, List.filterMap_map]
  refine congrArg (fun f => List.filterMap f _) (funext fun f => ?_)
  show (s.unmade.fieldIndex? f.id).map _ = _
  rw [Stage.fieldIndex?_unmade]

/-- What a node is asked for was discovered. -/
theorem additionsOf_congr (h : SameNodes c c') (n : DependencyId) :
    additionsOf c' n = additionsOf c n := by
  have hmap : ∀ s : Option Stage, s.map (stageAdditions n)
      = (s.map Stage.unmade).map (stageAdditions n) := by
    intro s
    rw [Option.map_map]
    congr 1
    funext s
    exact (stageAdditions_unmade s).symm
  unfold additionsOf
  rw [hmap, h.stage?, ← hmap]

theorem newIdentity_congr (h : Evolves c c') (n : DependencyId)
    (name : String) :
    newIdentity c' n name = newIdentity c n name := by
  unfold newIdentity
  rw [h.decl, h.sources.name]

theorem accessorIdentity_congr {f : StageField} (h : Evolves c c')
    (hdeclared : ∀ l ∈ f.declaredAccessor, c.sources.Has l) :
    accessorIdentity c' n f = accessorIdentity c n f := by
  have hfield : c'.sources.field f.location = c.sources.field f.location := by
    have hfields := congrArg TypeDecl.fields (h.sources.rest f.location.decl)
    exact congrArg (·.getD f.location.index default) hfields
  unfold accessorIdentity
  split
  · rename_i l hl
    have hid := congrArg Method.id (h.sources.surface l (hdeclared l hl))
    exact hid
  · rw [newIdentity_congr h, hfield]

/-- The identity of an addition can be told beforehand. -/
theorem Addition.identity?_congr (h : Evolves c c')
    (hdeclared : ∀ n a, ∀ l ∈ c.declared? n a, c.sources.Has l)
    (x : Addition) :
    x.identity? c' = x.identity? c := by
  have hname := h.sameNodes.name
  cases x with
  | member n a =>
      cases a with
      | predicate =>
          simp only [identity?, hname, newIdentity_congr h]
          exact h.sameNodes.bind (fun _ => rfl) n
      | doClose => simp only [identity?, hname, newIdentity_congr h]
      | accessor i =>
          have hfound :
              (c'.graph.get n).stage?.bind
              (·.fields[i]?.map (accessorIdentity c' n))
              = (c.graph.get n).stage?.bind
                (·.fields[i]?.map (accessorIdentity c' n)) := by
            refine h.sameNodes.bind (fun s => ?_) n
            show ((s.fields.map StageField.unmade)[i]?).map _ = _
            rw [List.getElem?_map, Option.map_map]
            rfl
          refine hfound.trans (Option.bind_congr fun s hs => Option.map_congr
            fun f hf => ?_)
          refine accessorIdentity_congr h fun l hl =>
            hdeclared n (.accessor i) l ?_
          rw [declared?_eq hs]
          exact Option.bind_eq_some_iff.2 ⟨f, hf, hl⟩
      | close | guarded i => rfl
  | closing n => simp only [identity?, h.sameShape.closeCalls, hname,
      newIdentity_congr h]

-- ================================================================= the record

/-- That a failure is met although nothing is asked for while it is being
made, and then only because members are bound that are not apart. -/
def Refuses (c₀ : Compilation) (e : Failure) : Prop :=
  e.NotReentrant → ¬ Apart c₀ ∧ ∃ item existing,
    e = .duplicateBinding item existing

theorem refuses_reentrant (m t : String) :
    Refuses c₀ (.reentrantSynthesis m t) :=
  fun h => (h m t rfl).elim

/-- That the bindings are those of `c₀` and those of some additions, which
are apart. -/
structure Recorded (c₀ : Compilation) (M : Addition → Prop) (b : Bindings) :
    Prop where
  bound : ∀ id, b.roleOf? id ≠ none
    ↔ c₀.bindings.roleOf? id ≠ none ∨ ∃ x, M x ∧ x.identity? c₀ = some id
  apart : ∀ x, M x → ∀ id, x.identity? c₀ = some id →
    c₀.bindings.roleOf? id = none ∧ ∀ y, M y → y.identity? c₀ = some id → y = x

namespace Recorded

variable {M M' : Addition → Prop} {b : Bindings} {id : Identity} {r : Role}

theorem congr (h : Recorded c₀ M b) (hM : ∀ x, M' x ↔ M x) :
    Recorded c₀ M' b := by
  obtain rfl : M' = M := funext fun x => propext (hM x)
  exact h

/-- An addition that nothing is bound for. -/
theorem unbound (h : Recorded c₀ M b) (hx : x.identity? c₀ = none) :
    Recorded c₀ (fun y => M y ∨ y = x) b := by
  have hfew : ∀ y id, (M y ∨ y = x) → y.identity? c₀ = some id → M y := by
    rintro y id (hy | rfl) hid
    · exact hy
    · cases hx.symm.trans hid
  refine ⟨fun id => (h.bound id).trans (or_congr_right ⟨?_, ?_⟩),
    fun y hy id hid => ?_⟩
  · rintro ⟨y, hy, hid⟩
    exact ⟨y, Or.inl hy, hid⟩
  · rintro ⟨y, hy, hid⟩
    exact ⟨y, hfew y id hy hid, hid⟩
  · obtain ⟨hfree, huniq⟩ := h.apart y (hfew y id hy hid) id hid
    exact ⟨hfree, fun z hz hzid => huniq z (hfew z id hz hzid) hzid⟩

/-- One more addition can be bound exactly if its identity is not taken. If
it is, the additions are not apart. -/
theorem bind (h : Recorded c₀ M b) (hM : ∀ y, M y → y ∈ additions c₀)
    (hx : x ∈ additions c₀) (hnot : ¬ M x) (hid : x.identity? c₀ = some id) :
    (∀ b', b.bindMethod id n r = .ok b' →
      Recorded c₀ (fun y => M y ∨ y = x) b')
      ∧ ∀ e, b.bindMethod id n r = .error e → Refuses c₀ e := by
  refine ⟨fun b' hb => ?_, fun e he _ => ⟨fun hapart => ?_, ?_⟩⟩
  · have hfree : b.roleOf? id = none := Bindings.bindMethod_isOk_iff.1 ⟨b', hb⟩
    have hother : ∀ y, M y → y.identity? c₀ ≠ some id := fun y hy hyid =>
      (h.bound id).2 (Or.inr ⟨y, hy, hyid⟩) hfree
    have hfree₀ : c₀.bindings.roleOf? id = none :=
      Decidable.not_not.1 fun hne => (h.bound id).2 (Or.inl hne) hfree
    refine ⟨fun id' => ?_, fun y hy id' hyid => ?_⟩
    · rw [Bindings.roleOf?_of_bindMethod hb]
      split
      · rename_i he
        exact ⟨fun _ => Or.inr ⟨x, Or.inr rfl, he ▸ hid⟩, fun _ => nofun⟩
      · rename_i hne
        refine (h.bound id').trans (or_congr_right ⟨?_, ?_⟩)
        · rintro ⟨y, hy, hyid⟩
          exact ⟨y, Or.inl hy, hyid⟩
        · rintro ⟨y, hy | rfl, hyid⟩
          · exact ⟨y, hy, hyid⟩
          · exact (hne (Option.some.inj (hyid.symm.trans hid))).elim
    · rcases hy with hy | rfl
      · obtain ⟨hfree', huniq⟩ := h.apart y hy id' hyid
        refine ⟨hfree', fun z hz hzid => ?_⟩
        rcases hz with hz | rfl
        · exact huniq z hz hzid
        · exact (hother y hy (hyid.trans (hzid.symm.trans hid))).elim
      · obtain rfl := Option.some.inj (hid.symm.trans hyid)
        refine ⟨hfree₀, fun z hz hzid => ?_⟩
        rcases hz with hz | rfl
        · exact (hother z hz hzid).elim
        · rfl
  · obtain ⟨hfree₀, huniq⟩ := hapart x hx id hid
    have hbound : b.roleOf? id ≠ none := fun hfree => by
      obtain ⟨b', hb⟩ : ∃ b', b.bindMethod id n r = .ok b' :=
        Bindings.bindMethod_isOk_iff.2 hfree
      cases hb.symm.trans he
    rcases (h.bound id).1 hbound with hbound₀ | ⟨y, hy, hyid⟩
    · exact hbound₀ hfree₀
    · exact hnot (huniq y (hM y hy) hyid ▸ hy)
  · unfold Bindings.bindMethod at he
    split at he
    · obtain rfl := Except.error.inj he
      exact ⟨_, _, rfl⟩
    · cases he

end Recorded

end Lifecycle

end Stagewise
