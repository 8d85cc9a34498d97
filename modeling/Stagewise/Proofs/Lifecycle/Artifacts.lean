/-
The members that are made for a stage, and how far each of them is.

Five kinds of members are made on request. A stage remembers the progress
of each (`progress`), and a request changes nothing else about its node
than this memory: without it the node is the one that was discovered
(`unmade`). A declared member that a made one stands for is found in the
discovered part (`declared?`).
-/
import Stagewise.Compilation
import Stagewise.Proofs.Sources

namespace Stagewise

-- ============================================================= artifacts

/-- A member that is made for a stage on request. Accessors and guarded
wrappers go by the place of the field or method in the stage. -/
inductive Artifact where
  | predicate
  | close
  | doClose
  | accessor (field : Nat)
  | guarded (method : Nat)
  deriving DecidableEq, Repr

/-- The role that a made member plays for its stage. -/
def Artifact.role : Artifact → Role
  | .predicate => .predicate
  | .close => .close
  | .doClose => .doClose
  | .accessor _ => .accessor
  | .guarded _ => .guarded

theorem Artifact.role_ne_stageMethod (a : Artifact) :
    a.role ≠ .stageMethod := by
  cases a <;> exact Role.noConfusion

namespace Stage

variable {s : Stage} {a b : Artifact} {p : Progress Location}

/-- How far the making of a member is. -/
def progress (s : Stage) : Artifact → Progress Location
  | .predicate => s.predicate
  | .close => s.close
  | .doClose => s.doClose
  | .accessor i => (s.fields[i]?.map StageField.accessor).getD .notStarted
  | .guarded i => (s.methods[i]?.map StageMethod.guarded).getD .notStarted

/-- Record how far the making of a member is. -/
def put (s : Stage) (p : Progress Location) : Artifact → Stage
  | .predicate => { s with predicate := p }
  | .close => { s with close := p }
  | .doClose => { s with doClose := p }
  | .accessor i =>
      { s with fields := s.fields.modify i fun f => { f with accessor := p } }
  | .guarded i =>
      { s with methods := s.methods.modify i fun m => { m with guarded := p } }

/-- Whether the stage has the field or method that a member is made
for. -/
def Offers (s : Stage) : Artifact → Prop
  | .accessor i => i < s.fields.length
  | .guarded i => i < s.methods.length
  | _ => True

/-- The declared method that a made member implements or stands for. -/
def declared? (s : Stage) : Artifact → Option Location
  | .predicate => s.declaredPredicate
  | .close => s.declaredClose
  | .accessor i => s.fields[i]?.bind StageField.declaredAccessor
  | _ => none

theorem offers_accessor {id : Identity} {i : Nat}
    (h : s.fieldIndex? id = some i) :
    s.Offers (.accessor i) :=
  (List.findIdx?_eq_some_iff_getElem.1 h).1

theorem offers_guarded {id : Identity} {i : Nat}
    (h : s.methodIndex? id = some i) :
    s.Offers (.guarded i) :=
  (List.findIdx?_eq_some_iff_getElem.1 h).1

theorem progress_accessor {i : Nat} (h : s.Offers (.accessor i)) :
    s.progress (.accessor i) = (s.fields.getD i default).accessor := by
  simp [progress, List.getD_eq_getElem?_getD, show i < s.fields.length from h]

theorem progress_guarded {i : Nat} (h : s.Offers (.guarded i)) :
    s.progress (.guarded i) = (s.methods.getD i default).guarded := by
  simp [progress, List.getD_eq_getElem?_getD, show i < s.methods.length from h]

theorem declared?_accessor {i : Nat} (h : s.Offers (.accessor i)) :
    s.declared? (.accessor i)
      = (s.fields.getD i default).declaredAccessor := by
  simp [declared?, List.getD_eq_getElem?_getD, show i < s.fields.length from h]

theorem progress_put_self (h : s.Offers a) : (s.put p a).progress a = p := by
  cases a with
  | predicate | close | doClose => rfl
  | accessor i | guarded i => simp [put, progress, show i < _ from h]

theorem progress_put_of_ne (h : b ≠ a) :
    (s.put p a).progress b = s.progress b := by
  cases a with
  | predicate | close | doClose => cases b <;> first | rfl | exact absurd rfl h
  | accessor i =>
      cases b with
      | accessor j =>
          have hij : i ≠ j := fun e => h (congrArg _ e.symm)
          simp [put, progress, hij]
      | _ => rfl
  | guarded i =>
      cases b with
      | guarded j =>
          have hij : i ≠ j := fun e => h (congrArg _ e.symm)
          simp [put, progress, hij]
      | _ => rfl

/-- Recording what is known already changes nothing. -/
theorem put_progress (s : Stage) (a : Artifact) :
    s.put (s.progress a) a = s := by
  cases a with
  | predicate | close | doClose => rfl
  | accessor i =>
      have hf : ∀ f, s.fields[i]? = some f →
          { f with accessor := s.progress (.accessor i) } = f := by
        intro f hi
        simp [progress, hi]
      exact congrArg (fun fields => { s with fields }) (modify_eq_self hf)
  | guarded i =>
      have hm : ∀ m, s.methods[i]? = some m →
          { m with guarded := s.progress (.guarded i) } = m := by
        intro m hi
        simp [progress, hi]
      exact congrArg (fun methods => { s with methods }) (modify_eq_self hm)

-- ============================================================ as discovered

end Stage

/-- The field as it was discovered. -/
def StageField.unmade (f : StageField) : StageField :=
  { f with accessor := .notStarted }

/-- The method as it was discovered. -/
def StageMethod.unmade (m : StageMethod) : StageMethod :=
  { m with guarded := .notStarted }

namespace Stage

variable {s s' : Stage} {a : Artifact} {p : Progress Location}

/-- The stage as it was discovered. -/
def unmade (s : Stage) : Stage :=
  { s with
    fields := s.fields.map StageField.unmade
    methods := s.methods.map StageMethod.unmade
    predicate := .notStarted
    close := .notStarted
    closeIsGenerated := false
    doClose := .notStarted }

theorem unmade_put : (s.put p a).unmade = s.unmade := by
  cases a with
  | predicate | close | doClose => rfl
  | accessor i =>
      have hf : (s.put p (.accessor i)).fields.map StageField.unmade
          = s.fields.map StageField.unmade := map_modify_eq_map fun _ => rfl
      exact congrArg (fun fields => { s.unmade with fields }) hf
  | guarded i =>
      have hm : (s.put p (.guarded i)).methods.map StageMethod.unmade
          = s.methods.map StageMethod.unmade := map_modify_eq_map fun _ => rfl
      exact congrArg (fun methods => { s.unmade with methods }) hm

theorem declared?_unmade : s.unmade.declared? a = s.declared? a := by
  cases a with
  | accessor i =>
      show (s.fields.map StageField.unmade)[i]?.bind _ = _
      rw [List.getElem?_map]
      cases h : s.fields[i]? with
      | none => simp [declared?, h]
      | some f => simp [declared?, h, StageField.unmade]
  | _ => rfl

theorem fieldIndex?_unmade (id : Identity) :
    s.unmade.fieldIndex? id = s.fieldIndex? id := by
  unfold fieldIndex? unmade
  rw [List.findIdx?_map]
  rfl

theorem methodIndex?_unmade (id : Identity) :
    s.unmade.methodIndex? id = s.methodIndex? id := by
  unfold methodIndex? unmade
  rw [List.findIdx?_map]
  rfl

theorem offers_unmade : s.unmade.Offers a ↔ s.Offers a := by
  cases a <;> simp [Offers, unmade]

end Stage

end Stagewise
