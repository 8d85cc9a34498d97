/-
The progress of a member that is made on request and at most once. A
request that arrives while the member is still being made fails instead
of going round in circles; a finished member is handed out again.
-/
import Stagewise.Failure

namespace Stagewise

/-- How far the making of an artifact has come. -/
inductive Progress (α : Type) where
  | notStarted
  | inProgress
  | done (value : α)
  deriving DecidableEq, Inhabited, Repr

namespace Progress

variable {α : Type}

def value? : Progress α → Option α
  | .done a => some a
  | _ => none

def isDone (p : Progress α) : Bool := p.value?.isSome

/-- Begin to make an artifact: the finished one, or `none` with the
artifact now in progress. The names word the failure. -/
def start (p : Progress α) (node artifact : String) :
    Except Failure (Option α × Progress α) :=
  match p with
  | .done a => .ok (some a, p)
  | .inProgress => .error (.reentrantSynthesis node artifact)
  | .notStarted => .ok (none, .inProgress)

@[simp] theorem value?_done (a : α) : (done a).value? = some a := rfl

theorem value?_eq_some {p : Progress α} {a : α} :
    p.value? = some a ↔ p = .done a := by
  cases p <;> simp [value?]

/-- Only an artifact in progress cannot be begun. -/
theorem start_eq_error_iff {p : Progress α} {node artifact : String}
    {e : Failure} :
    p.start node artifact = .error e
      ↔ p = .inProgress ∧ e = .reentrantSynthesis node artifact := by
  cases p with
  | notStarted => simp [start]
  | inProgress => simp [start, eq_comm]
  | done a => simp [start]

/-- What can be begun is finished, and is handed out; or nothing is there yet,
and it is put in progress. -/
theorem start_eq_ok_iff {p q : Progress α} {node artifact : String}
    {found : Option α} :
    p.start node artifact = .ok (found, q)
      ↔ (∃ a, p = .done a ∧ found = some a ∧ q = .done a)
        ∨ p = .notStarted ∧ found = none ∧ q = .inProgress := by
  cases p with
  | notStarted => simp [start, eq_comm]
  | inProgress => simp [start]
  | done a => simp [start, eq_comm]

end Progress

end Stagewise
