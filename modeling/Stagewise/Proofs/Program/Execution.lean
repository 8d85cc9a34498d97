/-
What code does when it runs.

A `Machine` gives what code takes for granted: the values, the memory, and
what each operation answers and leaves in the memory. Code denotes a
`Computation`, which relates the state that it begins in to the results that
it may have and the states that it may leave. It fails by throwing a value.
A loop relates what a finite number of rounds relates.

Calls are operations of the machine. The code that makes them leaves their
methods in the state, so that what a body calls itself can be told from what
its callees call.

Locals are kept innermost first. A block gives up those that it declares,
and the end of a method body all that are left.
-/
import Stagewise.Program.Nodes

namespace Stagewise

-- ================================================================== machines

/-- What is done with the values of operands. The object that a member is
reached through is the first operand. -/
inductive Operation where
  | literal (value : Literal)
  | self (qualifier : Option String)
  | super
  | read (field : FieldRef)
  | write (field : FieldRef)
  | call (method : MethodRef)
  | new (type : TypeRef)
  | unary (op : UnaryOp)
  | binary (op : BinaryOp)
  /-- The failure of an assertion. -/
  | violation
  | superConstructor
  deriving DecidableEq, Repr

structure Machine where
  Value : Type
  Memory : Type
  /-- What an operation on operands may answer or throw, and the memory
  before and after it. -/
  performs : Operation → List Value → Memory → Except Value Value →
    Memory → Prop
  /-- The truth of a value, if it has one. -/
  truth : Value → Option Bool

/-- Local variables and parameters, innermost first, with their values if they
have one. -/
abbrev Locals (V : Type) : Type := List (String × Option V)

/-- Replace the value of the innermost variable of a name. -/
def Locals.assign {V : Type} (x : String) (v : V) : Locals V → Locals V
  | [] => []
  | (y, w) :: l => if y = x then (y, some v) :: l else (y, w) :: assign x v l

namespace Machine

variable {M : Machine}

structure State (M : Machine) where
  locals : Locals M.Value
  memory : M.Memory
  /-- The methods that were called, the last one first. -/
  calls : List MethodRef := []

namespace State

/-- The value of a local variable. -/
def local? (σ : M.State) (x : String) : Option M.Value :=
  (σ.locals.lookup x).join

def declare (σ : M.State) (x : String) (v : Option M.Value) : M.State :=
  { σ with locals := (x, v) :: σ.locals }

def assign (σ : M.State) (x : String) (v : M.Value) : M.State :=
  { σ with locals := σ.locals.assign x v }

def recordCall (σ : M.State) (m : MethodRef) : M.State :=
  { σ with calls := m :: σ.calls }

/-- Give up all but the outermost locals. -/
def keepLocals (σ : M.State) (count : Nat) : M.State :=
  { σ with locals := σ.locals.drop (σ.locals.length - count) }

theorem keepLocals_self (σ : M.State) : σ.keepLocals σ.locals.length = σ := by
  rw [keepLocals, Nat.sub_self, List.drop_zero]

end State

end Machine

-- ============================================================== computations

/-- From which state code may come to which, with which answer or thrown
value. -/
def Computation (M : Machine) (α : Type) : Type :=
  M.State → Except M.Value α → M.State → Prop

namespace Computation

variable {M : Machine} {α β : Type}

instance : Monad (Computation M) where
  pure a := fun σ r τ => r = .ok a ∧ τ = σ
  bind x f := fun σ r τ =>
    (∃ a ρ, x σ (.ok a) ρ ∧ f a ρ r τ) ∨ ∃ e, x σ (.error e) τ ∧ r = .error e

/-- Code that has no behaviour. -/
def stuck : Computation M α := fun _ _ _ => False

def throw (e : M.Value) : Computation M α := fun σ r τ => r = .error e ∧ τ = σ

/-- What the state tells, if it tells it. -/
def inspect (f : M.State → Option α) : Computation M α := fun σ r τ =>
  ∃ a, f σ = some a ∧ r = .ok a ∧ τ = σ

def change (f : M.State → M.State) : Computation M Unit :=
  fun σ r τ => r = .ok () ∧ τ = f σ

def perform (op : Operation) (operands : List M.Value) :
    Computation M M.Value := fun σ r τ =>
  ∃ m, M.performs op operands σ.memory r m ∧ τ = { σ with memory := m }

def test (v : M.Value) : Computation M Bool := inspect fun _ => M.truth v

/-- Give up the locals that are declared meanwhile. -/
def inScope (x : Computation M α) : Computation M α := fun σ r τ =>
  ∃ ρ, x σ r ρ ∧ τ = ρ.keepLocals σ.locals.length

end Computation

-- =============================================================== expressions

/-- What can be assigned to. -/
inductive Place (V : Type) where
  | var (name : String)
  | field (object : V) (field : FieldRef)

namespace Place

variable {M : Machine}

def read : Place M.Value → Computation M M.Value
  | .var x => .inspect (·.local? x)
  | .field o f => .perform (.read f) [o]

def write (v : M.Value) : Place M.Value → Computation M Unit
  | .var x => .change (·.assign x v)
  | .field o f => do
      let _ ← Computation.perform (.write f) [o, v]

end Place

/-- Whether the operator answers the value from before it writes. -/
def UnaryOp.isPostfix : UnaryOp → Bool
  | .postInc | .postDec => true
  | .not | .neg | .preInc | .preDec => false

namespace Expr

variable (M : Machine)

mutual

/-- The value of an expression. -/
def value : Expr → Computation M M.Value
  | .literal v => .perform (.literal v) []
  | .self q => .perform (.self q) []
  | .super => .perform .super []
  | .var x => .inspect (·.local? x)
  | .field t f => do
      let o ← object t
      .perform (.read f) [o]
  | .call t m args => do
      let o ← object t
      let vs ← values args
      .change (·.recordCall m)
      .perform (.call m) (o :: vs)
  | .new type args => do
      let vs ← values args
      .perform (.new type) vs
  | .unary op e =>
      if op.isMutation then do
        let p ← place e
        let old ← p.read
        let new ← .perform (.unary op) [old]
        p.write new
        return if op.isPostfix then old else new
      else do
        let v ← value e
        .perform (.unary op) [v]
  | .binary .and l r => do
      let v ← value l
      if ← .test v then value r else return v
  | .binary .or l r => do
      let v ← value l
      if ← .test v then return v else value r
  | .binary op l r => do
      let v ← value l
      let w ← value r
      .perform (.binary op) [v, w]
  | .assign none t e => do
      let p ← place t
      let v ← value e
      p.write v
      return v
  | .assign (some op) t e => do
      let p ← place t
      let old ← p.read
      let v ← value e
      let new ← .perform (.binary op) [old, v]
      p.write new
      return new
  | .conditional c a b => do
      let v ← value c
      if ← .test v then value a else value b

/-- What an assignment to the expression writes to. -/
def place : Expr → Computation M (Place M.Value)
  | .var x => return .var x
  | .field t f => do
      let o ← object t
      return .field o f
  | _ => .stuck

/-- The object that a member is reached through. -/
def object : Option Expr → Computation M M.Value
  | none => .perform (.self none) []
  | some t => value t

def values : List Expr → Computation M (List M.Value)
  | [] => return []
  | e :: es => do
      let v ← value e
      let vs ← values es
      return v :: vs

end

/-- The value of an expression that may be absent. -/
def value? : Option Expr → Computation M (Option M.Value)
  | none => return none
  | some e => do
      let v ← value M e
      return some v

end Expr

-- ================================================================ statements

/-- How code goes on when it ends without a thrown value. -/
inductive Flow (V : Type) where
  | next
  | returned (value : Option V)

namespace Computation

variable {M : Machine}

/-- Another computation after one that does not return. -/
def andThen (x y : Computation M (Flow M.Value)) :
    Computation M (Flow M.Value) := do
  match ← x with
  | .next => y
  | .returned v => return .returned v

/-- The rounds of a loop. -/
inductive Rounds (cond : Computation M Bool)
    (body : Computation M (Flow M.Value)) :
    Computation M (Flow M.Value) where
  | done {σ τ} : cond σ (.ok false) τ → Rounds cond body σ (.ok .next) τ
  | fails {σ τ e} : cond σ (.error e) τ → Rounds cond body σ (.error e) τ
  | leaves {σ ρ τ v} : cond σ (.ok true) ρ → body ρ (.ok (.returned v)) τ →
      Rounds cond body σ (.ok (.returned v)) τ
  | throws {σ ρ τ e} : cond σ (.ok true) ρ → body ρ (.error e) τ →
      Rounds cond body σ (.error e) τ
  | again {σ ρ υ τ r} : cond σ (.ok true) ρ → body ρ (.ok .next) υ →
      Rounds cond body υ r τ → Rounds cond body σ r τ

end Computation

namespace Stmt

variable (M : Machine)

/-- The truth of a condition. -/
def holds (cond : Expr) : Computation M Bool := do
  let v ← cond.value M
  .test v

mutual

def run : Stmt → Computation M (Flow M.Value)
  | .expr e => do
      let _ ← e.value M
      return .next
  | .declare _ x init => do
      let v ← Expr.value? M init
      .change (·.declare x v)
      return .next
  | .branch cond yes no => do
      if ← holds M cond then .inScope (runAll yes) else runBlock? no
  | .loop cond body => .Rounds (holds M cond) (.inScope (runAll body))
  | .ret value => do
      let v ← Expr.value? M value
      return .returned v
  | .check cond message => do
      if ← holds M cond then return .next else
        let v ← Expr.value? M message
        let e ← .perform .violation v.toList
        .throw e
  | .throw e => do
      let v ← e.value M
      .throw v
  | .superConstructor args => do
      let vs ← Expr.values M args
      let _ ← .perform .superConstructor vs
      return .next
  | .block body => .inScope (runAll body)

/-- A block that may be absent. -/
def runBlock? : Option (List Stmt) → Computation M (Flow M.Value)
  | none => return .next
  | some b => .inScope (runAll b)

/-- Statements after each other. -/
def runAll : List Stmt → Computation M (Flow M.Value)
  | [] => return .next
  | s :: ss => (run s).andThen (runAll ss)

end

end Stmt

/-- Run the body of a method or constructor. -/
def Block.run (M : Machine) (b : Block) : Computation M (Flow M.Value) :=
  Stmt.runAll M b

-- ==================================================== laws of computations

namespace Computation

variable {M : Machine} {α β : Type} {σ τ : M.State}

theorem bind_iff {x : Computation M α} {f : α → Computation M β}
    {r : Except M.Value β} :
    (x >>= f) σ r τ ↔
      (∃ a ρ, x σ (.ok a) ρ ∧ f a ρ r τ) ∨ ∃ e, x σ (.error e) τ
      ∧ r = .error e := Iff.rfl

/-- What follows ends without a thrown value only after what does so. -/
theorem bind_ok_iff {x : Computation M α} {f : α → Computation M β} {b : β} :
    (x >>= f) σ (.ok b) τ ↔ ∃ a ρ, x σ (.ok a) ρ ∧ f a ρ (.ok b) τ := by
  simp [bind_iff]

/-- Code that adds no locals has none to give up. -/
theorem inScope_iff {x : Computation M α} {r : Except M.Value α}
    (h : ∀ ρ, x σ r ρ → ρ.locals = σ.locals) : inScope x σ r τ ↔ x σ r τ := by
  have hkeep : ∀ ρ, x σ r ρ → ρ.keepLocals σ.locals.length = ρ := fun ρ hx =>
    h ρ hx ▸ ρ.keepLocals_self
  constructor
  · rintro ⟨ρ, hx, rfl⟩
    rwa [hkeep ρ hx]
  · exact fun hx => ⟨τ, hx, (hkeep τ hx).symm⟩

variable {x y z : Computation M (Flow M.Value)}

theorem andThen_iff {r : Except M.Value (Flow M.Value)} : x.andThen y σ r τ ↔
    (∃ ρ, x σ (.ok .next) ρ ∧ y ρ r τ) ∨ r ≠ .ok .next ∧ x σ r τ := by
  unfold andThen
  rw [bind_iff]
  constructor
  · rintro (⟨_ | v, ρ, hx, hy⟩ | ⟨e, hx, rfl⟩)
    · exact Or.inl ⟨ρ, hx, hy⟩
    · obtain ⟨rfl, rfl⟩ := hy
      exact Or.inr ⟨nofun, hx⟩
    · exact Or.inr ⟨nofun, hx⟩
  · rintro (⟨ρ, hx, hy⟩ | ⟨hr, hx⟩)
    · exact Or.inl ⟨.next, ρ, hx, hy⟩
    · match r, hr, hx with
      | .ok .next, hr, _ => exact absurd rfl hr
      | .ok (.returned v), _, hx => exact Or.inl ⟨.returned v, τ, hx, rfl, rfl⟩
      | .error e, _, hx => exact Or.inr ⟨e, hx, rfl⟩

theorem andThen_next_iff : x.andThen y σ (.ok .next) τ ↔
    ∃ ρ, x σ (.ok .next) ρ ∧ y ρ (.ok .next) τ := by
  simp [andThen_iff]

theorem andThen_assoc : (x.andThen y).andThen z = x.andThen (y.andThen z) := by
  funext σ r τ
  refine propext ?_
  rw [andThen_iff, andThen_iff, andThen_iff]
  simp only [andThen_next_iff]
  constructor
  · rintro (⟨ρ, ⟨υ, hx, hy⟩, hz⟩ | ⟨hr, ⟨υ, hx, hy⟩ | hx⟩)
    · exact Or.inl ⟨υ, hx, andThen_iff.2 (Or.inl ⟨ρ, hy, hz⟩)⟩
    · exact Or.inl ⟨υ, hx, andThen_iff.2 (Or.inr ⟨hr, hy⟩)⟩
    · exact Or.inr hx
  · rintro (⟨υ, hx, hyz⟩ | hx)
    · rcases andThen_iff.1 hyz with ⟨ρ, hy, hz⟩ | ⟨hr, hy⟩
      · exact Or.inl ⟨ρ, ⟨υ, hx, hy⟩, hz⟩
      · exact Or.inr ⟨hr, Or.inl ⟨υ, hx, hy⟩⟩
    · exact Or.inr ⟨hx.1, Or.inr hx⟩

/-- To go on from nothing. -/
theorem next_andThen :
    (pure .next : Computation M (Flow M.Value)).andThen y = y := by
  funext σ r τ
  refine propext (andThen_iff.trans ?_)
  constructor
  · rintro (⟨ρ, ⟨-, rfl⟩, hy⟩ | ⟨hr, hr', -⟩)
    · exact hy
    · exact absurd hr' hr
  · exact fun hy => Or.inl ⟨σ, ⟨rfl, rfl⟩, hy⟩

/-- To go on with nothing. -/
theorem andThen_next : x.andThen (pure .next) = x := by
  funext σ r τ
  refine propext (andThen_iff.trans ?_)
  constructor
  · rintro (⟨ρ, hx, rfl, rfl⟩ | ⟨-, hx⟩)
    · exact hx
    · exact hx
  · intro hx
    by_cases hr : r = .ok .next
    · exact Or.inl ⟨τ, hr ▸ hx, hr, rfl⟩
    · exact Or.inr ⟨hr, hx⟩

end Computation

namespace Stmt

variable {M : Machine} {a b : List Stmt}

@[simp] theorem runAll_nil : runAll M [] = pure .next := rfl

@[simp] theorem runAll_cons {s : Stmt} :
    runAll M (s :: a) = (run M s).andThen (runAll M a) := rfl

@[simp] theorem runAll_singleton {s : Stmt} : runAll M [s] = run M s :=
  Computation.andThen_next

theorem runAll_append :
    runAll M (a ++ b) = (runAll M a).andThen (runAll M b) := by
  induction a with
  | nil => exact Computation.next_andThen.symm
  | cons s a ih => rw [List.cons_append, runAll_cons, ih, runAll_cons,
      Computation.andThen_assoc]

end Stmt

end Stagewise
