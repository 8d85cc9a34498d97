/-
References to types as they are written where a type is used, with the
modifiers and markers that declarations carry.
-/
import Stagewise.Identity

namespace Stagewise

-- ======================================================= type references

/-- A type by its simple name and its type arguments, such as `int` or
`List<T>`. `isParam` holds for a formal type parameter, which names no
declaration. -/
structure TypeRef where
  name : String
  args : List TypeRef
  isParam : Bool
  deriving Inhabited, Repr

namespace TypeRef

mutual

/-- Type references are compared name by name, arguments included. -/
def decEq : (a b : TypeRef) → Decidable (a = b)
  | ⟨n, as, p⟩, ⟨m, bs, q⟩ =>
      if h : n = m ∧ p = q then
        match decEqAll as bs with
        | isTrue hs => isTrue (by rw [h.1, h.2, hs])
        | isFalse hs => isFalse fun e => hs (by injection e)
      else isFalse fun e => h (by injection e; exact ⟨‹_›, ‹_›⟩)

def decEqAll : (as bs : List TypeRef) → Decidable (as = bs)
  | [], [] => isTrue rfl
  | [], _ :: _ => isFalse nofun
  | _ :: _, [] => isFalse nofun
  | a :: as, b :: bs =>
      match decEq a b, decEqAll as bs with
      | isTrue h, isTrue hs => isTrue (by rw [h, hs])
      | isFalse h, _ => isFalse fun e => h (by injection e)
      | _, isFalse hs => isFalse fun e => hs (by injection e)

end

instance : DecidableEq TypeRef := decEq

/-- A type without arguments. -/
def named (name : String) : TypeRef := ⟨name, [], false⟩

/-- A generic type with its arguments. -/
def generic (name : String) (args : List TypeRef) : TypeRef :=
  ⟨name, args, false⟩

/-- A formal type parameter. -/
def param (name : String) : TypeRef := ⟨name, [], true⟩

def void : TypeRef := named "void"
def boolean : TypeRef := named "boolean"
def int : TypeRef := named "int"
def long : TypeRef := named "long"

def isVoid (t : TypeRef) : Bool := t.name == "void" && t.args.isEmpty

def isBoolean (t : TypeRef) : Bool := t.name == "boolean" && t.args.isEmpty

/-- Whether this is one of the primitive whole-number types. -/
def isIntegral (t : TypeRef) : Bool :=
  t.args.isEmpty && ["byte", "short", "int", "long"].contains t.name

/-- Whether this is a primitive type of numbers, whole or not. -/
def isNumeric (t : TypeRef) : Bool :=
  t.isIntegral
    || (t.args.isEmpty && ["char", "float", "double"].contains t.name)

mutual

/-- The type as written: the name, then the arguments in angle
brackets if there are any. -/
def text : TypeRef → String
  | ⟨name, [], _⟩ => name
  | ⟨name, a :: as, _⟩ =>
      name ++ "<" ++ ", ".intercalate (text a :: texts as) ++ ">"

def texts : List TypeRef → List String
  | [] => []
  | t :: ts => text t :: texts ts

end

/-- The identity of the written type. -/
def identity (t : TypeRef) : Identity := Identity.ofType t.text

end TypeRef

-- ============================================================= modifiers

/-- The modifiers of a declaration or member. -/
structure Modifiers where
  isPublic : Bool := false
  isProtected : Bool := false
  isPrivate : Bool := false
  isStatic : Bool := false
  isFinal : Bool := false
  isAbstract : Bool := false
  deriving DecidableEq, Inhabited, Repr

namespace Modifiers

def empty : Modifiers := {}
def publicOnly : Modifiers := { isPublic := true }
def privateOnly : Modifiers := { isPrivate := true }

/-- The visibility alone. -/
def visibility (m : Modifiers) : Modifiers :=
  { isPublic := m.isPublic, isProtected := m.isProtected,
    isPrivate := m.isPrivate }

/-- The same modifiers with the visibility of `v`. -/
def withVisibility (m v : Modifiers) : Modifiers :=
  { m with
    isPublic := v.isPublic
    isProtected := v.isProtected
    isPrivate := v.isPrivate }

@[simp] theorem visibility_withVisibility (m v : Modifiers) :
    (m.withVisibility v).visibility = v.visibility := rfl

/-- The modifiers as a number, one bit each in the order of the fields. -/
def bits (m : Modifiers) : Nat :=
  1 * m.isPublic.toNat + 2 * m.isProtected.toNat + 4 * m.isPrivate.toNat
    + 8 * m.isStatic.toNat + 16 * m.isFinal.toNat + 32 * m.isAbstract.toNat

end Modifiers

-- =============================================================== markers

/-- What a declaration or member declares about itself for the compiler.
All but `override` are consumed and do not appear in the output. -/
inductive Marker where
  /-- The type takes part in merging. -/
  | participates
  /-- The field or method belongs to the named stage. -/
  | stage (name : String)
  /-- The field is a structural reference into the composition tree. -/
  | reference
  /-- The method overrides a method of a base type. -/
  | override
  deriving DecidableEq, Inhabited, Repr

namespace Marker

/-- Whether the compiler consumes the marker. -/
def isConsumed (m : Marker) : Bool := m != .override

/-- The stage that a marker names. -/
def stageName? : Marker → Option String
  | .stage name => some name
  | _ => none

/-- The first stage that a list of markers names. -/
def stageTag? (ms : List Marker) : Option String := ms.findSome? stageName?

/-- The markers without one of them. -/
def remove (m : Marker) (ms : List Marker) : List Marker := ms.filter (· != m)

/-- The markers that stay in the output. -/
def strip (ms : List Marker) : List Marker := ms.filter (!·.isConsumed)

@[simp] theorem mem_remove {m n : Marker} {ms : List Marker} :
    n ∈ remove m ms ↔ n ∈ ms ∧ n ≠ m := by
  simp [remove]

/-- Only override markers stay. -/
@[simp] theorem mem_strip {m : Marker} {ms : List Marker} :
    m ∈ strip ms ↔ m ∈ ms ∧ m = .override := by
  simp [strip, isConsumed]

end Marker

end Stagewise
