/-
Identities of types, fields and methods: 64-bit numbers derived from the
name of the declaring type, the name of the member and, for a method, the
identities of its parameter types in order. A member keeps its identity
when it is renamed or moved into another declaration, so whatever is
recorded about it stays valid for a whole compilation.

The derivation is a chain of steps `h · separator + component`, each
injective in `h` and in the component (`chain_left_inj`,
`chain_right_inj`), with a marker of its own for each kind of identity and
each parameter position. It is given over an
arbitrary name hash; `Digest.ofText` is the one in use.
-/
import Stagewise.Digest
import Stagewise.Text.Quoted

namespace Stagewise

/-- The identity of a type, field or method. -/
structure Identity where
  value : UInt64
  deriving DecidableEq, Inhabited, Repr

namespace Identity

-- ============================================================ the markers

/-- Multiplied into the running value before each component. -/
def separator : UInt64 := 0x4bc94d6bd06053ad

def typeMarker : UInt64 := 0x2fac10b63a6cc57c
def fieldMarker : UInt64 := 0x1a095090689d4647
def methodMarker : UInt64 := 0x7d3c8b4a92e15f6d

/-- One marker for each of the first sixteen parameter positions. -/
def positionMarkers : List UInt64 :=
  [0x9e3779b97f4a7c15, 0xbf58476d1ce4e5b9, 0x94d049bb133111eb,
   0xd6e8feb86659fd93, 0xe7037ed1a0b428db, 0xc6a4a7935bd1e995,
   0x8648dbbc94d49b8d, 0xa2b48b2c69e0d657, 0x7c3e9f2a5b8d1403,
   0x5d8c7b4a3e9f2106, 0x3f1e9d8c7b5a4203, 0x1a2b3c4d5e6f7089,
   0x9f8e7d6c5b4a3210, 0x2468ace013579bdf, 0xfdb97531eca86420,
   0x123456789abcdef0]

/-- The marker of a parameter position; past the table it counts up from
the first marker. -/
def positionMarker (i : Nat) : UInt64 :=
  positionMarkers.getD i (0x9e3779b97f4a7c15 + UInt64.ofNat i)

-- ========================================================= the derivation

/-- One step of the chain. -/
def chain (h component : UInt64) : UInt64 := h * separator + component

/-- Chain the parameters of a method, the first of them at position `i`. -/
def chainParams (h : UInt64) (i : Nat) : List Identity → UInt64
  | [] => h
  | p :: ps => chainParams (chain h (positionMarker i ^^^ p.value)) (i + 1) ps

/-- The identity of a rendered type, over a name hash. -/
def ofTypeWith (hash : String → UInt64) (name : String) : Identity :=
  ⟨typeMarker ^^^ hash name⟩

/-- The identity of a field, over a name hash. -/
def ofFieldWith (hash : String → UInt64) (owner name : String) : Identity :=
  ⟨chain (fieldMarker ^^^ hash owner) (hash name)⟩

/-- The identity of a method, over a name hash. -/
def ofMethodWith (hash : String → UInt64) (owner name : String)
    (params : List Identity) : Identity :=
  ⟨chainParams (chain (methodMarker ^^^ hash owner) (hash name)) 0 params⟩

/-- The identity of a parameter list alone. -/
def ofSignature (params : List Identity) : Identity :=
  ⟨chainParams methodMarker 0 params⟩

/-- The identity of a rendered type, type arguments included. -/
def ofType (name : String) : Identity := ofTypeWith Digest.ofText name

/-- The identity of a field, by its declaring type and its name. -/
def ofField (owner name : String) : Identity :=
  ofFieldWith Digest.ofText owner name

/-- The identity of a method, by its declaring type, its name and its
parameter types. -/
def ofMethod (owner name : String) (params : List Identity) : Identity :=
  ofMethodWith Digest.ofText owner name params

-- ============================================================ injectivity

/-- The separator is odd and so has an inverse. -/
theorem separator_mul_inverse : separator * 0xd3f20f0a40208825 = 1 := by decide

@[simp] theorem chain_left_inj {h h' component : UInt64} :
    chain h component = chain h' component ↔ h = h' := by
  refine ⟨fun e => ?_, fun e => e ▸ rfl⟩
  have e := congrArg (· * 0xd3f20f0a40208825)
    ((UInt64.add_left_inj component).1 e)
  simpa only [UInt64.mul_assoc, separator_mul_inverse, UInt64.mul_one] using e

@[simp] theorem chain_right_inj {h component component' : UInt64} :
    chain h component = chain h component' ↔ component = component' :=
  UInt64.add_right_inj _

/-- Chaining the same parameters keeps different values apart. -/
theorem chainParams_left_inj {h h' : UInt64} {i : Nat} {ps : List Identity} :
    chainParams h i ps = chainParams h' i ps ↔ h = h' := by
  induction ps generalizing h h' i with
  | nil => rfl
  | cons p ps ih => rw [chainParams, chainParams, ih, chain_left_inj]

-- ================================================================== texts

/-- The identity that no member has yet. -/
def unassigned : Identity := ⟨0⟩

def isUnassigned (i : Identity) : Bool := i == unassigned

/-- The sixteen hexadecimal digits of an identity, marked as such. -/
def text (i : Identity) : String :=
  "0x" ++ String.ofList (Text.hexPadded 16 i.value.toNat)

end Identity

end Stagewise
