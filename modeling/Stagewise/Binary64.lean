/-
Double-precision numbers, kept as their 64 bits so that every payload
survives, and their decimal text.

The text has the fewest digits that read back as the same number; of two
such decimals the nearer one is taken, and of two equally near ones the
larger. It is positional at every magnitude: a whole number has no point
and nothing is ever written with an exponent.

Two numbers agree when they compare equal or are both undefined, so the
two zeros agree and so do all undefined numbers.
-/
namespace Stagewise

/-- A double-precision number by its bits. -/
structure Binary64 where
  bits : UInt64
  deriving DecidableEq, Inhabited, Repr

-- ================================================================ powers

def twoTo (n : Nat) : Nat := Nat.pow 2 n

def tenTo (n : Nat) : Nat := Nat.pow 10 n

-- ============================================================== decimals

/-- The number `coefficient · 10 ^ exponent`. -/
structure Decimal where
  coefficient : Nat
  exponent : Int
  deriving DecidableEq, Repr

namespace Decimal

/-- Positional text: digits, moved by the exponent across the point. A
coefficient is expected to carry no trailing zeros. -/
def text (d : Decimal) : String :=
  let digits := Nat.toDigits 10 d.coefficient
  let point := Int.ofNat digits.length + d.exponent
  let zeros (n : Int) := List.replicate n.toNat '0'
  String.ofList <|
    if point ≤ 0 then ['0', '.'] ++ zeros (-point) ++ digits
    else if 0 ≤ d.exponent then digits ++ zeros d.exponent
    else digits.take point.toNat ++ ['.'] ++ digits.drop point.toNat

/-- Move trailing zeros of the coefficient into the exponent; `fuel`
bounds the number of zeros moved. -/
def strip : Nat → Decimal → Decimal
  | 0, d => d
  | fuel + 1, d =>
      if d.coefficient % 10 = 0 then
        strip fuel ⟨d.coefficient / 10, d.exponent + 1⟩
      else d

end Decimal

-- ================================================== the shortest decimal

/-- A number and the interval of reals that round to it, all three as
multiples of `2 ^ scale`. The ends belong to it when `closed`. -/
structure RoundingInterval where
  low : Nat
  value : Nat
  high : Nat
  scale : Int
  closed : Bool

namespace RoundingInterval

/-- The exponent `p` with `10 ^ (p - 1) ≤ value < 10 ^ p`. -/
def magnitude (i : RoundingInterval) : Int :=
  let num := i.value * twoTo i.scale.toNat
  let den := twoTo (-i.scale).toNat
  let count (n : Nat) := Int.ofNat (Nat.toDigits 10 n).length
  if den ≤ num then count (num / den) else 1 - count ((den - 1) / num)

/-- The point of the grid `10 ^ g` nearest to the value, among those of
the value's two neighbours that lie in the interval. -/
def gridPoint? (i : RoundingInterval) (g : Int) : Option Decimal :=
  let factor := twoTo i.scale.toNat * tenTo (-g).toNat
  let unit := tenTo g.toNat * twoTo (-i.scale).toNat
  let value := i.value * factor
  let below := value / unit
  let inside (c : Nat) : Bool :=
    if i.closed then i.low * factor ≤ c * unit && c * unit ≤ i.high * factor
    else i.low * factor < c * unit && c * unit < i.high * factor
  let far := 2 * (value - below * unit)
  if inside below && (!inside (below + 1) || far < unit) then
    some ⟨below, g⟩
  else if inside (below + 1) then some ⟨below + 1, g⟩
  else none

/-- The decimal with the fewest digits inside the interval. Seventeen
digits always suffice. -/
def shortest (i : RoundingInterval) : Decimal :=
  let grids := (List.range 17).map fun n => i.magnitude - 1 - Int.ofNat n
  ((grids.findSome? i.gridPoint?).map (Decimal.strip 400)).getD ⟨0, 0⟩

end RoundingInterval

namespace Binary64

-- ============================================================== decoding

def isNegative (x : Binary64) : Bool := x.bits.toNat / twoTo 63 = 1

/-- The eleven bits of the exponent. -/
def exponentField (x : Binary64) : Nat := x.bits.toNat / twoTo 52 % twoTo 11

/-- The fifty-two bits of the fraction. -/
def fractionField (x : Binary64) : Nat := x.bits.toNat % twoTo 52

def isNaN (x : Binary64) : Bool :=
  x.exponentField = 2047 && x.fractionField ≠ 0

def isInfinite (x : Binary64) : Bool :=
  x.exponentField = 2047 && x.fractionField = 0

def isZero (x : Binary64) : Bool :=
  x.exponentField = 0 && x.fractionField = 0

/-- The rounding interval of a finite number's magnitude, in quarters of
its last place. Below a power of two the numbers lie twice as dense. -/
def interval (x : Binary64) : RoundingInterval :=
  let m := if x.exponentField = 0 then x.fractionField
    else twoTo 52 + x.fractionField
  let e : Int := if x.exponentField = 0 then -1074
    else Int.ofNat x.exponentField - 1075
  let step := if x.fractionField = 0 ∧ 1 < x.exponentField then 1 else 2
  ⟨4 * m - step, 4 * m, 4 * m + 2, e - 2, m % 2 = 0⟩

def text (x : Binary64) : String :=
  let sign := if x.isNegative then "-" else ""
  if x.isNaN then "NaN"
  else if x.isInfinite then sign ++ "inf"
  else if x.isZero then sign ++ "0"
  else sign ++ x.interval.shortest.text

/-- Equal as numbers, or both undefined. -/
def agrees (x y : Binary64) : Bool :=
  if x.isNaN || y.isNaN then x.isNaN && y.isNaN
  else x.bits == y.bits || (x.isZero && y.isZero)

end Binary64

end Stagewise
