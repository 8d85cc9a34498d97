/-
A 64-bit digest of a byte sequence, the unseeded variant of the
four-lane multiply-and-rotate family.

Input of at least 32 bytes is folded in stripes: each stripe feeds four
lanes with one little-endian word each, and the lanes are merged at the
end. Shorter input, and what the stripes leave over, is folded word by
word, then by a half word, then by bytes. A final avalanche spreads every
input bit over the whole result. All arithmetic wraps at 64 bits.
-/
namespace Stagewise.Digest

-- ========================================================= the constants

def prime1 : UInt64 := 0x9E3779B185EBCA87
def prime2 : UInt64 := 0xC2B2AE3D27D4EB4F
def prime3 : UInt64 := 0x165667B19E3779F9
def prime4 : UInt64 := 0x85EBCA77C2B2AE63
def prime5 : UInt64 := 0x27D4EB2F165667C5

-- ============================================================= one word

/-- Rotate to the left by `n` bits, `0 < n < 64`. -/
def rotate (x : UInt64) (n : UInt64) : UInt64 :=
  (x <<< n) ||| (x >>> (64 - n))

/-- The number that bytes spell, least significant first. -/
def littleEndian (bytes : List UInt8) : UInt64 :=
  bytes.foldr (fun b acc => (acc <<< 8) ||| b.toUInt64) 0

/-- Feed one word to a lane. -/
def mixWord (lane word : UInt64) : UInt64 :=
  rotate (lane + word * prime2) 31 * prime1

-- ============================================================== stripes

/-- The four lanes of the striped part. -/
structure Lanes where
  a : UInt64
  b : UInt64
  c : UInt64
  d : UInt64

namespace Lanes

def start : Lanes := ⟨prime1 + prime2, prime2, 0, 0 - prime1⟩

/-- Feed the first 32 bytes of `bytes`, eight to a lane. -/
def feed (l : Lanes) (bytes : List UInt8) : Lanes :=
  let word (i : Nat) := littleEndian ((bytes.drop (8 * i)).take 8)
  ⟨mixWord l.a (word 0), mixWord l.b (word 1),
   mixWord l.c (word 2), mixWord l.d (word 3)⟩

/-- Feed `n` stripes. -/
def feedAll : Nat → Lanes → List UInt8 → Lanes
  | 0, l, _ => l
  | n + 1, l, bytes => feedAll n (l.feed bytes) (bytes.drop 32)

/-- One word from four. -/
def merge (l : Lanes) : UInt64 :=
  let join (acc lane : UInt64) := (acc ^^^ mixWord 0 lane) * prime1 + prime4
  let sum := rotate l.a 1 + rotate l.b 7 + rotate l.c 12 + rotate l.d 18
  join (join (join (join sum l.a) l.b) l.c) l.d

end Lanes

-- ========================================================= what is left

/-- Fold `n` whole words. -/
def foldWords : Nat → UInt64 → List UInt8 → UInt64
  | 0, acc, _ => acc
  | n + 1, acc, bytes =>
      let word := mixWord 0 (littleEndian (bytes.take 8))
      foldWords n (rotate (acc ^^^ word) 27 * prime1 + prime4) (bytes.drop 8)

/-- Fold a half word. -/
def foldHalf (acc : UInt64) (bytes : List UInt8) : UInt64 :=
  rotate (acc ^^^ (littleEndian bytes * prime1)) 23 * prime2 + prime3

/-- Fold single bytes. -/
def foldBytes (acc : UInt64) (bytes : List UInt8) : UInt64 :=
  bytes.foldl (fun acc b => rotate (acc ^^^ (b.toUInt64 * prime5)) 11 * prime1)
    acc

/-- Fold fewer than 32 bytes. -/
def foldRest (acc : UInt64) (bytes : List UInt8) : UInt64 :=
  let words := bytes.length / 8
  let acc := foldWords words acc bytes
  let bytes := bytes.drop (8 * words)
  if 4 ≤ bytes.length then foldBytes (foldHalf acc (bytes.take 4))
    (bytes.drop 4)
  else foldBytes acc bytes

-- =========================================================== the digest

/-- Spread every bit over the whole word. -/
def avalanche (x : UInt64) : UInt64 :=
  let x := (x ^^^ (x >>> 33)) * prime2
  let x := (x ^^^ (x >>> 29)) * prime3
  x ^^^ (x >>> 32)

/-- The digest of a byte sequence. -/
def ofBytes (bytes : List UInt8) : UInt64 :=
  let stripes := bytes.length / 32
  let acc := if stripes = 0 then prime5
    else (Lanes.start.feedAll stripes bytes).merge
  avalanche (foldRest (acc + UInt64.ofNat bytes.length)
    (bytes.drop (32 * stripes)))

/-- The digest of a text, over its bytes. -/
def ofText (s : String) : UInt64 := ofBytes s.toByteArray.data.toList

end Stagewise.Digest
