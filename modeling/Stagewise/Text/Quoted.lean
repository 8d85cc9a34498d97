/-
Quoted text, the way string literals are shown: between double quotes,
with short escapes for the usual control characters, and a numbered
escape for every other character that does not show by itself. A single
quote needs no escape here.
-/
import Stagewise.Text.Visible

namespace Stagewise.Text

/-- The lower-case hexadecimal digits of a number, without padding. -/
def hex (n : Nat) : List Char := Nat.toDigits 16 n

/-- The lower-case hexadecimal digits of a number, at least `width`. -/
def hexPadded (width n : Nat) : List Char :=
  List.replicate (width - (hex n).length) '0' ++ hex n

/-- How a character is written between double quotes. -/
def escapeChar (c : Char) : List Char :=
  if c = '\t' then ['\\', 't']
  else if c = '\r' then ['\\', 'r']
  else if c = '\n' then ['\\', 'n']
  else if c = '"' then ['\\', '"']
  else if c = '\\' then ['\\', '\\']
  else if c.toNat = 0 then ['\\', '0']
  else if isVisible c then [c]
  else ['\\', 'u', '\x7b'] ++ hex c.toNat ++ ['\x7d']

def quote (s : String) : String :=
  String.ofList (['"'] ++ s.toList.flatMap escapeChar ++ ['"'])

end Stagewise.Text
