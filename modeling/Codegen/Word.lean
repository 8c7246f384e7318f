/-
  Machine words.

  A word has 64 bits and is read as a two's complement integer; its arithmetic
  wraps.  Truth values are the words `1` and `0`.
-/

namespace Codegen

/-- A machine word: 64 bits, two's complement, arithmetic modulo `2 ^ 64`. -/
abbrev Word := Int64

namespace Word

/-- The word in decimal, with a sign if it is negative. -/
def text (w : Word) : String := toString w.toInt

/-- The word of a truth value: `1` or `0`. -/
def ofBool (b : Bool) : Word := if b then 1 else 0

/-- Does the word sign-extend from 32 bits? -/
def fits32 (w : Word) : Bool := decide (-2147483648 ≤ w) && decide (w ≤ 2147483647)

end Word

end Codegen
