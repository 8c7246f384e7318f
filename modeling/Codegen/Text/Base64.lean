/-
  Bytes written with sixty-four characters.

  Four characters stand for three bytes.  The last four may end with one or two
  equals signs and then stand for two bytes or one.  Line breaks do not count.
-/
import Codegen.Text.Loose

namespace Codegen.Text.Base64

/-- The value of a character. -/
def digit? (c : Char) : Option Nat :=
  if 'A' ≤ c ∧ c ≤ 'Z' then some (c.toNat - 65)
  else if 'a' ≤ c ∧ c ≤ 'z' then some (c.toNat - 71)
  else if c.isDigit then some (c.toNat + 4)
  else if c = '+' then some 62
  else if c = '/' then some 63
  else none

/-- The bytes of characters without line breaks. -/
def bytes? : List Char → Option (List Nat)
  | [] => some []
  | [a, b, '=', '='] => do
    let (a, b) := (← digit? a, ← digit? b)
    return [a * 4 + b / 16]
  | [a, b, c, '='] => do
    let (a, b, c) := (← digit? a, ← digit? b, ← digit? c)
    return [a * 4 + b / 16, b % 16 * 16 + c / 4]
  | a :: b :: c :: d :: rest => do
    let (a, b, c, d) := (← digit? a, ← digit? b, ← digit? c, ← digit? d)
    return [a * 4 + b / 16, b % 16 * 16 + c / 4, c % 4 * 64 + d] ++ (← bytes? rest)
  | _ => none

/-- The text that is written with sixty-four characters. -/
def decode? (s : String) : Option Loose :=
  (bytes? (s.toList.filter fun c => c ≠ '\n' ∧ c ≠ '\r')).map Loose.ofBytes

end Codegen.Text.Base64
