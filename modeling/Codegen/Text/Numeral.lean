/-
  Numbers in text.

  `decimal?` reads a sign and decimal digits.  `literal?` also knows bases by
  their mark (`0x`, `0o`, `0b`, or a leading `0` for eight) and underscores
  between digits.  Both refuse what does not fit a word.
-/

namespace Codegen.Text

/-- The value of a digit in any base up to sixteen. -/
def digit? (c : Char) : Option Nat :=
  if c.isDigit then some (c.toNat - 48)
  else if 'a' ≤ c ∧ c ≤ 'f' then some (c.toNat - 87)
  else if 'A' ≤ c ∧ c ≤ 'F' then some (c.toNat - 55)
  else none

/-- The number written by digits of a base; there must be one. -/
def natural? (base : Nat) (cs : List Char) : Option Nat :=
  if cs.isEmpty then none
  else cs.foldlM (fun acc c => do
    let d ← digit? c
    if d < base then some (acc * base + d) else none) 0

/-- The least number that is too large for a word, `2 ^ 63`. -/
def wordBound : Nat := 9223372036854775808

/-- The number if it fits a word. -/
def fit? (negative : Bool) (n : Nat) : Option Int :=
  if negative then if n ≤ wordBound then some (-(n : Int)) else none
  else if n < wordBound then some n else none

/-- The sign of a number and what follows it. -/
def sign : List Char → Bool × List Char
  | '-' :: cs => (true, cs)
  | '+' :: cs => (false, cs)
  | cs => (false, cs)

/-- The number written by an optional sign and decimal digits. -/
def decimal? (s : String) : Option Int := do
  let (negative, cs) := sign s.toList
  fit? negative (← natural? 10 cs)

/-- Do underscores stand between digits, or after the mark of a base, only? -/
def underscoresOk (afterMark : Bool) : List Char → Bool
  | [] => true
  | ['_'] => false
  | '_' :: '_' :: _ => false
  | '_' :: c :: cs => afterMark && underscoresOk true (c :: cs)
  | _ :: cs => underscoresOk true cs

/-- The number written by an optional sign, an optional mark of the base, and
    digits with underscores between them. -/
def literal? (s : String) : Option Int := do
  let (negative, cs) := sign s.toList
  let (base, marked, digits) : Nat × Bool × List Char := match cs with
    | '0' :: 'x' :: r | '0' :: 'X' :: r => (16, true, r)
    | '0' :: 'o' :: r | '0' :: 'O' :: r => (8, true, r)
    | '0' :: 'b' :: r | '0' :: 'B' :: r => (2, true, r)
    | '0' :: d :: r => (8, true, d :: r)
    | r => (10, false, r)
  if underscoresOk marked digits then
    fit? negative (← natural? base (digits.filter (· ≠ '_')))
  else none

end Codegen.Text
