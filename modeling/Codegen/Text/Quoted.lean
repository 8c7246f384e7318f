/-
  Quoted text.

  `quote s` is `s` between double quotes.  A double quote and a backslash get
  a backslash in front; the usual control characters have a letter, the other
  ASCII ones two hexadecimal digits; any other character without a visible
  form is written with four or eight hexadecimal digits.  All else stays.
-/
import Codegen.Text.Visible

namespace Codegen.Text

/-- The hexadecimal digits of `n`, padded with zeros to `width`. -/
def hex (width n : Nat) : String :=
  let digits := Nat.toDigits 16 n
  String.ofList (List.replicate (width - digits.length) '0' ++ digits)

/-- One character inside quotes. -/
def quoteChar (c : Char) : String :=
  match c.toNat with
  | 0x22 => "\\\""
  | 0x5c => "\\\\"
  | 0x07 => "\\a"
  | 0x08 => "\\b"
  | 0x0c => "\\f"
  | 0x0a => "\\n"
  | 0x0d => "\\r"
  | 0x09 => "\\t"
  | 0x0b => "\\v"
  | n =>
    if isVisible c then String.singleton c
    else if n < 0x80 then "\\x" ++ hex 2 n
    else if n < 0x10000 then "\\u" ++ hex 4 n
    else "\\U" ++ hex 8 n

/-- The text between double quotes, with what cannot be read escaped. -/
def quote (s : String) : String :=
  "\"" ++ String.join (s.toList.map quoteChar) ++ "\""

/-! ## Quoted texts -/

/-- The value of a hexadecimal digit. -/
def hexValue? (c : Char) : Option Nat :=
  if c.isDigit then some (c.toNat - 48)
  else if 'a' ≤ c ∧ c ≤ 'f' then some (c.toNat - 87)
  else if 'A' ≤ c ∧ c ≤ 'F' then some (c.toNat - 55)
  else none

/-- Is it the code of a character, in hexadecimal digits? -/
def isCode (digits : List Char) : Bool :=
  match digits.mapM hexValue? with
  | some ds => decide (ds.foldl (fun n d => n * 16 + d) 0).isValidChar
  | none => false

/-- Is it a byte, in three octal digits? -/
def isOctalByte (a b c : Char) : Bool :=
  [a, b, c].all (fun d => decide ('0' ≤ d) && decide (d ≤ '7')) && decide (a ≤ '3')

/-- Is it the rest of a quoted text, the closing quote included?  A quote, a line
    break and a backslash stand in it only as escapes. -/
def endsQuoted : List Char → Bool
  | [] => false
  | ['"'] => true
  | '\\' :: 'x' :: a :: b :: cs => (hexValue? a).isSome && (hexValue? b).isSome && endsQuoted cs
  | '\\' :: 'u' :: a :: b :: c :: d :: cs => isCode [a, b, c, d] && endsQuoted cs
  | '\\' :: 'U' :: a :: b :: c :: d :: e :: f :: g :: h :: cs =>
    isCode [a, b, c, d, e, f, g, h] && endsQuoted cs
  | '\\' :: a :: b :: c :: cs =>
    if isOctalByte a b c then endsQuoted cs else isEscape a && endsQuoted (b :: c :: cs)
  | ['\\', a, '"'] => isEscape a
  | c :: cs => c != '"' && c != '\\' && c != '\n' && endsQuoted cs
where
  isEscape (c : Char) : Bool := ['a', 'b', 'f', 'n', 'r', 't', 'v', '\\', '"'].contains c

/-- Is it a text between double quotes whose escapes make sense? -/
def isQuoted (s : String) : Bool :=
  match s.toList with
  | '"' :: cs => endsQuoted cs
  | _ => false

end Codegen.Text
