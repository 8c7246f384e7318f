/-
  Texts made of bytes.

  Bytes stand for a text if every character in them is encoded in the shortest
  way.  Where they do not, `Loose.ofBytes` keeps the bytes that belong to no
  character, one by one.

  * `Loose.text` writes such a byte as the character for what is not known;
  * `Loose.quote` writes it with two hexadecimal digits;
  * `Loose.string?` is the text, if there is no such byte.
-/
import Codegen.Text.Quoted

namespace Codegen.Text

/-- A piece of a text that is made of bytes. -/
inductive Piece where
  /-- A character. -/
  | char (c : Char)
  /-- A byte that belongs to no character. -/
  | byte (b : Nat)
  deriving DecidableEq, Repr

/-- A text that is made of bytes. -/
abbrev Loose := List Piece

namespace Loose

/-- A text without stray bytes. -/
def ofString (s : String) : Loose := s.toList.map .char

/-- May the byte come after the first one of a character? -/
def isTail (b : Nat) : Bool := decide (0x80 ≤ b) && decide (b ≤ 0xbf)

/-- The least and the greatest byte that may come after the given first byte of a
    character, and the number of bytes after it. -/
def tails (first : Nat) : Option (Nat × Nat × Nat) :=
  if 0xc2 ≤ first ∧ first ≤ 0xdf then some (0x80, 0xbf, 1)
  else if first = 0xe0 then some (0xa0, 0xbf, 2)
  else if first = 0xed then some (0x80, 0x9f, 2)
  else if 0xe1 ≤ first ∧ first ≤ 0xef then some (0x80, 0xbf, 2)
  else if first = 0xf0 then some (0x90, 0xbf, 3)
  else if first = 0xf4 then some (0x80, 0x8f, 3)
  else if 0xf1 ≤ first ∧ first ≤ 0xf3 then some (0x80, 0xbf, 3)
  else none

/-- The character encoded by a first byte and the bytes after it, and how many of
    these belong to it. -/
def decode? (first : Nat) (rest : List Nat) : Option (Char × Nat) := do
  if first < 0x80 then return (Char.ofNat first, 0)
  let (least, greatest, count) ← tails first
  let tail := rest.take count
  let second ← tail.head?
  if tail.length = count ∧ least ≤ second ∧ second ≤ greatest ∧ tail.all isTail then
    let lead := if count = 1 then first % 32 else if count = 2 then first % 16 else first % 8
    return (Char.ofNat (tail.foldl (fun n b => n * 64 + b % 64) lead), count)
  else none

/-- The pieces of bytes, of which the first `skipped` belong to a character before
    them. -/
def piecesAfter : (skipped : Nat) → List Nat → Loose
  | _, [] => []
  | skipped + 1, _ :: bs => piecesAfter skipped bs
  | 0, b :: bs =>
    match decode? b bs with
    | some (c, count) => .char c :: piecesAfter count bs
    | none => .byte b :: piecesAfter 0 bs

/-- The text of bytes. -/
def ofBytes (bytes : List Nat) : Loose := piecesAfter 0 bytes

/-- The text, if it has no stray bytes. -/
def string? (s : Loose) : Option String :=
  (s.mapM fun (p : Piece) => match p with
    | .char c => some c
    | .byte _ => none).map String.ofList

/-- The text, with the character for what is not known in place of stray bytes. -/
def text (s : Loose) : String :=
  String.ofList (s.map fun (p : Piece) => match p with
    | .char c => c
    | .byte _ => Char.ofNat 0xfffd)

/-- The text between double quotes, with what cannot be read escaped. -/
def quote (s : Loose) : String :=
  "\"" ++ String.join (s.map fun (p : Piece) => match p with
    | .char c => quoteChar c
    | .byte b => "\\x" ++ hex 2 b) ++ "\""

end Loose

end Codegen.Text
