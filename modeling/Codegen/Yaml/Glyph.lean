/-
  Characters of a YAML text with their places.

  `glyphs` reads a text: line breaks of all kinds become one character, every
  character knows its line and column, and a null character marks the end.

  A text is held in pieces.  A piece with control characters cannot be read, and
  nothing after it can.
-/

namespace Codegen.Yaml

/-- A character and its place. -/
structure Glyph where
  char : Char
  /-- The number of characters before it. -/
  index : Nat
  line : Nat
  column : Nat
  /-- The characters that it is written with, if it is a line break. -/
  written : List Char := []
  deriving DecidableEq, Repr

/-- The character that marks the end of a text. -/
def endChar : Char := Char.ofNat 0

/-- Line and paragraph separators, which stay themselves in a folded text. -/
def isSeparator (c : Char) : Bool := c == Char.ofNat 0x2028 || c == Char.ofNat 0x2029

/-- The characters that a text may hold. -/
def isAllowed (c : Char) : Bool :=
  let n := c.toNat
  n == 0x09 || n == 0x0a || n == 0x0d || (decide (0x20 ≤ n) && decide (n ≤ 0x7e)) || n == 0x85 ||
    (decide (0xa0 ≤ n) && n != 0xfffe && n != 0xffff)

namespace Glyph

/-- Is it a blank or a tab? -/
def isBlank (g : Glyph) : Bool := g.char == ' ' || g.char == '\t'

/-- Does it end a line? -/
def isBreak (g : Glyph) : Bool := g.char == '\n' || isSeparator g.char

/-- Is it a line break written with two characters? -/
def isPair (g : Glyph) : Bool := decide (g.written.length = 2)

/-- Is it a line break written with ASCII characters? -/
def isPlainBreak (g : Glyph) : Bool :=
  g.isBreak && g.written.all fun c => c == '\n' || c == '\r'

/-- Does it mark the end of the text? -/
def isEnd (g : Glyph) : Bool := g.char == endChar

/-- Does it end a line or the text? -/
def endsLine (g : Glyph) : Bool := g.isBreak || g.isEnd

/-- Does it end a word? -/
def endsWord (g : Glyph) : Bool := g.isBlank || g.endsLine

end Glyph

/-- The characters of a text from the given place on. -/
def glyphsFrom (index line column : Nat) : List Char → List Glyph
  | [] => [⟨endChar, index, line + 1, 0, []⟩]
  | '\r' :: '\n' :: cs =>
    ⟨'\n', index, line, column, ['\r', '\n']⟩ :: glyphsFrom (index + 2) (line + 1) 0 cs
  | c :: cs =>
    if c == '\n' || c == '\r' || c == Char.ofNat 0x85 then
      ⟨'\n', index, line, column, [c]⟩ :: glyphsFrom (index + 1) (line + 1) 0 cs
    else if isSeparator c then
      ⟨c, index, line, column, [c]⟩ :: glyphsFrom (index + 1) (line + 1) 0 cs
    else ⟨c, index, line, column, []⟩ :: glyphsFrom (index + 1) line (column + 1) cs

/-- The character that may mark the encoding of a text at its start. -/
def byteOrderMark : Char := Char.ofNat 0xfeff

/-- The number of bytes of a piece of a text. -/
def pieceSize : Nat := 512

/-- The pieces of a text, of whole characters each.  The first piece goes on after
    `used` bytes. -/
def pieces (used : Nat) : List Char → List (List Char)
  | [] => [[]]
  | c :: cs =>
    let isFull := decide (pieceSize < used + c.utf8Size)
    let rest := pieces (if isFull then c.utf8Size else used + c.utf8Size) cs
    let first := c :: rest.headD []
    if isFull then [] :: first :: rest.tail else first :: rest.tail

/-- The text without the byte order mark at its start. -/
def withoutMark : List Char → List Char
  | c :: cs => if c = byteOrderMark then cs else c :: cs
  | [] => []

/-- The characters of a text, as far as it can be read, and whether that is to its
    end.  The byte order mark at its start does not count. -/
def glyphs (text : String) : List Glyph × Bool :=
  let ps := pieces 0 text.toList
  let readable := ps.takeWhile fun p => p.all isAllowed
  (glyphsFrom 0 0 0 (withoutMark readable.flatten), readable.length = ps.length)

/-- Is it the start of a line that marks the start or the end of a document? -/
def isMarker (mark : Char) : List Glyph → Bool
  | a :: b :: c :: rest =>
    a.column == 0 && a.char == mark && b.char == mark && c.char == mark &&
      rest.head?.all Glyph.endsWord
  | _ => false

/-- Is it a line that parts documents? -/
def partsDocuments (gs : List Glyph) : Bool := isMarker '-' gs || isMarker '.' gs

end Codegen.Yaml
