/-
  YAML tokens.

  The tokens of a text are found from the left.  A token may turn out to be the
  start of a key only when the colon after it is reached; until then it is kept
  as a candidate, and the tokens `key` and `blockMap` are put in front of it
  later.  There is one candidate for the text outside brackets and one for each
  open bracket.  A candidate that stands at the indentation of the block must
  become a key, and every candidate must do so on its own line.

  The text is held in pieces: when less is held than is looked at, the rest of
  the piece is put in front of the next piece.  While what is held starts with a
  byte order mark, every line at which a token is looked for loses its first
  character.
-/
import Codegen.Yaml.Scalar
import Codegen.Yaml.Tag

namespace Codegen.Yaml

/-- A token. -/
inductive Token where
  /-- The end of the text. -/
  | streamEnd
  /-- A line that starts with a percent sign. -/
  | directive (d : Directive)
  /-- The line `---`. -/
  | documentStart
  /-- The line `...`. -/
  | documentEnd
  /-- The first dash of a list. -/
  | blockList
  /-- The first key of a map. -/
  | blockMap
  /-- The end of a list or a map without brackets. -/
  | blockEnd
  /-- The sign `[`. -/
  | listOpen
  /-- The sign `]`. -/
  | listClose
  /-- The sign `{`. -/
  | mapOpen
  /-- The sign `}`. -/
  | mapClose
  /-- The sign `-`. -/
  | dash
  /-- The sign `,`. -/
  | comma
  /-- The start of a key. -/
  | key
  /-- The sign `:`. -/
  | value
  /-- A value that was named before. -/
  | reference (name : String)
  /-- The name of the value that follows. -/
  | anchor (name : String)
  /-- The kind of the value that follows. -/
  | tag (t : Tag)
  /-- A scalar. -/
  | scalar (text : String) (isPlain : Bool)
  deriving DecidableEq, Repr

/-- A token that may be the start of a key. -/
structure Candidate where
  /-- The number of tokens before it. -/
  number : Nat
  /-- Must it become a key? -/
  required : Bool
  /-- Its first character. -/
  start : Glyph
  /-- Is it held back until it is known if it becomes a key? -/
  awaited : Bool := true

/-- The longest key that is looked for. -/
def maxKeyLength : Nat := 1024

/-- Has the candidate been left behind at the given place? -/
def Candidate.isStale (c : Candidate) (place : Glyph) : Bool :=
  decide (c.start.line < place.line) || decide (c.start.index + maxKeyLength < place.index)

/-- Could the candidate still become a key?  One that must and cannot makes the
    text no YAML. -/
def Candidate.isOpen (c : Candidate) (place : Option Glyph) : Option Bool :=
  if place.any c.isStale then (if c.required then none else some false) else some true

/-- What is known about keys inside a bracket, or outside of all brackets. -/
structure Level where
  /-- The candidate, if there is one. -/
  candidate : Option Candidate := none
  /-- The number of the last candidate; before the first one, that of the bracket. -/
  number : Nat := 0

/-- The level as it is after a bracket in it.  If the bracket was itself the
    candidate and had none inside, it is not held back any longer. -/
def Level.afterBracket (l inside : Level) : Level :=
  { l with candidate := l.candidate.map fun c =>
      if c.number = inside.number then { c with awaited := false } else c }

/-- A text of which some tokens have been found. -/
structure Source where
  /-- The characters not read yet. -/
  rest : List Glyph
  /-- The tokens that were found and not taken yet, the oldest first. -/
  found : List Token := []
  /-- The number of tokens taken. -/
  taken : Nat := 0
  /-- The level outside of all brackets and those of the open brackets, the
      innermost first. -/
  level : Level := {}
  outer : List Level := []
  /-- The indentation of the open blocks, the innermost first. -/
  indents : List Nat := []
  /-- May a key start here? -/
  keyAllowed : Bool := true
  /-- The number of characters of the text. -/
  size : Nat
  /-- The first character that is held. -/
  front : Char := endChar
  /-- The number of characters of the text up to the end of what is held. -/
  held : Nat

namespace Source

/-- The number of characters that fit into the given number of bytes. -/
def fitting (bytes : Nat) : List Glyph → Nat
  | [] => 0
  | g :: gs =>
    let chars := if g.written.isEmpty then [g.char] else g.written
    let size := chars.foldl (fun n c => n + c.utf8Size) 0
    if bytes < size then 0 else chars.length + fitting (bytes - size) gs

/-- The text at its start.  Where it matters, there is a byte order mark before
    what is read, and it takes up three bytes of the first piece. -/
def ofGlyphs (gs : List Glyph) : Source :=
  { rest := gs
    size := (gs.getLast?.map Glyph.index).getD 0
    front := (gs.head?.map Glyph.char).getD endChar
    held := fitting (pieceSize - byteOrderMark.utf8Size) gs }

/-- Are there open brackets? -/
def inBrackets (s : Source) : Bool := !s.outer.isEmpty

/-- The least column at which a value of the innermost block may go on. -/
def innerColumn (s : Source) : Nat :=
  match s.indents with
  | [] => 0
  | n :: _ => n + 1

/-- The text with one more token found. -/
def push (s : Source) (t : Token) : Source := { s with found := s.found ++ [t] }

/-- The text with a token put in front of the token with the given number, or at
    the end if that one has been taken. -/
def insert (s : Source) (number : Nat) (t : Token) : Source :=
  if number < s.taken then s.push t
  else { s with found := s.found.insertIdx (number - s.taken) t }

/-- The text without a candidate in the innermost bracket. -/
def clear (s : Source) : Source := { s with level := { s.level with candidate := none } }

/-! ## Candidates -/

/-- The text without the candidate of the innermost bracket, which must not be one
    that has to become a key. -/
def dropCandidate (s : Source) : Option Source :=
  if s.level.candidate.any Candidate.required then none else some s.clear

/-- The text in which the next token is a candidate, if a key may start here. -/
def addCandidate (s : Source) : Option Source :=
  match s.keyAllowed, s.rest.head? with
  | true, some g => do
    let s ← s.dropCandidate
    let candidate : Candidate :=
      { number := s.taken + s.found.length
        required := !s.inBrackets && s.indents.head? == some g.column
        start := g }
    some { s with level := ⟨some candidate, candidate.number⟩ }
  | _, _ => some s

/-! ## Blocks -/

/-- The text with the blocks ended that are indented further than `column`. -/
def closeBlocks (column : Nat) (s : Source) : Source :=
  if s.inBrackets then s
  else
    let ended := s.indents.takeWhile fun n => decide (column < n)
    { s with
      found := s.found ++ ended.map fun _ => .blockEnd
      indents := s.indents.drop ended.length }

/-- The text with all blocks ended. -/
def closeAll (s : Source) : Source :=
  if s.inBrackets then s
  else { s with found := s.found ++ s.indents.map (fun _ => .blockEnd), indents := [] }

/-- The largest number of blocks, and of brackets, that may be open at once. -/
def maxDepth : Nat := 10000

/-- The text with a block started at a column, unless one is open there.  The
    token goes in front of the token with the given number. -/
def openBlock (column number : Nat) (t : Token) (s : Source) : Option Source :=
  if s.inBrackets || s.indents.head?.any fun n => decide (column ≤ n) then some s
  else if maxDepth ≤ s.indents.length then none
  else some { s.insert number t with indents := column :: s.indents }

/-! ## White space and comments -/

/-- The number of characters that are looked at together to find a token. -/
def outlook : Nat := 4

/-- The text when a token is looked for at its start. -/
def look (s : Source) : Source :=
  match s.rest with
  | g :: _ =>
    if s.size < g.index + outlook then { s with front := g.char }
    else if s.held < g.index + outlook then { s with front := g.char, held := s.size + outlook }
    else s
  | [] => s

/-- The text after a scalar has been read from its start up to `rest`.  Characters
    are looked at together at the start, if `fresh` says so, and after each gap;
    `last` tells if that is also done at the end of the scalar. -/
def lookAlong (rest : List Glyph) (last : Bool) : (fresh : Bool) → List Glyph → Source → Source
  | _, [], s => { s with rest }
  | fresh, g :: gs, s =>
    if rest.head?.all fun next => next.index = g.index then
      if fresh && last then { s with rest }.look else { s with rest }
    else if g.isBlank || g.isBreak then lookAlong rest last true gs s
    else lookAlong rest last false gs (if fresh then { s with rest := g :: gs }.look else s)

/-- Is the character lost that stands at the start? -/
def isLost (s : Source) (g : Glyph) : Bool :=
  s.front == byteOrderMark && g.column == 0 && !g.isEnd && decide (g.index < s.held)

/-- The characters with the first line moved to the right by one column. -/
def shiftLine : List Glyph → List Glyph
  | [] => []
  | g :: gs => { g with column := g.column + 1 } :: if g.isBreak then gs else shiftLine gs

/-- How far a comment is looked for after another one, in bytes. -/
def commentReach : Nat := 512

/-- Where comments end that have been started.  After the end of a comment, another
    one is looked for behind blanks, tabs and line breaks in ASCII; `ahead` says how
    far from the end, and what follows the comment if there is none. -/
def afterComments : (ahead : Option (Nat × List Glyph)) → List Glyph → List Glyph
  | none, [] => []
  | some (_, back), [] => back
  | none, g :: gs =>
    if g.isEnd then g :: gs
    else if !g.isBreak then afterComments none gs
    else if g.isPlainBreak then afterComments (some (g.written.length, g :: gs)) gs
    else g :: gs
  | some (offset, back), g :: gs =>
    if commentReach ≤ offset then back
    else if g.char = '#' then afterComments none gs
    else if g.isBlank then afterComments (some (offset + 1, back)) gs
    else if g.isPlainBreak then afterComments (some (offset + g.written.length, back)) gs
    else back

/-- The text without the white space and comments in front of the next token.
    Where a key may start, a tab is no white space.  A lost line break does not
    end a line, unless it is written with two characters, of which only one is
    lost.  `limit` bounds the number of steps. -/
def skipGapsFor : (limit : Nat) → Source → Source
  | 0, s => s
  | limit + 1, s =>
    match s.rest with
    | [] => s
    | g :: gs =>
      if s.isLost g && !g.isPair then
        skipGapsFor limit { s with rest := if g.isBreak then shiftLine gs else gs }
      else if g.char = ' ' || (g.char = '\t' && (s.inBrackets || !s.keyAllowed)) then
        skipGapsFor limit { s with rest := gs }
      else if g.char = '#' then skipGapsFor limit { s with rest := afterComments none gs }
      else if g.isBreak then
        skipGapsFor limit { s with rest := gs, keyAllowed := s.keyAllowed || !s.inBrackets }
      else s

/-- The text without the white space and comments in front of the next token. -/
def skipGaps (s : Source) : Source := skipGapsFor (s.size + 1) s

/-- The text without a comment on the line of the token before. -/
def skipComment (s : Source) : Source :=
  let (blanks, rest) := s.rest.span Glyph.isBlank
  if rest.head?.any (fun g => g.char == '#') && decide (blanks.length < commentReach) then
    { s with rest := rest.dropWhile (!·.endsLine) }
  else s

/-! ## Tokens -/

/-- Takes the first `n` characters. -/
def advance (n : Nat) (s : Source) : Source := { s with rest := s.rest.drop n }

/-- The end of the text. -/
def endStream (s : Source) : Option Source := do
  let s ← s.closeAll.dropCandidate
  some ({ s with keyAllowed := false }.push .streamEnd)

/-- A line that parts documents. -/
def marker (t : Token) (s : Source) : Option Source := do
  let s ← s.closeAll.dropCandidate
  some (({ s with keyAllowed := false }.push t).advance 3)

/-- A directive, which takes up its line. -/
def directive (s : Source) : Option Source := do
  let s ← s.closeAll.dropCandidate
  let (line, rest) := (s.rest.drop 1).span fun g => !g.endsLine
  let d ← Directive.ofLine? (line.map Glyph.char)
  let rest := if rest.head?.any Glyph.isBreak then rest.drop 1 else rest
  some ({ s with keyAllowed := false, rest }.push (.directive d))

/-- An opening bracket. -/
def opening (t : Token) (s : Source) : Option Source := do
  let s ← s.addCandidate
  if maxDepth ≤ s.outer.length then none
  some (({ s with
    level := ⟨none, s.taken + s.found.length⟩
    outer := s.level :: s.outer
    keyAllowed := true }.push t).advance 1)

/-- A closing bracket. -/
def closing (t : Token) (s : Source) : Option Source := do
  let s ← s.dropCandidate
  let s := match s.outer with
    | [] => s
    | l :: outer => { s with level := l.afterBracket s.level, outer }
  some (({ s with keyAllowed := false }.push t).advance 1)

/-- A comma. -/
def comma (s : Source) : Option Source := do
  let s ← s.dropCandidate
  some (({ s with keyAllowed := true }.push .comma).advance 1)

/-- The text with a block opened by the sign at its start, where that sign may
    stand. -/
def openAt (g : Glyph) (t : Token) (s : Source) : Option Source :=
  if s.inBrackets then some s
  else if !s.keyAllowed then none
  else s.openBlock g.column (s.taken + s.found.length) t

/-- A dash. -/
def dash (g : Glyph) (s : Source) : Option Source := do
  let s ← s.openAt g .blockList
  let s ← s.dropCandidate
  some (({ s with keyAllowed := true }.push .dash).advance 1)

/-- A question mark, which starts a key. -/
def questionMark (g : Glyph) (s : Source) : Option Source := do
  let s ← s.openAt g .blockMap
  let s ← s.dropCandidate
  some (({ s with keyAllowed := !s.inBrackets }.push .key).advance 1)

/-- A colon.  It makes the candidate a key, if there is one. -/
def colon (g : Glyph) (s : Source) : Option Source := do
  let candidate := s.level.candidate
  let usable ← match candidate with
    | some c => c.isOpen (some g)
    | none => some false
  match usable, candidate with
  | true, some c =>
    let s := s.insert c.number .key
    let s ← s.openBlock c.start.column c.number .blockMap
    some (({ s.clear with keyAllowed := false }.push .value).advance 1)
  | _, _ =>
    let s ← s.openAt g .blockMap
    some (({ s.clear with keyAllowed := !s.inBrackets }.push .value).advance 1)

/-- A name after the sign of an anchor or a reference. -/
def named (t : String → Token) (s : Source) : Option Source := do
  let s ← s.addCandidate
  let (name, rest) := (s.rest.drop 1).span fun g => isWordChar g.char
  let follows (g : Glyph) : Bool :=
    g.endsWord || ['?', ':', ',', ']', '}', '%', '@', Char.ofNat 0x60].contains g.char
  if name.isEmpty || !rest.head?.all follows then none
  else some ({ s with keyAllowed := false, rest }.push (t (String.ofList (name.map Glyph.char))))

/-- A tag. -/
def tag (s : Source) : Option Source := do
  let s ← s.addCandidate
  let (text, rest) := s.rest.span fun g => !g.endsWord
  let t ← Tag.ofText? (text.map Glyph.char)
  some ({ s with keyAllowed := false, rest }.push (.tag t))

/-- A quoted scalar. -/
def quoted (read : List Glyph → Option (List Char × List Glyph)) (s : Source) :
    Option Source := do
  let s ← s.addCandidate
  let (text, rest) ← read (s.rest.drop 1)
  let s := s.lookAlong rest false true (s.rest.drop 1)
  some ({ s with keyAllowed := false }.push (.scalar (String.ofList text) false)).skipComment

/-- A plain scalar. -/
def plainScalar (s : Source) : Option Source := do
  let s ← s.addCandidate
  let (text, broken, rest) ← plain s.inBrackets s.innerColumn {} s.rest
  let goesOn := s.inBrackets || rest.head?.any fun g => decide (s.innerColumn ≤ g.column)
  let s := s.lookAlong rest goesOn true s.rest
  let s := { s with keyAllowed := broken }.push (.scalar (String.ofList text) true)
  some (if broken then s else s.skipComment)

/-- A block scalar. -/
def blockText (folded : Bool) (s : Source) : Option Source := do
  let s ← s.dropCandidate
  let (text, rest) ← blockScalar folded s.innerColumn (s.rest.drop 1)
  some ({ s with keyAllowed := true, rest }.push (.scalar (String.ofList text) false))

/-- The characters with a meaning of their own, with which no plain scalar starts. -/
def reserved : List Char :=
  [',', '[', ']', '{', '}', '#', '&', '*', '!', '|', '>', '\'', '"', '%', '@', Char.ofNat 0x60]

/-- May a plain scalar start with the character? -/
def startsPlain (brackets : Bool) (g : Glyph) (next : Option Glyph) : Bool :=
  if g.char = '-' then !next.any Glyph.isBlank
  else if g.char = '?' || g.char = ':' then !brackets && !next.all Glyph.endsWord
  else !g.endsWord && !reserved.contains g.char

/-- One more token, at least. -/
def read (s : Source) : Option Source :=
  let s := s.skipGaps.look
  match s.rest with
  | [] => s.endStream
  | g :: gs =>
    let s := s.closeBlocks g.column
    let alone := s.inBrackets || gs.head?.all Glyph.endsWord
    if g.isEnd then s.endStream
    else if g.column = 0 && g.char = '%' then s.directive
    else if isMarker '-' (g :: gs) then s.marker .documentStart
    else if isMarker '.' (g :: gs) then s.marker .documentEnd
    else
      match g.char with
      | '[' => (s.opening .listOpen).map skipComment
      | '{' => (s.opening .mapOpen).map skipComment
      | ']' => (s.closing .listClose).map skipComment
      | '}' => (s.closing .mapClose).map skipComment
      | ',' => s.comma.map skipComment
      | '*' => (s.named .reference).map skipComment
      | '&' => (s.named .anchor).map skipComment
      | '!' => s.tag.map skipComment
      | '\'' => s.quoted (single {})
      | '"' => s.quoted (double (.gap {}))
      | c =>
        if c = '-' && gs.head?.all Glyph.endsWord then s.dash g
        else if c = '?' && alone then (s.questionMark g).map skipComment
        else if c = ':' && alone then (s.colon g).map skipComment
        else if (c = '|' || c = '>') && !s.inBrackets then s.blockText (c == '>')
        else if startsPlain s.inBrackets g gs.head? then s.plainScalar
        else none

/-! ## Taking tokens

The next token is known once the two tokens after it have been found and it is
no candidate any more. -/

/-- Is the next token known? -/
def isKnown (s : Source) : Option Bool :=
  if s.found.length < 3 then some false
  else
    let isNext (c : Candidate) : Bool := c.awaited && decide (c.number = s.taken)
    match (s.level :: s.outer).findSome? fun l => l.candidate.filter isNext with
    | some c => (c.isOpen s.rest.head?).map (!·)
    | none => some true

/-- The text read until the next token is known; `limit` bounds the number of
    tokens read. -/
def settle : (limit : Nat) → Source → Option Source
  | 0, _ => none
  | limit + 1, s =>
    match s.isKnown with
    | none => none
    | some true => some s
    | some false => s.read.bind (settle limit)

end Source

end Codegen.Yaml
