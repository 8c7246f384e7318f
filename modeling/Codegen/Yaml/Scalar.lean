/-
  YAML scalars: plain, quoted and block text.

  Each function reads a scalar from the characters at its start and gives its
  text and the characters after it.

  Inside plain and quoted scalars a line break is folded: one break becomes a
  blank, and of several breaks the first one is dropped.  White space around a
  break is dropped.
-/
import Codegen.Text.Numeral
import Codegen.Yaml.Glyph

namespace Codegen.Yaml

/-- White space inside a scalar that has not been written yet. -/
structure Gap where
  /-- Blanks before the first break. -/
  blanks : List Char := []
  /-- The first break. -/
  first : Option Char := none
  /-- The other breaks. -/
  others : List Char := []
  /-- Does the line end here without a break being written? -/
  joined : Bool := false

namespace Gap

/-- Is there a line break in it? -/
def broken (g : Gap) : Bool := g.joined || g.first.isSome

/-- The gap with one more character of white space. -/
def add (g : Gap) (c : Glyph) : Gap :=
  if c.isBreak then
    if g.broken then { g with others := g.others ++ [c.char] }
    else { g with blanks := [], first := some c.char }
  else if g.broken then g
  else { g with blanks := g.blanks ++ [c.char] }

/-- What a gap is written as. -/
def text (g : Gap) : List Char :=
  match g.first with
  | none => if g.joined then g.others else g.blanks
  | some c =>
    if c ≠ '\n' then c :: g.others
    else if g.others.isEmpty then [' '] else g.others

end Gap

/-! ## Quoted scalars -/

/-- The rest of a single-quoted scalar: two quotes stand for one. -/
def single (gap : Gap) : List Glyph → Option (List Char × List Glyph)
  | [] => none
  | g :: gs =>
    if partsDocuments (g :: gs) || g.isEnd then none
    else if g.isBlank || g.isBreak then single (gap.add g) gs
    else if g.char = '\'' then
      match gs with
      | q :: rest =>
        if q.char = '\'' then (single {} rest).map fun (s, r) => (gap.text ++ '\'' :: s, r)
        else some (gap.text, gs)
      | [] => some (gap.text, [])
    else (single {} gs).map fun (s, r) => (gap.text ++ g.char :: s, r)

/-- The character of a letter after a backslash. -/
def escape? : Char → Option Char
  | '0' => some (Char.ofNat 0)
  | 'a' => some (Char.ofNat 7)
  | 'b' => some (Char.ofNat 8)
  | 't' | '\t' => some '\t'
  | 'n' => some '\n'
  | 'v' => some (Char.ofNat 11)
  | 'f' => some (Char.ofNat 12)
  | 'r' => some '\r'
  | 'e' => some (Char.ofNat 27)
  | ' ' => some ' '
  | '"' => some '"'
  | '\'' => some '\''
  | '\\' => some '\\'
  | 'N' => some (Char.ofNat 0x85)
  | '_' => some (Char.ofNat 0xa0)
  | 'L' => some (Char.ofNat 0x2028)
  | 'P' => some (Char.ofNat 0x2029)
  | _ => none

/-- The number of hexadecimal digits after a letter. -/
def codeLength : Char → Option Nat
  | 'x' => some 2
  | 'u' => some 4
  | 'U' => some 8
  | _ => none

/-- The character of hexadecimal digits. -/
def codeChar? (digits : List Char) : Option Char := do
  let n ← Text.natural? 16 digits
  if n.isValidChar then some (Char.ofNat n) else none

/-- What the reader of a double-quoted scalar is in the middle of. -/
inductive Reading where
  /-- White space that has not been written yet. -/
  | gap (gap : Gap)
  /-- A backslash was read. -/
  | escape
  /-- Digits of a character code, of which `missing` are to come. -/
  | code (missing : Nat) (digits : List Char)

/-- The rest of a double-quoted scalar. -/
def double (state : Reading) : List Glyph → Option (List Char × List Glyph)
  | [] => none
  | g :: gs =>
    match state with
    | .gap gap =>
      if partsDocuments (g :: gs) || g.isEnd then none
      else if g.isBlank || g.isBreak then double (.gap (gap.add g)) gs
      else if g.char = '"' then some (gap.text, gs)
      else if g.char = '\\' then (double .escape gs).map fun (s, r) => (gap.text ++ s, r)
      else (double (.gap {}) gs).map fun (s, r) => (gap.text ++ g.char :: s, r)
    | .escape =>
      if g.isBreak then double (.gap { joined := true }) gs
      else
        match codeLength g.char with
        | some n => double (.code n []) gs
        | none =>
          match escape? g.char, double (.gap {}) gs with
          | some c, some (s, r) => some (c :: s, r)
          | _, _ => none
    | .code missing digits =>
      let digits := digits ++ [g.char]
      if 1 < missing then double (.code (missing - 1) digits) gs
      else
        match codeChar? digits, double (.gap {}) gs with
        | some c, some (s, r) => some (c :: s, r)
        | _, _ => none

/-! ## Plain scalars -/

/-- Does a plain scalar end at this character, which is no white space? -/
def endsPlain (flow : Bool) (g : Glyph) (next : Option Glyph) : Bool :=
  (g.char == ':' && next.all Glyph.endsWord) ||
    (flow && [',', '?', '[', ']', '{', '}'].contains g.char)

/-- A plain scalar: its text, whether a line break was passed at its end, and the
    characters after it.  `flow` tells if it stands in brackets, and `indent` is
    the least column of its further lines otherwise.  No tab may stand before
    that column. -/
def plain (flow : Bool) (indent : Nat) (gap : Gap) : List Glyph →
    Option (List Char × Bool × List Glyph)
  | [] => some ([], gap.broken, [])
  | g :: gs =>
    if g.isBlank || g.isBreak then
      if g.char = '\t' && gap.broken && decide (g.column < indent) then none
      else plain flow indent (gap.add g) gs
    else
      let fresh := !gap.blanks.isEmpty || gap.broken
      if g.isEnd || endsPlain flow g gs.head? || (fresh && g.char == '#') ||
          (gap.broken && (partsDocuments (g :: gs) || (!flow && decide (g.column < indent)))) then
        some ([], gap.broken, g :: gs)
      else
        (plain flow indent {} gs).map fun (s, broken, r) => (gap.text ++ g.char :: s, broken, r)

/-! ## Block scalars -/

/-- How the end of a block scalar is written. -/
inductive Chomping where
  /-- With one line break. -/
  | clip
  /-- Without line breaks. -/
  | strip
  /-- With all its line breaks. -/
  | keep
  deriving DecidableEq, Repr

/-- The marks after the sign of a block scalar: how it ends, and how far its
    lines are indented, if that is said.  The marks may stand in any order. -/
def blockMarks (gs : List Glyph) : Option (Chomping × Option Nat × List Glyph) :=
  let (end₁, gs) := chomping gs
  match increment gs with
  | none => none
  | some (n, gs) =>
    match end₁ with
    | some c => some (c, n, gs)
    | none =>
      let (end₂, gs) := if n.isSome then chomping gs else (none, gs)
      some (end₂.getD .clip, n, gs)
where
  chomping : List Glyph → Option Chomping × List Glyph
    | g :: gs =>
      if g.char = '+' then (some .keep, gs) else if g.char = '-' then (some .strip, gs)
      else (none, g :: gs)
    | [] => (none, [])
  increment : List Glyph → Option (Option Nat × List Glyph)
    | g :: gs =>
      if g.char = '0' then none
      else if g.char.isDigit then some (some (g.char.toNat - 48), gs)
      else some (none, g :: gs)
    | [] => some (none, [])

/-- The blank lines at the start: their breaks, the greatest column reached, and
    the characters after them.  At most `indent` blanks are passed on a line, if
    it is given, and no tab may stand there. -/
def blankLines (indent : Option Nat) (reached : Nat) : List Glyph →
    Option (List Char × Nat × List Glyph)
  | [] => some ([], reached, [])
  | g :: gs =>
    let inside := indent.all fun n => decide (g.column < n)
    let reached := max reached g.column
    if g.char = ' ' && inside then blankLines indent reached gs
    else if g.char = '\t' && inside then none
    else if g.isBreak then
      (blankLines indent reached gs).map fun (breaks, n, r) => (g.char :: breaks, n, r)
    else some ([], reached, g :: gs)

/-- The characters up to the end of the line, the break at its end, and what
    follows. -/
def restOfLine : List Glyph → List Char × Option Char × List Glyph
  | [] => ([], none, [])
  | g :: gs =>
    if g.isEnd then ([], none, g :: gs)
    else if g.isBreak then ([], some g.char, gs)
    else
      let (s, b, r) := restOfLine gs
      (g.char :: s, b, r)

/-- The lines of a block scalar, indented by `indent`.  `last` is the break after
    the line before, `blanks` the breaks of blank lines since, and `spaced` tells
    if the line before started with a blank. -/
def blockLines (folded : Bool) (chomping : Chomping) (indent : Nat) : (limit : Nat) →
    (last : Option Char) → (blanks : List Char) → (spaced : Bool) → List Glyph →
    Option (List Char × List Glyph)
  | 0, _, _, _, _ => none
  | limit + 1, last, blanks, spaced, gs =>
    let start := gs.head?.filter fun g => decide (g.column = indent) && !g.isEnd
    match start with
    | none =>
      some ((if chomping = .strip then [] else last.toList) ++
        (if chomping = .keep then blanks else []), gs)
    | some g => do
      let fold := folded && !spaced && !g.isBlank && last == some '\n'
      let lead := if !fold then last.toList else if blanks.isEmpty then [' '] else []
      let (s, next, rest) := restOfLine gs
      let (breaks, _, rest) ← blankLines (some indent) 0 rest
      let (others, rest) ← blockLines folded chomping indent limit next breaks g.isBlank rest
      some (lead ++ blanks ++ s ++ others, rest)

/-- A block scalar after its sign, in a block whose lines are indented by at least
    `base`. -/
def blockScalar (folded : Bool) (base : Nat) (gs : List Glyph) :
    Option (List Char × List Glyph) := do
  let (chomping, increment, gs) ← blockMarks gs
  let gs := gs.dropWhile Glyph.isBlank
  let gs := if (gs.head?.map Glyph.char) = some '#' then gs.dropWhile (!·.endsLine) else gs
  if !gs.head?.all Glyph.endsLine then none
  else
    let gs := if gs.head?.any Glyph.isBreak then gs.drop 1 else gs
    let indent := increment.map fun n => base - 1 + n
    let (breaks, reached, rest) ← blankLines indent 0 gs
    blockLines folded chomping (indent.getD (max (max reached base) 1)) (gs.length + 1) none breaks
      false rest

end Codegen.Yaml
