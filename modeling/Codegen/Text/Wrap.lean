/-
  Text wrapped to a width.

  Text that fits is left as it is, with tabs turned into four blanks.  Any
  other text is wrapped line by line: its words are set with one blank between
  them, and a word that does not fit into the rest of a line is broken where
  the line is full.  A line is full when it is exactly as wide as asked; a wide
  character may step over that mark, and the line then goes on.

  Styles in force where a line is broken are ended there and begun again on the
  next line.
-/
import Codegen.Text.Blank
import Codegen.Text.Styled

namespace Codegen.Text

/-- The text with four blanks for each tab. -/
def expandTabs (cs : List Char) : List Char :=
  cs.flatMap fun c => if c = '\t' then [' ', ' ', ' ', ' '] else [c]

/-- The words of a text: what stands between white space. -/
def words (cs : List Char) : List (List Char) :=
  (go cs).filter fun w => !w.isEmpty
where
  go : List Char → List (List Char)
    | [] => [[]]
    | c :: cs =>
      if isBlank c then [] :: go cs
      else
        match go cs with
        | [] => [[c]]
        | w :: ws => (c :: w) :: ws

/-- Lines being filled. -/
structure Wrapping where
  /-- The finished lines, the latest first. -/
  finished : List (List Char) := []
  /-- The current line. -/
  line : List Char := []
  /-- The columns taken on the current line. -/
  column : Nat := 0

namespace Wrapping

/-- Starts a new line in the given style. -/
def newLine (style : List Char) (w : Wrapping) : Wrapping :=
  let ended := if style.isEmpty then w.line else w.line ++ resetStyle
  { finished := ended :: w.finished, line := style, column := 0 }

/-- Adds a character; one that is part of a control sequence takes no columns. -/
def addChar (limit : Nat) (style : List Char) (control : Bool) (c : Char) (w : Wrapping) :
    Wrapping :=
  let w := if w.column = limit && !control then w.newLine style else w
  { w with line := w.line ++ [c], column := if control then w.column else w.column + charWidth c }

/-- Adds a word character by character.  `style` is the control sequence that a new
    line starts with, `control` tells if a control sequence is being read; here
    any control sequence goes on up to the letter `m`, and is then the one that a
    new line starts with. -/
def addBroken (limit : Nat) (style : List Char) (control : Bool) (w : Wrapping) :
    List Char → Wrapping
  | [] => w
  | c :: cs =>
    let control := control || c == escapeChar
    let style := if c = escapeChar then [c] else if control then style ++ [c] else style
    let w := w.addChar limit style control c
    addBroken limit (if style = resetStyle then [] else style) (control && c != 'm') w cs

end Wrapping

/-- Adds the words of a line.  `styles` are in force, and `style` is the control
    sequence that began the styles when there were some last. -/
def addWords (limit : Nat) (styles : Styles) (style : List Char) (w : Wrapping) :
    List (List Char) → Wrapping
  | [] =>
    if style.isEmpty || resetStyle.isSuffixOf w.line then w
    else { w with line := w.line ++ resetStyle }
  | word :: rest =>
    let styles := styles.after none word
    let style := if styles.isEmpty then style else styles.sequence
    let w := if 0 < w.column then { w with line := w.line ++ [' '], column := w.column + 1 } else w
    let w := if w.column + width word ≤ limit then
        { w with line := w.line ++ word, column := w.column + width word }
      else w.addBroken limit style false word
    addWords limit styles style (if w.column = limit && !rest.isEmpty then w.newLine style else w)
      rest

/-- The lines of one line wrapped to a width. -/
def wrapLine (limit : Nat) (line : List Char) : List (List Char) :=
  let w := addWords limit [] [] {} (words line)
  (w.line :: w.finished).reverse

/-- The lines of a text wrapped to a width. -/
def wrap (limit : Nat) (text : List Char) : List (List Char) :=
  let lines := splitAtChar '\n' (expandTabs text)
  if width (expandTabs text) ≤ limit then lines else lines.flatMap (wrapLine limit)

end Codegen.Text
