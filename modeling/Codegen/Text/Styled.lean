/-
  Text with control sequences.

  An escape character starts a control sequence.  A sequence whose first
  bracket is `[` ends with the letter `m`, one whose first bracket is `]` with
  a backslash; a link, which starts with `]8;`, ends with a bell or with an
  escape character and a backslash.  Control sequences take no columns.

  The numbers in a control sequence are styles that it begins or ends; `Styles`
  are the styles in force.
-/
import Codegen.Text.Blank
import Codegen.Text.Numeral
import Codegen.Text.Width

namespace Codegen.Text

/-- The character that starts a control sequence. -/
def escapeChar : Char := Char.ofNat 27

/-- The character that may end a link. -/
def bellChar : Char := Char.ofNat 7

/-- The start of a link. -/
def linkStart : List Char := [escapeChar, ']', '8', ';']

/-- Does the last character of the sequence end it? -/
def endsSequence (sequence : List Char) : Bool :=
  if linkStart.isPrefixOf sequence then
    [escapeChar, '\\'].isSuffixOf sequence || sequence.getLast? == some bellChar
  else
    match sequence.find? fun c => c == '[' || c == ']' with
    | some '[' => sequence.getLast? == some 'm'
    | some _ => sequence.getLast? == some '\\'
    | none => false

/-- The control sequence that is open after one more character, if `current` is
    the one open before it. -/
def openSequence (current : Option (List Char)) (c : Char) : Option (List Char) :=
  match current with
  | some sequence =>
    let longer := sequence ++ [c]
    if endsSequence longer then none else some longer
  | none => if c = escapeChar then some [c] else none

/-- The number of columns that a text takes; `current` is the control sequence
    open at its start. -/
def widthAfter (current : Option (List Char)) : List Char → Nat
  | [] => 0
  | c :: cs =>
    let next := openSequence current c
    (if current.isNone && next.isNone then charWidth c else 0) + widthAfter next cs

/-- The number of columns that a text takes. -/
def width (cs : List Char) : Nat := widthAfter none cs

/-- The number of columns that the widest line of a text takes.  A line break
    inside a control sequence is part of it and ends no line.  `line` is the
    width of the current line, `widest` that of the widest line before it. -/
def widestLineAfter (current : Option (List Char)) (line widest : Nat) : List Char → Nat
  | [] => max line widest
  | c :: cs =>
    if current.isNone && c = '\n' then widestLineAfter none 0 (max line widest) cs
    else
      let next := openSequence current c
      let line := if current.isNone && next.isNone then line + charWidth c else line
      widestLineAfter next line widest cs

/-- The number of columns that the widest line of a text takes. -/
def widestLine (cs : List Char) : Nat := widestLineAfter none 0 0 cs

/-! ## Styles -/

/-- The text cut at a character. -/
def splitAtChar (sep : Char) : List Char → List (List Char)
  | [] => [[]]
  | c :: cs =>
    if c = sep then [] :: splitAtChar sep cs
    else
      match splitAtChar sep cs with
      | [] => [[c]]
      | line :: lines => (c :: line) :: lines

/-- The text without the first occurrence of `part`. -/
def dropFirst (part : List Char) : List Char → List Char
  | [] => []
  | c :: cs =>
    if part.isPrefixOf (c :: cs) then (c :: cs).drop part.length else c :: dropFirst part cs

/-- The numbers in a control sequence: what stands between its start, its end and
    the semicolons in it, where that is a number. -/
def sequenceCodes (sequence : List Char) : List Int :=
  let inner := match sequence.find? fun c => c == '[' || c == ']' with
    | some ']' => dropFirst ['\\'] (dropFirst [escapeChar, ']'] sequence)
    | _ => dropFirst ['m'] (dropFirst [escapeChar, '['] sequence)
  (splitAtChar ';' inner).filterMap fun code => decimal? (String.ofList (trimChars code))

/-- The styles in force, by number and in increasing order. -/
abbrev Styles := List Int

namespace Styles

/-- The styles that a number ends; most numbers end none. -/
def endedBy (code : Int) : List Int :=
  if code = 22 then [1, 2]
  else if code = 23 then [3]
  else if code = 24 then [4]
  else if code = 25 then [5, 6]
  else if code = 27 then [7]
  else if code = 29 then [9]
  else []

/-- The styles with one more. -/
def add (code : Int) : Styles → Styles
  | [] => [code]
  | s :: ss => if code < s then code :: s :: ss else if code = s then s :: ss else s :: add code ss

/-- The styles after one more number.  Zero ends all styles. -/
def next (styles : Styles) (code : Int) : Styles :=
  if code = 0 then []
  else if (endedBy code).isEmpty then add code styles
  else styles.filter fun s => !(endedBy code).contains s

/-- The styles after a text; `current` is the control sequence open at its start.
    A sequence that is not ended does not count. -/
def after (styles : Styles) (current : Option (List Char)) : List Char → Styles
  | [] => styles
  | c :: cs =>
    match current, openSequence current c with
    | _, some sequence => after styles (some sequence) cs
    | some sequence, none => after ((sequenceCodes (sequence ++ [c])).foldl next styles) none cs
    | none, none => after styles none cs

/-- The control sequence that begins the styles. -/
def sequence (styles : Styles) : List Char :=
  if styles.isEmpty then []
  else
    [escapeChar, '['] ++ List.intercalate [';'] (styles.map fun s => (toString s).toList) ++ ['m']

end Styles

/-- The sequence that ends all styles. -/
def resetStyle : List Char := escapeChar :: ['[', '0', 'm']

end Codegen.Text
