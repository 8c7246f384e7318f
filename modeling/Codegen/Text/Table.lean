/-
  Boxed tables.

  Every column is as wide as the widest line of its cells, with one blank on
  either side.  A cell of several lines makes its row several lines high.  The
  header is in upper case.  A title, if there is one, stands above the header
  and is wrapped to the width of the table:

      +---------------------+
      | Allocation@sum      |
      +----------+----------+
      | REGISTER | PHYSICAL |
      +----------+----------+
      | %v1      | rbx      |
      +----------+----------+
-/
import Codegen.Text.Template
import Codegen.Text.Wrap

namespace Codegen.Text

/-- The side of a column at which its cells stand. -/
inductive Align where
  | left | right
  deriving DecidableEq, Repr

/-- The text, without the blanks at its open side, filled up with blanks to a
    width. -/
def pad (a : Align) (columns : Nat) (cs : List Char) : List Char :=
  match a with
  | .left =>
    let cs := (cs.reverse.dropWhile (· == ' ')).reverse
    cs ++ List.replicate (columns - width cs) ' '
  | .right =>
    let cs := cs.dropWhile (· == ' ')
    List.replicate (columns - width cs) ' ' ++ cs

/-- A line in which each carriage return goes back to the start, so that what
    follows is written over what stands there.  `ahead` is what stands from the
    current place on, `behind` what stands before it, the latest first. -/
def overwrite (behind ahead : List Char) : List Char → List Char
  | [] => behind.reverse ++ ahead
  | c :: cs =>
    if c = '\r' then overwrite [] (behind.reverse ++ ahead) cs
    else overwrite (c :: behind) (ahead.drop 1) cs

/-- The text with the carriage return dropped in front of each line break. -/
def dropReturns : List Char → List Char
  | '\r' :: '\n' :: cs => '\n' :: dropReturns cs
  | c :: cs => c :: dropReturns cs
  | [] => []

/-- The text of a cell, without tabs and carriage returns. -/
def cellText (cell : String) : List Char :=
  List.intercalate ['\n']
    ((splitAtChar '\n' (dropReturns (expandTabs cell.toList))).map (overwrite [] []))

/-- A table with named columns.  The title is a template without arguments. -/
structure Table where
  title : Option String := none
  columns : List (String × Align)
  rows : List (List String)

namespace Table

/-- The header. -/
def header (t : Table) : List String := t.columns.map fun c => c.1.toUpper

/-- The width of a cell. -/
def cellWidth (cell : String) : Nat := widestLine (cellText cell)

/-- The widths of the columns. -/
def widths (t : Table) : List Nat :=
  t.rows.foldl (fun ws row => List.zipWith (fun w cell => max w (cellWidth cell)) ws row)
    (t.header.map cellWidth)

/-- The line between the parts of a table. -/
def rule (widths : List Nat) : List Char :=
  '+' :: widths.flatMap fun w => List.replicate (w + 2) '-' ++ ['+']

/-- One line of a row. -/
def line (t : Table) (widths : List Nat) (cells : List (List Char)) : List Char :=
  let padded := List.zipWith (fun (a, w) cell => pad a w cell)
    ((t.columns.map (·.2)).zip widths) cells
  ['|', ' '] ++ List.intercalate [' ', '|', ' '] padded ++ [' ', '|']

/-- The lines of a row. -/
def rowLines (t : Table) (widths : List Nat) (row : List String) : List (List Char) :=
  let cells := row.map fun cell => splitAtChar '\n' (cellText cell)
  let height := cells.foldl (fun h ls => max h ls.length) 1
  (List.range height).map fun k => t.line widths (cells.map fun ls => ls.getD k [])

/-- The lines of the title, with the line above them. -/
def titleLines (widths : List Nat) (title : String) : List (List Char) :=
  let inner := widths.foldr (fun w n => w + 3 + n) 0 - 3
  let lines := wrap inner (Template.fill title).toList
  rule [inner] :: lines.map fun l => ['|', ' '] ++ pad .left inner (trimChars l) ++ [' ', '|']

/-- The table as text, without a final line break. -/
def render (t : Table) : String :=
  let ws := t.widths
  let title := match t.title with
    | none => []
    | some s => titleLines ws s
  let lines := title ++ [rule ws] ++ t.rowLines ws t.header ++ [rule ws] ++
    t.rows.flatMap (t.rowLines ws) ++ [rule ws]
  String.ofList (List.intercalate ['\n'] lines)

end Table

end Codegen.Text
