/-
  Templates.

  In a template a percent sign starts a directive: flags, a width, a precision
  and a letter that says how to write an argument, where width, precision and
  argument may be chosen by an index in brackets or a star.  `fill` writes a
  template for which there are no arguments: `%%` is a percent sign, and any
  other directive is replaced by a note of what it lacks.
-/

namespace Codegen.Text.Template

/-- The characters that may follow the percent sign as flags. -/
def isFlag (c : Char) : Bool := ['#', '0', '+', '-', ' '].contains c

/-- The greatest number that a further digit may follow. -/
def maxNumber : Nat := 1000000

/-- Digits are read on, unless the number has become too large. -/
def readDigits (value : Nat) : List Char → Option (Nat × List Char)
  | [] => some (value, [])
  | c :: cs =>
    if !c.isDigit then some (value, c :: cs)
    else if maxNumber < value then none
    else readDigits (value * 10 + (c.toNat - 48)) cs

/-- Is there a number, and what follows it?  A number that is too large takes up
    the rest of the template. -/
def number (cs : List Char) : Bool × List Char :=
  match readDigits 0 cs with
  | none => (false, [])
  | some (_, rest) => (decide (rest.length < cs.length), rest)

/-- What has been read of a directive. -/
structure Directive where
  /-- Notes on what it lacks. -/
  notes : List Char := []
  /-- Is no index out of place? -/
  good : Bool := true
  /-- Was an index read last? -/
  indexed : Bool := false

/-- Reads an index in brackets, if there is one.  Without arguments no index is
    in place. -/
def index (d : Directive) : List Char → Directive × List Char
  | '[' :: cs =>
    let inside := cs.takeWhile (· != ']')
    if cs = [']'] || inside.length = cs.length then ({ d with good := false, indexed := false }, cs)
    else
      let proper := match number inside with
        | (given, rest) => given && rest.isEmpty
      ({ d with good := false, indexed := proper }, cs.drop (inside.length + 1))
  | cs => ({ d with indexed := false }, cs)

/-- Reads the width. -/
def readWidth (d : Directive) : List Char → Directive × List Char
  | '*' :: cs => ({ d with notes := d.notes ++ "%!(BADWIDTH)".toList, indexed := false }, cs)
  | cs =>
    let (given, rest) := number cs
    ({ d with good := d.good && !(d.indexed && given) }, rest)

/-- Reads the precision, if there is one.  A point at the end of the template
    starts none. -/
def readPrecision (d : Directive) : List Char → Directive × List Char
  | ['.'] => (d, ['.'])
  | '.' :: cs =>
    match index { d with good := d.good && !d.indexed } cs with
    | (d, '*' :: cs) => ({ d with notes := d.notes ++ "%!(BADPREC)".toList, indexed := false }, cs)
    | (d, cs) => (d, (number cs).2)
  | cs => (d, cs)

/-- What stands for a directive, and what follows it. -/
def directive (cs : List Char) : List Char × List Char :=
  let (d, cs) := index {} (cs.dropWhile isFlag)
  let (d, cs) := readWidth d cs
  let (d, cs) := readPrecision d cs
  let (d, cs) := if d.indexed then (d, cs) else index d cs
  match cs with
  | [] => (d.notes ++ "%!(NOVERB)".toList, [])
  | '%' :: cs => (d.notes ++ ['%'], cs)
  | c :: cs =>
    (d.notes ++ "%!".toList ++ c :: (if d.good then "(MISSING)" else "(BADINDEX)").toList, cs)

/-- At most `limit` characters and directives of a template, written without
    arguments. -/
def fillUpTo : (limit : Nat) → List Char → List Char
  | 0, _ | _, [] => []
  | limit + 1, '%' :: cs =>
    let (text, rest) := directive cs
    text ++ fillUpTo limit rest
  | limit + 1, c :: cs => c :: fillUpTo limit cs

/-- A template written without arguments. -/
def fill (template : String) : String :=
  String.ofList (fillUpTo template.length template.toList)

end Codegen.Text.Template
