/-
  YAML tags and directives.

  A tag is written with a handle, which stands for the first part of the tag, or
  in full between angle brackets.  The lines in front of a document that start
  with a percent sign are its directives: they name the version of the language
  or say what a handle stands for.
-/
import Codegen.Text.Numeral

namespace Codegen.Yaml

/-- A letter, a digit, an underscore or a hyphen. -/
def isWordChar (c : Char) : Bool := c.isAlphanum || c == '_' || c == '-'

/-- The characters that stand for themselves in a tag. -/
def isTagChar (c : Char) : Bool :=
  isWordChar c || [';', '/', '?', ':', '@', '&', '=', '+', '$', ',', '.', '!', '~', '*', '\'', '(',
    ')', '[', ']'].contains c

/-- The number of bytes of a character that come after its first byte. -/
def bytesAfter? (first : Nat) : Option Nat :=
  if first < 0x80 then some 0
  else if first / 32 = 6 then some 1
  else if first / 16 = 14 then some 2
  else if first / 8 = 30 then some 3
  else none

/-- The text of a tag and what comes after it.  A byte may be written as a percent
    sign and two hexadecimal digits; all bytes of one character are written so,
    and `more` of them are still to come.  Every byte counts as a character, as
    tags are only compared with ASCII texts. -/
def tagText : (more : Nat) → List Char → Option (List Char × List Char)
  | more, '%' :: a :: b :: cs => do
    let byte ← Text.natural? 16 [a, b]
    let more ←
      if more = 0 then bytesAfter? byte
      else if byte / 64 = 2 then some (more - 1) else none
    let (text, rest) ← tagText more cs
    some (Char.ofNat byte :: text, rest)
  | 0, '%' :: _ => none
  | 0, c :: cs =>
    if isTagChar c then do
      let (text, rest) ← tagText 0 cs
      some (c :: text, rest)
    else some ([], c :: cs)
  | 0, [] => some ([], [])
  | _ + 1, _ => none

/-- An exclamation mark with the word after it and the exclamation mark after
    that, if there is one, and the rest. -/
def handleText : List Char → Option (List Char × List Char)
  | '!' :: cs =>
    match cs.span isWordChar with
    | (word, '!' :: rest) => some ('!' :: (word ++ ['!']), rest)
    | (word, rest) => some ('!' :: word, rest)
  | _ => none

/-! ## Tags -/

/-- A tag as it is written. -/
structure Tag where
  /-- What stands for the first part of the tag; it is empty if nothing does. -/
  handle : String
  /-- The tag, or the part of it after the handle. -/
  text : String
  deriving DecidableEq, Repr

/-- The tag in a text, which must end with it. -/
def Tag.ofText? : List Char → Option Tag
  | '!' :: '<' :: cs => do
    let (text, rest) ← tagText 0 cs
    if text.isEmpty || rest ≠ ['>'] then none else some ⟨"", String.ofList text⟩
  | cs => do
    let (handle, rest) ← handleText cs
    let (text, rest) ← tagText 0 rest
    let whole := handle.drop 1 ++ text
    if !rest.isEmpty then none
    else if handle.drop 1 |>.getLast?.any (· == '!') then
      if text.isEmpty then none else some ⟨String.ofList handle, String.ofList text⟩
    else if whole.isEmpty then some ⟨"", "!"⟩
    else some ⟨"!", String.ofList whole⟩

/-- The tags that the language defines start with this text. -/
def tagBase : String := "tag:yaml.org,2002:"

/-- What handles stand for where no directive says it. -/
def commonHandles : List (String × String) := [("!", "!"), ("!!", tagBase)]

/-- The name of a tag, given what handles stand for.  The names of the language's
    own tags start with two exclamation marks. -/
def Tag.name? (handles : List (String × String)) (t : Tag) : Option String := do
  let base ← if t.handle = "" then some "" else (handles ++ commonHandles).lookup t.handle
  let name := (base ++ t.text).toList
  if tagBase.toList.isPrefixOf name then
    some (String.ofList ('!' :: '!' :: name.drop tagBase.length))
  else some (String.ofList name)

/-! ## Directives -/

/-- A directive. -/
inductive Directive where
  /-- The version of the language. -/
  | version (major minor : Nat)
  /-- The text that a handle stands for. -/
  | handle (name base : String)
  deriving DecidableEq, Repr

/-- The version of the language that is known. -/
def Directive.known : Directive := .version 1 1

/-- Is it a blank or a tab? -/
def isGap (c : Char) : Bool := c == ' ' || c == '\t'

/-- Is there nothing but a comment? -/
def isRemark (cs : List Char) : Bool := (cs.dropWhile isGap).head?.all (· == '#')

/-- A number of one or two digits at the start of a text, and the rest. -/
def versionNumber? (cs : List Char) : Option (Nat × List Char) := do
  let (digits, rest) := cs.span Char.isDigit
  if 2 < digits.length then none else some (← Text.natural? 10 digits, rest)

/-- The version in a text. -/
def Directive.versionOf? (cs : List Char) : Option Directive := do
  let (major, rest) ← versionNumber? cs
  match rest with
  | '.' :: rest =>
    let (minor, rest) ← versionNumber? rest
    if isRemark rest then some (.version major minor) else none
  | _ => none

/-- The handle in a text and what it stands for. -/
def Directive.handleOf? (cs : List Char) : Option Directive := do
  let (name, rest) ← handleText cs
  let (base, remark) ← tagText 0 (rest.dropWhile isGap)
  let isHandle := name.getLast?.any (· == '!')
  let isApart := rest.head?.any isGap && remark.head?.all isGap
  if isHandle && isApart && !base.isEmpty && isRemark remark then
    some (.handle (String.ofList name) (String.ofList base))
  else none

/-- The directive on a line, given without the percent sign at its start. -/
def Directive.ofLine? (cs : List Char) : Option Directive :=
  let (name, rest) := cs.span isWordChar
  if !rest.head?.all isGap then none
  else
    match String.ofList name with
    | "YAML" => versionOf? (rest.dropWhile isGap)
    | "TAG" => handleOf? (rest.dropWhile isGap)
    | _ => none

end Codegen.Yaml
