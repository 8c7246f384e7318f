/-
  The kinds of scalars.

  The text of a scalar shows if it stands for no value, a truth value, a whole
  number, a number or a moment; any other text only stands for itself.  A scalar
  may say its kind by a tag, and its text must then show it.

  * `Meaning.of` is what a text stands for;
  * `Key.ofScalar?` is what a text with a tag stands for, if the text shows what
    the tag says.
-/
import Codegen.Text.Base64
import Codegen.Text.Numeral

namespace Codegen.Yaml

/-- The words for no value. -/
def nullWords : List String := ["", "~", "null", "Null", "NULL"]

/-- The words for truth. -/
def trueWords : List String := ["true", "True", "TRUE"]

/-- The words for untruth. -/
def falseWords : List String := ["false", "False", "FALSE"]

/-! ## Numbers -/

/-- A number. -/
inductive Number where
  /-- A number times a power of ten. -/
  | decimal (coefficient exponent : Int)
  | infinite (negative : Bool)
  /-- What is no number. -/
  | undefined
  deriving DecidableEq, Repr

/-- The words for numbers that have no digits. -/
def numberWord? (text : String) : Option Number :=
  if [".nan", ".NaN", ".NAN"].contains text then some .undefined
  else if [".inf", ".Inf", ".INF", "+.inf", "+.Inf", "+.INF"].contains text then
    some (.infinite false)
  else if ["-.inf", "-.Inf", "-.INF"].contains text then some (.infinite true)
  else none

/-- A power of ten. -/
def tenTo : Nat → Nat
  | 0 => 1
  | n + 1 => 10 * tenTo n

/-- The least number that is too large. -/
def numberBound : Nat := Nat.shiftLeft 1 1024 - Nat.shiftLeft 1 970

/-- Is the number that digits stand for, times a power of ten, too large?  All
    numbers of 310 digits are, and none of 308. -/
def isTooLarge (digits : List Char) (exponent : Int) : Bool :=
  let places := (digits.length : Int) + exponent
  let n := (Text.natural? 10 digits).getD 0
  if digits.isEmpty || decide (places < 309) then false
  else if 309 < places then true
  else if 0 ≤ exponent then decide (numberBound ≤ n * tenTo exponent.toNat)
  else decide (numberBound * tenTo (-exponent).toNat ≤ n)

/-- The number in an optional sign, digits with an optional point in, before or
    after them, and an optional exponent. -/
def decimal? (cs : List Char) : Option Number :=
  let (negative, unsigned) := Text.sign cs
  let whole := unsigned.takeWhile Char.isDigit
  let rest := unsigned.dropWhile Char.isDigit
  let (fraction, rest) := match rest with
    | '.' :: r => (r.takeWhile Char.isDigit, r.dropWhile Char.isDigit)
    | r => ([], r)
  let exponent : Option Int := match rest with
    | [] => some 0
    | e :: r =>
      if e = 'e' || e = 'E' then
        let (negative, digits) := Text.sign r
        (Text.natural? 10 digits).map fun n => if negative then -(n : Int) else n
      else none
  let digits := (whole ++ fraction).dropWhile (· == '0')
  let zeros := (digits.reverse.takeWhile (· == '0')).length
  let shown := digits.take (digits.length - zeros)
  if whole.isEmpty && fraction.isEmpty then none
  else
    exponent.bind fun e =>
      let e := e - fraction.length + zeros
      let n : Int := ((Text.natural? 10 shown).getD 0 : Nat)
      if isTooLarge shown e then none
      else if shown.isEmpty then some (.decimal 0 0)
      else some (.decimal (if negative then -n else n) e)

/-- Do underscores stand between digits only? -/
def parted : (digitBefore : Bool) → List Char → Bool
  | _, [] => true
  | digitBefore, '_' :: cs => digitBefore && cs.head?.any Char.isDigit && parted false cs
  | _, c :: cs => parted c.isDigit cs

/-- The text without underscores. -/
def plainDigits (cs : List Char) : List Char := cs.filter (· != '_')

/-- A whole number that only fits a word without a sign: half of it fits a word
    with one. -/
def largeWhole? (digits : List Char) : Option Nat :=
  let number := match digits with
    | '0' :: 'x' :: r | '0' :: 'X' :: r => Text.natural? 16 r
    | '0' :: 'o' :: r | '0' :: 'O' :: r => Text.natural? 8 r
    | '0' :: 'b' :: r | '0' :: 'B' :: r => Text.natural? 2 r
    | '0' :: r => Text.natural? 8 r
    | r => Text.natural? 10 r
  number.filter fun n => decide (Text.wordBound ≤ n) && decide (n / 2 < Text.wordBound)

/-- A whole number with its sign after the mark of its base, two or eight. -/
def signedWhole? : List Char → Option Int
  | '0' :: b :: cs => do
    let base ← if b = 'b' then some 2 else if b = 'o' then some 8 else none
    let (negative, digits) := Text.sign cs
    Text.fit? negative (← Text.natural? base digits)
  | _ => none

/-! ## Moments -/

/-- A number of one digit or two, and what follows it. -/
def shortNumber? : List Char → Option (Nat × List Char)
  | a :: b :: cs =>
    if !a.isDigit then none
    else if b.isDigit then some ((a.toNat - 48) * 10 + (b.toNat - 48), cs)
    else some (a.toNat - 48, b :: cs)
  | [a] => if a.isDigit then some (a.toNat - 48, []) else none
  | [] => none

/-- What follows a given character. -/
def after? (c : Char) : List Char → Option (List Char)
  | d :: cs => if d = c then some cs else none
  | [] => none

/-- The number of days of a month, the months counted from one. -/
def daysOf (year month : Nat) : Nat :=
  if month = 2 then
    if year % 4 = 0 && (year % 100 != 0 || year % 400 = 0) then 29 else 28
  else if month = 4 || month = 6 || month = 9 || month = 11 then 30
  else 31

/-- What follows a date. -/
def afterDate? (cs : List Char) : Option (List Char) := do
  let year ← Text.natural? 10 (cs.takeWhile Char.isDigit)
  if (cs.takeWhile Char.isDigit).length ≠ 4 then none
  let cs ← after? '-' (cs.drop 4)
  let (month, cs) ← shortNumber? cs
  let cs ← after? '-' cs
  let (day, cs) ← shortNumber? cs
  if 1 ≤ month ∧ month ≤ 12 ∧ 1 ≤ day ∧ day ≤ daysOf year month then some cs else none

/-- What follows a time of day. -/
def afterTime? (cs : List Char) : Option (List Char) := do
  let (hour, cs) ← shortNumber? cs
  let (minute, cs) ← shortNumber? (← after? ':' cs)
  let (second, cs) ← shortNumber? (← after? ':' cs)
  if hour < 24 ∧ minute < 60 ∧ second < 60 then
    match cs with
    | p :: d :: rest =>
      if (p = '.' || p = ',') && d.isDigit then some (rest.dropWhile Char.isDigit) else some cs
    | cs => some cs
  else none

/-- A time zone: the letter `Z`, or a sign, hours and minutes. -/
def isZone : List Char → Bool
  | ['Z'] => true
  | [s, a, b, ':', c, d] =>
    (s == '+' || s == '-') && (Text.natural? 10 [a, b]).any (· ≤ 24) &&
      (Text.natural? 10 [c, d]).any (· ≤ 60)
  | _ => false

/-- A date, with a time and a time zone after the letter `T`, or with a time after
    blanks. -/
def isMoment (text : String) : Bool :=
  match afterDate? text.toList with
  | none => false
  | some [] => true
  | some (c :: cs) =>
    if c = 'T' || c = 't' then (afterTime? cs).any isZone
    else c = ' ' && (afterTime? (cs.dropWhile (· == ' '))).any List.isEmpty

/-! ## Meanings -/

/-- What a text stands for. -/
inductive Meaning where
  | null
  | truth (b : Bool)
  | whole (n : Int)
  | number (x : Number)
  | moment
  /-- Itself. -/
  | text
  deriving DecidableEq, Repr

namespace Meaning

/-- What a text of digits, after an optional sign, stands for. -/
def ofDigits (cs : List Char) : Meaning :=
  let digits := plainDigits cs
  match Text.literal? (String.ofList digits), largeWhole? digits, decimal? digits,
    signedWhole? digits with
  | some n, _, _, _ => .whole n
  | none, some n, _, _ => .whole n
  | none, none, some x, _ => .number x
  | none, none, none, some n => .whole n
  | none, none, none, none => .text

/-- What a text stands for; `moments` tells if it may be a moment. -/
def of (moments : Bool) (text : String) : Meaning :=
  let cs := text.toList
  if nullWords.contains text then .null
  else if trueWords.contains text then .truth true
  else if falseWords.contains text then .truth false
  else
    match numberWord? text, cs with
    | some x, _ => .number x
    | none, '.' :: _ =>
      match decimal? (plainDigits cs) with
      | some x => if parted false cs then .number x else .text
      | none => .text
    | none, c :: _ =>
      if !(c.isDigit || c == '+' || c == '-') then .text
      else if moments && isMoment text then .moment
      else ofDigits cs
    | none, [] => .text

/-- The tag that says what a text stands for. -/
def tag : Meaning → String
  | null => "!!null"
  | truth _ => "!!bool"
  | whole _ => "!!int"
  | number _ => "!!float"
  | moment => "!!timestamp"
  | text => "!!str"

end Meaning

/-! ## Scalars -/

/-- The value of a scalar, which may be a key. -/
inductive Key where
  | null
  | truth (b : Bool)
  | whole (n : Int)
  | number (x : Number)
  /-- A moment, as it is written. -/
  | moment (text : String)
  | text (s : Text.Loose)
  deriving DecidableEq, Repr

/-- The tags of which the text must show what they say. -/
def shownTags : List String := ["!!null", "!!bool", "!!int", "!!float", "!!timestamp"]

/-- The value of a scalar with a tag.  A whole number may also be said to be a
    number, if it fits a word. -/
def Key.ofScalar? (tag text : String) : Option Key :=
  if tag = "!!binary" then (Text.Base64.decode? text).map .text
  else if !shownTags.contains tag then some (.text (Text.Loose.ofString text))
  else
    let m := Meaning.of (tag == "!!timestamp") text
    match m with
    | .null => if tag = m.tag then some .null else none
    | .truth b => if tag = m.tag then some (.truth b) else none
    | .whole n =>
      if tag = m.tag then some (.whole n)
      else if tag = "!!float" && decide (n < Text.wordBound) then some (.number (.decimal n 0))
      else none
    | .number x => if tag = m.tag then some (.number x) else none
    | .moment => if tag = m.tag then some (.moment text) else none
    | .text => none

end Codegen.Yaml
