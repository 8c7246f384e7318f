/-
  White space and letter case of names.

  Names are compared without surrounding white space and in lower case.
-/

namespace Codegen.Text

/-- The characters with the property White_Space. -/
def isBlank (c : Char) : Bool :=
  let n := c.toNat
  (decide (0x09 ≤ n) && decide (n ≤ 0x0d)) || (decide (0x2000 ≤ n) && decide (n ≤ 0x200a)) ||
    [0x20, 0x85, 0xa0, 0x1680, 0x2028, 0x2029, 0x202f, 0x205f, 0x3000].contains n

/-- The characters without the white space around them. -/
def trimChars (cs : List Char) : List Char :=
  ((cs.dropWhile isBlank).reverse.dropWhile isBlank).reverse

/-- The text without the white space around it. -/
def trim (s : String) : String := String.ofList (trimChars s.toList)

/-- The lower-case form of a character, where that form is an ASCII letter:
    besides the ASCII capitals, the dotted capital I and the Kelvin sign. -/
def lowerChar (c : Char) : Char :=
  if c.toNat = 0x130 then 'i' else if c.toNat = 0x212a then 'k' else c.toLower

/-- The text in lower case, as far as it matters for ASCII names. -/
def lower (s : String) : String := String.ofList (s.toList.map lowerChar)

end Codegen.Text
