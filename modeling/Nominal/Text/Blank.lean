/-!
# Blank characters and trimming

`isBlank` holds of the characters with the Unicode property White_Space, and `trim` removes them
from both ends of a text.
-/

namespace Nominal.Text

/-- Whether the character is white space in some script. -/
def isBlank (c : Char) : Bool :=
  let code := c.toNat
  (0x9 ≤ code && code ≤ 0xd) || code == 0x20 || code == 0x85 || code == 0xa0 || code == 0x1680 ||
    (0x2000 ≤ code && code ≤ 0x200a) || code == 0x2028 || code == 0x2029 || code == 0x202f ||
    code == 0x205f || code == 0x3000

/-- The characters without the blank ones at either end. -/
def trimChars (chars : List Char) : List Char :=
  ((chars.dropWhile isBlank).reverse.dropWhile isBlank).reverse

/-- The text without the blank characters at either end. -/
def trim (text : String) : String := String.ofList (trimChars text.toList)

end Nominal.Text
