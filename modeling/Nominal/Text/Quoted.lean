import Nominal.Text.Invisible

/-!
# Quoted text

`quote` writes a text between double quotes. Quotes and backslashes are escaped, line breaks,
tabs and the null character have short escapes, and any other character that does not show by
itself is written with its code point in hexadecimal.
-/

namespace Nominal.Text

/-- The characters that stand for one character of a quoted text. -/
def escape (c : Char) : List Char :=
  if c == '"' then ['\\', '"']
  else if c == '\\' then ['\\', '\\']
  else if c == '\n' then ['\\', 'n']
  else if c == '\r' then ['\\', 'r']
  else if c == '\t' then ['\\', 't']
  else if c.toNat == 0 then ['\\', '0']
  else if isInvisible c then
    ['\\', 'u', '\x7b'] ++ Nat.toDigits 16 c.toNat ++ ['\x7d']
  else [c]

/-- The text between double quotes. -/
def quote (text : String) : String :=
  String.ofList ('"' :: text.toList.flatMap escape ++ ['"'])

end Nominal.Text
