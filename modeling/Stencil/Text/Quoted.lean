/-
Quoted text: the double-quoted literal that generated code uses for every
run of template characters. Quotes, backslashes and the characters below
U+0020 are escaped, everything else stands for itself, so a literal never
holds a raw line break and ends at its first unescaped quote.
-/
import Stencil.Text.Basic

namespace Stencil.Text

/-- The hexadecimal digits of a number, lower case, without padding. -/
def hex (n : Nat) : Text := Nat.toDigits 16 n

/-- How one character is written between double quotes. -/
def escape (c : Char) : Text :=
  if c = '"' then "\\\""
  else if c = '\\' then "\\\\"
  else if c = '\n' then "\\n"
  else if c = '\r' then "\\r"
  else if c = '\t' then "\\t"
  else if c = '\x08' then "\\b"
  else if c = '\x0c' then "\\f"
  else if c.toNat < 0x10 then "\\u000".toList ++ hex c.toNat
  else if c.toNat < 0x20 then "\\u00".toList ++ hex c.toNat
  else [c]

/-- The literal that stands for `t` in generated code. -/
def quote (t : Text) : Text := '"' :: (t.flatMap escape ++ ['"'])

end Stencil.Text
