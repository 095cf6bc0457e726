/-
Text as a diagnostic shows it. A single character stands between single
quotes, a text between double quotes; the quote in use, the backslash and
four control characters get a short escape, and a character without a
visible form of its own is shown by its code point.
-/
import Stencil.Text.Hidden
import Stencil.Text.Quoted

namespace Stencil.Text

/-- A character as it stands between two marks `mark`. -/
def showIn (mark : Char) (c : Char) : Text :=
  if c = '\x00' then "\\0"
  else if c = '\t' then "\\t"
  else if c = '\r' then "\\r"
  else if c = '\n' then "\\n"
  else if c = mark || c = '\\' then ['\\', c]
  else if isHidden c then "\\u\x7b".toList ++ hex c.toNat ++ ['}']
  else [c]

/-- A character between single quotes. -/
def showChar (c : Char) : Text := '\'' :: (showIn '\'' c ++ ['\''])

/-- A text between double quotes. -/
def showText (t : Text) : Text := '"' :: (t.flatMap (showIn '"') ++ ['"'])

end Stencil.Text
