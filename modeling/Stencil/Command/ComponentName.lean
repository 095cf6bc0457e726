/-
The name of a component from the name of its file: the letters and digits
of the file's stem, each part with a capital. A name that would be empty
or start with a digit gets a word in front.
-/
import Stencil.Text.Runs

namespace Stencil

/-- A part with its first letter as a capital. -/
def capitalize : Text → Text
  | [] => []
  | c :: t => c.toUpper :: t

/-- The word in front of a name that could not stand alone. -/
def nameHead : Text := "Template"

/-- The component name for a file stem. -/
def componentName (stem : Text) : Text :=
  let name := (stem.runs Char.isAlphanum).flatMap capitalize
  match name with
  | [] => nameHead
  | c :: _ => if c.isDigit then nameHead ++ name else name

end Stencil
