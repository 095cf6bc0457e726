/-
Diagnostics: a message with the place in a template that it is about. It
has a one-line form, and an excerpt form that repeats the line of the
template and marks the column under it.
-/
import Stencil.Text.Position

namespace Stencil

/-- A message about a place in a template. -/
structure Diagnostic where
  message : Text
  position : Position
  deriving DecidableEq, Repr

namespace Diagnostic

/-- The message with its line and column, on one line. -/
def summary (d : Diagnostic) : Text :=
  "SyntaxError: ".toList ++ d.message ++ " (".toList
    ++ Text.ofNat d.position.line ++ [':']
    ++ Text.ofNat d.position.column ++ [')']

/-- A number right-aligned in three columns. -/
def gutter (n : Nat) : Text :=
  let digits := Text.ofNat n
  Text.spaces (3 - digits.length) ++ digits

/-- The message, the place, and the line of the source with a caret under
the column. -/
def excerpt (d : Diagnostic) (source : Text) : Text :=
  let line := Text.ofNat d.position.line
  let column := Text.ofNat d.position.column
  "SyntaxError: ".toList ++ d.message
    ++ "\n --> ".toList ++ line ++ [':'] ++ column
    ++ "\n  |\n".toList ++ gutter d.position.line ++ " | ".toList
    ++ source.line d.position.line
    ++ "\n    | ".toList ++ Text.spaces (d.position.column - 1) ++ ['^']

end Diagnostic

end Stencil
