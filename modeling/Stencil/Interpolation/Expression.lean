/-
Interpolated text as an expression: the literal runs quoted, the markers
as references or verbatim, joined by plus signs. Text without a marker is
quoted or left alone as the mode says.
-/
import Stencil.Interpolation.Segment
import Stencil.Interpolation.Reference

namespace Stencil

/-- How interpolated text is written. -/
structure ExpressionMode where
  /-- Put braces around a text with markers. -/
  braced : Bool := false
  /-- Quote a text without markers. -/
  quoted : Bool := false
  /-- Take what a marker holds for the name of a property; otherwise it is
  an expression already. -/
  resolved : Bool := false
  /-- Spaces around the plus signs. -/
  spaced : Bool := false
  deriving DecidableEq, Repr

/-- One segment as an operand. -/
def Segment.operand (mode : ExpressionMode) : Segment → Text
  | .literal t => t.quote
  | .marker m => if mode.resolved then reference m else m

/-- The expression for a text. -/
def expression (mode : ExpressionMode) (text : Text) : Text :=
  let segments := Segment.split text
  if segments.any Segment.isMarker then
    let plus : Text := if mode.spaced then " + " else "+"
    let sum := plus.intercalate (segments.map (Segment.operand mode))
    if mode.braced then '{' :: (sum ++ ['}']) else sum
  else if mode.quoted then text.quote
  else text

end Stencil
