/-
How output is laid out: on one line, or over several lines with an
indentation step. A list of attributes wider than a fixed number of bytes
is spread over lines of its own.
-/
import Stencil.Text.Basic

namespace Stencil

/-- The layout of generated code. -/
structure Style where
  /-- Whether the code is spread over lines. -/
  pretty : Bool
  /-- The columns that one level of nesting adds. -/
  step : Nat
  deriving DecidableEq, Repr

namespace Style

/-- The bytes of attribute text that still fit on the line of their tag. -/
def attributeWidth : Nat := 20

/-- A space, where the layout has one. -/
def space (style : Style) : Text := if style.pretty then [' '] else []

/-- A new line indented by `column`. -/
def newline (column : Nat) : Text := '\n' :: Text.spaces column

/-- A new line indented by `column`, where the layout has one. -/
def lead (style : Style) (column : Nat) : Text :=
  if style.pretty then newline column else []

/-- Content indented by `column`, where the layout has indentation. -/
def indent (pretty : Bool) (column : Nat) (content : Text) : Text :=
  if pretty then Text.spaces column ++ content else content

end Style

/-- The body of a generated function: the statements that come first, and
the expression that is returned. -/
structure FunctionBody where
  statements : Text
  result : Text
  deriving DecidableEq, Repr

end Stencil
