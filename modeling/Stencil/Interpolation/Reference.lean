/-
References to properties. A property whose name is a plain variable name
is reached by a dot, any other by a quoted name in square brackets, so a
name of any characters stays data.
-/
import Stencil.Text.Quoted

namespace Stencil

/-- Whether a text is a variable name: a letter or dollar sign, then
letters, digits and dollar signs. -/
def isVariableName : Text → Bool
  | [] => false
  | c :: t => (c.isAlpha || c = '$') && t.all fun c => c.isAlphanum || c = '$'

/-- The expression that looks up the property `name`. -/
def reference (name : Text) : Text :=
  if isVariableName name then "props.".toList ++ name
  else "props[".toList ++ name.quote ++ [']']

/-- The braced reference that stands for a marker in a prepared tree. -/
def referenceMarker (name : Text) : Text := '{' :: (reference name ++ ['}'])

end Stencil
