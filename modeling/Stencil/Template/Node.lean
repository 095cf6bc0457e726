/-
The tree of a template. Names of tags come in four kinds: the two that a
template can spell, a literal name and a placeholder; and the two that
preparation brings in, a property reference and the nameless fragment.
-/
import Stencil.Text.Basic

namespace Stencil

/-- The name of a tag, by how it is resolved. -/
inductive Name where
  /-- A plain tag such as `div`. -/
  | literal (text : Text)
  /-- A tag taken from a property, as the template spells it: the text is
  what stands between the braces. -/
  | placeholder (text : Text)
  /-- A tag taken from a property, after preparation: the text is the
  braced reference. -/
  | property (text : Text)
  /-- No tag of its own. -/
  | fragment (text : Text)
  deriving DecidableEq, Repr

namespace Name

/-- The fragment that wraps a document without a single root. -/
def wrapper : Name := .fragment []

/-- The name as a template spells it; a closing tag repeats this. -/
def raw : Name → Text
  | .placeholder t => '{' :: (t ++ ['}'])
  | .literal t | .property t | .fragment t => t

/-- What stands between the braces of a property reference. -/
def propertyExpr? : Name → Option Text
  | .property ('{' :: t) =>
    if t.getLast? = some '}' then some t.dropLast else none
  | _ => none

/-- Whether the name is that of a fragment. -/
def isFragment : Name → Bool
  | .fragment _ => true
  | _ => false

end Name

/-- An attribute with its value between the quotes, markers included. -/
structure Attribute where
  name : Text
  value : Text
  deriving DecidableEq, Repr

/-- A node of a template. -/
inductive Node where
  | text (value : Text)
  | comment (body : Text)
  | element (name : Name) (attributes : List Attribute) (children : List Node)
  | selfClosing (name : Name) (attributes : List Attribute)
  deriving Repr

namespace Node

/-- Whether a node is a tag, with or without content. -/
def isTag : Node → Bool
  | .element .. | .selfClosing .. => true
  | .text _ | .comment _ => false

/-- A fragment around some nodes. -/
def wrap (children : List Node) : Node := .element Name.wrapper [] children

end Node

/-- Whether a document is exactly one tag, so that it needs no wrapper. -/
def isSingleTag : List Node → Bool
  | [only] => only.isTag
  | _ => false

end Stencil
