/-
Preparing a tree for output. Comments go, markers in text and placeholder
names become references to properties, two attribute names take their
other spelling, text loses the white space around it unless it is to be
kept, and a document that is not exactly one tag gets a fragment around
it.
-/
import Stencil.Template.Node
import Stencil.Text.Blank
import Stencil.Interpolation.Segment
import Stencil.Interpolation.Reference

namespace Stencil

-- ========================================================= the parts

/-- The spelling of an attribute name in the output. -/
def attributeName (name : Text) : Text :=
  if name = "class".toList then "className"
  else if name = "for".toList then "htmlFor"
  else name

/-- A segment with its marker, if it is one, as a braced reference. -/
def Segment.resolve : Segment → Text
  | .literal t => t
  | .marker m => referenceMarker m

/-- A text with every marker as a braced reference. -/
def resolveMarkers (t : Text) : Text :=
  (Segment.split t).flatMap Segment.resolve

/-- The name of a prepared tag. -/
def Name.normal : Name → Name
  | .placeholder t => .property (referenceMarker t)
  | name => name

/-- The attribute of a prepared tag. -/
def Attribute.normal (a : Attribute) : Attribute :=
  ⟨attributeName a.name, a.value⟩

/-- The value of a prepared text; with `keep` the white space around it
stays. -/
def normalText (keep : Bool) (value : Text) : Text :=
  if keep then resolveMarkers value else (resolveMarkers value).trim

-- ========================================================== the tree

mutual

/-- A prepared node; comments and empty texts leave nothing. -/
def Node.normal? (keep : Bool) : Node → Option Node
  | .comment _ => none
  | .text value =>
    let value := normalText keep value
    if value.isEmpty then none else some (.text value)
  | .element name attributes children =>
    some (.element name.normal (attributes.map Attribute.normal)
      (Node.normalList keep children))
  | .selfClosing name attributes =>
    some (.selfClosing name.normal (attributes.map Attribute.normal))

/-- The prepared nodes of a list, in order. -/
def Node.normalList (keep : Bool) : List Node → List Node
  | [] => []
  | node :: nodes =>
    match node.normal? keep with
    | some node => node :: Node.normalList keep nodes
    | none => Node.normalList keep nodes

end

/-- The root of a prepared document: its only tag, or a fragment. -/
def normalRoot (keep : Bool) (nodes : List Node) : Node :=
  match Node.normalList keep nodes with
  | [only] => if only.isTag then only else .wrap [only]
  | children => .wrap children

/-- A prepared document, which is always a single tag. -/
def normalize (keep : Bool) (nodes : List Node) : List Node :=
  [normalRoot keep nodes]

end Stencil
