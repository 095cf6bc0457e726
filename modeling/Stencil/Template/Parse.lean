/-
Reading a template into its tree. The tokens of the template are read
once; if they reach the end and pair up, the tree is built from the right,
one forest per open level. If they do not, the report prefers a closing
tag that closes the wrong tag over the point where reading got stuck.
-/
import Stencil.Template.Fault

namespace Stencil

-- ==================================================== from tokens

/-- Puts a node at the front of the innermost level. -/
def Node.graft (node : Node) : List (List Node) → List (List Node)
  | level :: outer => (node :: level) :: outer
  | [] => [[node]]

/-- The forests that tokens spell, innermost level first: one for what
stands after the last unclosed end, and one for each level around it. -/
def forests : List Token → List (List Node)
  | [] => [[]]
  | .text value :: ts => (Node.text value).graft (forests ts)
  | .comment body :: ts => (Node.comment body).graft (forests ts)
  | .selfClosing name attributes :: ts =>
    (Node.selfClosing name attributes).graft (forests ts)
  | .closing _ :: ts => [] :: forests ts
  | .opening name attributes :: ts =>
    match forests ts with
    | [] => [[.element name attributes []]]
    | children :: outer => (Node.element name attributes children).graft outer

/-- The nodes at the root of a document that the tokens spell. -/
def document (tokens : List Token) : List Node := (forests tokens).headD []

-- ======================================================= the reader

/-- The report on a template that the grammar rejects at `far`: the first
closing tag that closes the wrong tag, if the template can be followed
that far, and otherwise what stands at `far`. -/
def rejection (source far : Text) : TemplateError :=
  match mismatch? [] (Token.readAll Spacing.search source).1 with
  | some (fault, rest) => .atRest source rest fault
  | none => .atRest source far (.unexpected far.head?)

/-- Reads a template into the nodes at its root. -/
def parse (source : Text) : Except TemplateError (List Node) :=
  let read := Token.readAll Spacing.grammar source
  match stuck? read.2 0 read.1 with
  | some far => .error (rejection source far)
  | none =>
    match misnamed? [] read.1 with
    | some (fault, rest) => .error (.atRest source rest fault)
    | none => .ok (document (read.1.map Located.token))

end Stencil
