/-
What can be wrong with a template, and where. A template whose tokens do
not read to the end, or whose opening and closing tags do not pair up, is
rejected by the grammar; the fault then lies at the furthest point that
any attempt to read a piece has reached. A template that the grammar
accepts may still close a tag by another name or spell a tag name with a
capital.

Each fault keeps the text that is left at its place, from which the
offset, line and column follow.
-/
import Stencil.Template.Token
import Stencil.Text.Shown
import Stencil.Diagnostic

namespace Stencil

-- ============================================================ faults

/-- A reason to reject a template. -/
inductive Fault where
  /-- A closing tag that does not close the innermost open tag. -/
  | mismatched (expected found : Text)
  /-- A literal tag name with a capital letter. -/
  | uppercase (name : Text)
  /-- A character, or the end, where the grammar allows none such. -/
  | unexpected (found : Option Char)
  deriving DecidableEq, Repr

/-- The wording of a fault. -/
def Fault.message : Fault → Text
  | .mismatched expected found =>
    "expected </".toList ++ expected ++ "> but found </".toList
      ++ found ++ ['>']
  | .uppercase name =>
    "tag name `".toList ++ name ++ "` must be lowercase".toList
  | .unexpected none => "unexpected end of template"
  | .unexpected (some c) => "unexpected ".toList ++ Text.showChar c

/-- A fault with its place in the template. -/
structure TemplateError where
  fault : Fault
  position : Position
  deriving DecidableEq, Repr

namespace TemplateError

/-- The fault at the place where `rest` is left of the template. -/
def atRest (source rest : Text) (fault : Fault) : TemplateError :=
  ⟨fault, Position.ofRest source rest⟩

/-- The error as a diagnostic. -/
def diagnostic (e : TemplateError) : Diagnostic := ⟨e.fault.message, e.position⟩

end TemplateError

-- ============================================== the furthest attempt

/-- The furthest point at which an attempt fails while a name is read: at
the name itself when it is not a literal one, and inside the brace when no
identifier follows it. -/
def Name.furthest? : Text → Option Text
  | '{' :: s =>
    if (Text.word? isIdentChar s).isSome then some ('{' :: s) else some s
  | s => if (Text.word? isNameChar s).isSome then none else some s

/-- The furthest point at which an attempt fails when no attribute can be
read: where its name should start, where its value should start, or before
its space when the name has no `=` after it. -/
def Attribute.furthest (s : Text) : Text :=
  let t := s.dropWhile Spacing.grammar.isSpace
  match Text.word? isNameChar t with
  | none => t
  | some (_, '=' :: v) => v
  | some _ => s

/-- The furthest point at which an attempt to read a piece fails where no
token can be read. A closing tag is tried only inside an open tag. -/
def furthest (inside : Bool) : Text → Text
  | '<' :: '/' :: s =>
    if inside then (Name.furthest? s).getD ('/' :: s) else '/' :: s
  | '<' :: s =>
    match Name.read? s with
    | some (_, r) => Attribute.furthest (Attribute.readAll Spacing.grammar r).2
    | none => (Name.furthest? s).getD s
  | s => s

/-- The point at which the grammar gives up on a template that reads as
the tokens given and then stops at `rest`, inside `depth` open tags;
nothing if it accepts. -/
def stuck? (rest : Text) : Nat → List Located → Option Text
  | depth, [] =>
    if rest.isEmpty && depth == 0 then none
    else some (furthest (depth != 0) rest)
  | depth, ⟨.opening .., _⟩ :: ts => stuck? rest (depth + 1) ts
  | depth + 1, ⟨.closing _, _⟩ :: ts => stuck? rest depth ts
  | 0, ⟨.closing _, start⟩ :: _ => some (furthest false start)
  | depth, _ :: ts => stuck? rest depth ts

-- ============================================= wrongly named tags

/-- The first closing tag that does not close the innermost of the open
tags, with the text from it on; nothing once a tag closes without any
being open. -/
def mismatch? : List Text → List Located → Option (Fault × Text)
  | _, [] => none
  | opened, ⟨.opening name _, _⟩ :: ts => mismatch? (name.raw :: opened) ts
  | [], ⟨.closing _, _⟩ :: _ => none
  | expected :: opened, ⟨.closing name, start⟩ :: ts =>
    if expected = name.raw then mismatch? opened ts
    else some (.mismatched expected name.raw, start)
  | opened, _ :: ts => mismatch? opened ts

/-- The capital letter in a name, if the name is a literal one. -/
def Name.uppercase? : Name → Option Fault
  | .literal t => if t.any Char.isUpper then some (.uppercase t) else none
  | _ => none

/-- The first tag name of an accepted template that breaks a rule, with
the text from its place on: a capital in a name, or a closing tag that
does not repeat the name it closes. -/
def misnamed? : List Text → List Located → Option (Fault × Text)
  | _, [] => none
  | opened, ⟨.opening name _, start⟩ :: ts =>
    match name.uppercase? with
    | some fault => some (fault, start.tail)
    | none => misnamed? (name.raw :: opened) ts
  | opened, ⟨.selfClosing name _, start⟩ :: ts =>
    match name.uppercase? with
    | some fault => some (fault, start.tail)
    | none => misnamed? opened ts
  | [], ⟨.closing _, _⟩ :: ts => misnamed? [] ts
  | expected :: opened, ⟨.closing name, start⟩ :: ts =>
    if expected = name.raw then misnamed? opened ts
    else some (.mismatched expected name.raw, start)
  | opened, _ :: ts => misnamed? opened ts

end Stencil
