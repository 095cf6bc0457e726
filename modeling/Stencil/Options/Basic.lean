/-
Options of a compilation: the name of the component, the layout, the kind
of output, and whether the white space around texts is kept. Layout and
kind of output each have short forms, which `PrettySetting.layout?` and
`JsxSetting.callNames?` spell out.
-/
import Stencil.Output.Calls

namespace Stencil

/-- The indentation of code over several lines. -/
structure Layout where
  /-- The column of the function itself. -/
  initialIndent : Nat := 0
  /-- The columns that one level adds. -/
  indentSize : Nat := 2
  deriving DecidableEq, Repr

/-- Whether and how code is spread over lines. -/
inductive PrettySetting where
  | flag (on : Bool)
  | indentSize (n : Nat)
  | layout (given : Layout)
  deriving DecidableEq, Repr

/-- The layout that an option asks for; nothing for code on one line. -/
def PrettySetting.layout? : PrettySetting → Option Layout
  | .flag false => none
  | .flag true => some {}
  | .indentSize n => some ⟨0, n⟩
  | .layout given => some given

/-- Whether output is nested calls, and by which names. -/
inductive JsxSetting where
  | flag (on : Bool)
  | names (given : CallNames)
  deriving DecidableEq, Repr

/-- The names for nested calls; nothing for output as markup. -/
def JsxSetting.callNames? : JsxSetting → Option CallNames
  | .flag false => none
  | .flag true => some {}
  | .names given => some given

/-- The options of a compilation. -/
structure Options where
  componentName : Text := "TemplateComponent".toList
  pretty : PrettySetting := .flag false
  jsx : JsxSetting := .flag false
  preserveWhitespace : Bool := false
  deriving DecidableEq, Repr

namespace Options

/-- The options with another component name. -/
def withComponentName (o : Options) (name : Text) : Options :=
  { o with componentName := name }

/-- The options with the default layout, or none. -/
def withPretty (o : Options) (on : Bool) : Options :=
  { o with pretty := .flag on }

/-- The options with the indentation given. -/
def withIndent (o : Options) (initialIndent indentSize : Nat) : Options :=
  { o with pretty := .layout ⟨initialIndent, indentSize⟩ }

/-- The options with nested calls by their default names, or markup. -/
def withJsx (o : Options) (on : Bool) : Options := { o with jsx := .flag on }

/-- The options with nested calls by the names given. -/
def withCallNames (o : Options) (names : CallNames) : Options :=
  { o with jsx := .names names }

/-- The options with white space kept or not. -/
def withPreserveWhitespace (o : Options) (on : Bool) : Options :=
  { o with preserveWhitespace := on }

/-- Whether white space is kept in the end: nested calls over several lines
never keep it. -/
def keepsWhitespace (o : Options) : Bool :=
  o.preserveWhitespace && !(o.pretty.layout?.isSome && o.jsx.callNames?.isSome)

end Options

end Stencil
