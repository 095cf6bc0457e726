/-
From a template to the source of a component: a function of one argument,
the properties, that returns the expression of the template's root.
-/
import Stencil.Template.Parse
import Stencil.Normal
import Stencil.Options.Basic

namespace Stencil

/-- The function with a body, itself at `outer` and its body at `inner`. -/
def functionAround (name : Text) (pretty : Bool) (outer inner : Nat)
    (body : FunctionBody) :
    Text :=
  if pretty then
    Text.spaces outer ++ "function ".toList ++ name ++ "(props) \x7b".toList
      ++ body.statements
      ++ Style.newline inner ++ "return ".toList ++ body.result
      ++ Style.newline outer ++ ['}']
  else
    "function ".toList ++ name ++ "(props)\x7b".toList ++ body.statements
      ++ "return ".toList ++ body.result ++ ['}']

/-- The component of an already read document. -/
def component (options : Options) (nodes : List Node) : Text :=
  let layout := options.pretty.layout?.getD {}
  let style : Style := ⟨options.pretty.layout?.isSome, layout.indentSize⟩
  let inner := layout.initialIndent + layout.indentSize
  let root := normalRoot options.keepsWhitespace nodes
  let body :=
    match options.jsx.callNames? with
    | some names => callBody style inner names root
    | none => markupBody style inner root
  functionAround options.componentName style.pretty layout.initialIndent
    inner body

/-- The component of a template. -/
def compile (options : Options) (template : Text) : Except TemplateError Text :=
  (parse template).map (component options)

end Stencil
