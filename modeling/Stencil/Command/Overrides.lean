/-
The options of a build: those of an options file, or the defaults with a
name from the input, and on top of them what the flags of the build say.
-/
import Stencil.Command.ComponentName
import Stencil.Command.Failure
import Stencil.Files.Disk
import Stencil.Options.Reader

namespace Stencil

/-- The flags of a build that bear on its options. -/
structure Overrides where
  optionsFile : Option Text := none
  name : Option Text := none
  jsx : Bool := false
  pretty : Bool := false
  indentSize : Option Nat := none
  initialIndent : Option Nat := none
  preserveWhitespace : Bool := false
  deriving DecidableEq, Repr

/-- The stem of an input, or a word for one that has none. -/
def inputStem (input : Text) : Text :=
  (Path.stem? input).getD "component".toList

namespace Overrides

/-- The options with the layout that the flags ask for: each given number
replaces that of the options' own layout. -/
def applyLayout (flags : Overrides) (o : Options) : Options :=
  if flags.pretty || flags.indentSize.isSome || flags.initialIndent.isSome then
    let base := o.pretty.layout?.getD {}
    o.withIndent (flags.initialIndent.getD base.initialIndent)
      (flags.indentSize.getD base.indentSize)
  else o

/-- The options with everything that the flags say. -/
def apply (flags : Overrides) (o : Options) : Options :=
  let o := match flags.name with
    | some name => o.withComponentName name
    | none => o
  let o := if flags.jsx then o.withJsx true else o
  let o := flags.applyLayout o
  if flags.preserveWhitespace then o.withPreserveWhitespace true else o

end Overrides

/-- The options before the flags: from the options file if there is one,
else with the name that the input suggests. -/
def startingOptions {m : Type → Type} [Monad m] (disk : Disk m) (input : Text)
    (flags : Overrides) : ExceptT CommandError m Options :=
  match flags.optionsFile with
  | none =>
    return ({} : Options).withComponentName (componentName (inputStem input))
  | some path => do
    let text ← CommandError.guard (.reading path) .file (disk.readText path)
    CommandError.guard (.options path) .options (pure (Options.ofText text))

/-- The options of a build. -/
def buildOptions {m : Type → Type} [Monad m] (disk : Disk m) (input : Text)
    (flags : Overrides) : ExceptT CommandError m Options :=
  return flags.apply (← startingOptions disk input flags)

end Stencil
