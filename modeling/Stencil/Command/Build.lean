/-
The two commands on template files. Building reads a template, settles its
options, compiles it and writes the component into the output directory;
nothing is written unless every step before it has succeeded. Checking
reads a template and counts the nodes at its root.
-/
import Stencil.Command.Overrides
import Stencil.Component

namespace Stencil

/-- The directory for output where none is given. -/
def defaultOutDir : Text := "target/tplx-gen"

/-- A fault of a template as the reason for a failure. -/
def templateCause (source : Text) (e : TemplateError) : Cause :=
  .template (e.diagnostic.excerpt source)

/-- The path of the file that a build writes. -/
def outputPath (input outDir : Text) : Text :=
  Path.join outDir (inputStem input ++ ".js".toList)

/-- Compiles a template file into a file of the output directory. Gives the
path of that file. -/
def build {m : Type → Type} [Monad m] (disk : Disk m) (input : Text)
    (outDir : Option Text) (flags : Overrides) :
    ExceptT CommandError m Text := do
  let source ← CommandError.guard (.reading input) .file (disk.readText input)
  let options ← buildOptions disk input flags
  let code ← CommandError.guard (.compiling input) (templateCause source)
    (pure (compile options source))
  let outDir := outDir.getD defaultOutDir
  CommandError.guard (.creating outDir) .file (disk.createAll outDir)
  let output := outputPath input outDir
  CommandError.guard (.writing output) .file
    (disk.writeText output (code ++ ['\n']))
  return output

/-- Counts the nodes at the root of a template file. -/
def check {m : Type → Type} [Monad m] (disk : Disk m) (input : Text) :
    ExceptT CommandError m Nat := do
  let source ← CommandError.guard (.reading input) .file (disk.readText input)
  let nodes ← CommandError.guard (.checking input) (templateCause source)
    (pure (parse source))
  return nodes.length

end Stencil
