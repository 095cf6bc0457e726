/-
A run of the command line: the arguments decide on a request, the request
is carried out on a disk, and the outcome is what the run prints and the
code with which it ends.
-/
import Stencil.Command.Arguments
import Stencil.Command.Build

namespace Stencil

/-- What a run leaves behind, files apart. -/
structure Outcome where
  /-- The code with which the run ends. -/
  code : Nat
  /-- What it prints. -/
  output : Text := []
  /-- What it reports. -/
  errors : Text := []
  deriving DecidableEq, Repr

namespace Outcome

/-- A run that has succeeded. -/
def success (output : Text) : Outcome := ⟨0, output, []⟩

/-- A run that has failed. -/
def failure (e : CommandError) : Outcome := ⟨1, [], e.report⟩

/-- A run whose arguments make no request. -/
def refused : Outcome := ⟨2, [], "error: invalid arguments, see --help\n"⟩

/-- The outcome of a command, given what to print on success. -/
def ofResult {α : Type} (print : α → Text) : Except CommandError α → Outcome
  | .ok a => success (print a)
  | .error e => failure e

end Outcome

/-- The version of the program. -/
def versionText : Text := "tplx 0.1.0\n"

/-- A summary of the usage. -/
def usageText : Text :=
  "Compile placeholder templates into component functions\n\nCommands:\n".toList
    ++ "  build  Compile a template file into a component function\n".toList
    ++ "  check  Parse a template and report the first syntax error, if any\n".toList

/-- Carries out a request. -/
def Request.run {m : Type → Type} [Monad m] (disk : Disk m) :
    Request → m Outcome
  | .version => return .success versionText
  | .usage => return .success usageText
  | .build input outDir flags => do
    let result ← (Stencil.build disk input outDir flags).run
    return .ofResult (fun output => "Generated: ".toList ++ output
      ++ ['\n']) result
  | .check input => do
    let result ← (Stencil.check disk input).run
    return .ofResult (fun count =>
      input ++ ": ok (".toList ++ Text.ofNat count
        ++ " root nodes)\n".toList) result

/-- Runs the command line. -/
def runArguments {m : Type → Type} [Monad m] (disk : Disk m)
    (args : List Text) : m Outcome :=
  match Request.ofArguments? args with
  | none => return .refused
  | some request => request.run disk

end Stencil
