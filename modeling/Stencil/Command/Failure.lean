/-
How a command fails: at one of its steps, for a reason of the files, the
options or the template. The report names the step and, indented below it,
the reason.
-/
import Stencil.Files.Tree
import Stencil.Options.Reader
import Stencil.Template.Fault

namespace Stencil

/-- A step of a command, with the path that it is about. -/
inductive CommandStep where
  | reading (path : Text)
  | options (path : Text)
  | compiling (path : Text)
  | checking (path : Text)
  | creating (path : Text)
  | writing (path : Text)
  deriving DecidableEq, Repr

/-- The wording for a step that failed. -/
def CommandStep.failure : CommandStep → Text
  | .reading path => "failed to read ".toList ++ path
  | .options path => "invalid options in ".toList ++ path
  | .compiling path => "failed to compile ".toList ++ path
  | .checking path => path ++ " is not a valid template".toList
  | .creating path => "failed to create ".toList ++ path
  | .writing path => "failed to write ".toList ++ path

/-- The reason for a failure. -/
inductive Cause where
  | file (error : FileError)
  | options (error : OptionsError)
  /-- A fault of a template, as an excerpt of it. -/
  | template (excerpt : Text)
  deriving DecidableEq, Repr

/-- The wording of a reason. -/
def Cause.message : Cause → Text
  | .file e => e.message
  | .options .malformed => "the document is not valid JSON"
  | .options .truncated => "the document ends too early"
  | .options e => e.message?.getD []
  | .template excerpt => excerpt

/-- A failed step with its reason. -/
structure CommandError where
  step : CommandStep
  cause : Cause
  deriving DecidableEq, Repr

namespace CommandError

/-- Runs an action whose failure is the failure of a step. -/
def guard {m : Type → Type} [Monad m] {ε α : Type} (step : CommandStep)
    (cause : ε → Cause) (action : m (Except ε α)) : ExceptT CommandError m α :=
  ExceptT.mk do
    match ← action with
    | .ok a => return .ok a
    | .error e => return .error ⟨step, cause e⟩

/-- A text with four spaces at the start of every line. -/
def indented (t : Text) : Text :=
  Text.spaces 4 ++ t.flatMap fun c =>
    if c = '\n' then '\n' :: Text.spaces 4 else [c]

/-- The report on a failure. -/
def report (e : CommandError) : Text :=
  "Error: ".toList ++ e.step.failure ++ "\n\nCaused by:\n".toList
    ++ indented e.cause.message ++ ['\n']

end CommandError

end Stencil
