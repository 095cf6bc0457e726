/-
The arguments of the command line. A request is to build a template, to
check one, or to show the version or a summary of the usage; anything else
is refused. Options with a value take it after an equals sign or as the
next argument, which then does not look like an option; each option is
given at most once, the verbosity apart. Arguments count in their order: a
refusal stands even if the usage is asked for after it.
-/
import Stencil.Command.Overrides

namespace Stencil

/-- What the command line asks for. -/
inductive Request where
  | version
  | usage
  | build (input : Text) (outDir : Option Text) (flags : Overrides)
  | check (input : Text)
  deriving DecidableEq, Repr

/-- A command on a template. -/
inductive Command where
  | build
  | check
  deriving DecidableEq, Repr

/-- The command by its name. -/
def Command.ofName? (name : Text) : Option Command :=
  if name = "build".toList then some .build
  else if name = "check".toList then some .check
  else none

/-- Whether a command takes the options that bear on its output. -/
def Command.hasOptions : Command → Bool
  | .build => true
  | .check => false

/-- An option with a value. -/
inductive ValueOption where
  | outDir
  | options
  | name
  | indentSize
  | initialIndent
  deriving DecidableEq, Repr

/-- An option without a value. -/
inductive Switch where
  | jsx
  | pretty
  | preserveWhitespace
  deriving DecidableEq, Repr

/-- The option with a value by its long name. -/
def ValueOption.ofName? (name : Text) : Option ValueOption :=
  if name = "out-dir".toList then some .outDir
  else if name = "options".toList then some .options
  else if name = "name".toList then some .name
  else if name = "indent-size".toList then some .indentSize
  else if name = "initial-indent".toList then some .initialIndent
  else none

/-- The option without a value by its long name. -/
def Switch.ofName? (name : Text) : Option Switch :=
  if name = "jsx".toList then some .jsx
  else if name = "pretty".toList then some .pretty
  else if name = "preserve-whitespace".toList then some .preserveWhitespace
  else none

/-- A size: decimal digits, after a plus sign or none, for a number below
`wordBound`. -/
def readSize? (t : Text) : Option Nat :=
  let digits := match t with
    | '+' :: r => r
    | r => r
  if !digits.isEmpty && digits.all Char.isDigit
    && decimalValue digits < wordBound then
    some (decimalValue digits)
  else none

/-- A path, which is never empty. -/
def readPath? (t : Text) : Option Text := if t.isEmpty then none else some t

/-- A field that is given once: the value, unless there was one before. -/
def once {α : Type} (before : Option α) (value : Option α) :
    Option (Option α) :=
  match before, value with
  | none, some a => some (some a)
  | _, _ => none

-- ================================================== after the command

/-- What the arguments after a command have given so far. -/
structure Given where
  input : Option Text := none
  outDir : Option Text := none
  flags : Overrides := {}
  deriving DecidableEq, Repr

namespace Given

/-- Takes the value of an option. -/
def set? (g : Given) (option : ValueOption) (value : Text) : Option Given :=
  match option with
  | .outDir => do return { g with outDir := ← once g.outDir (readPath? value) }
  | .options => do
    return { g with
      flags.optionsFile := ← once g.flags.optionsFile (readPath? value) }
  | .name => do return { g with flags.name := ← once g.flags.name (some value) }
  | .indentSize => do
    return { g with
      flags.indentSize := ← once g.flags.indentSize (readSize? value) }
  | .initialIndent => do
    return { g with
      flags.initialIndent := ← once g.flags.initialIndent (readSize? value) }

/-- Takes an option without a value. -/
def switch? (g : Given) : Switch → Option Given
  | .jsx => if g.flags.jsx then none else some { g with flags.jsx := true }
  | .pretty =>
    if g.flags.pretty then none else some { g with flags.pretty := true }
  | .preserveWhitespace =>
    if g.flags.preserveWhitespace then none
    else some { g with flags.preserveWhitespace := true }

/-- Takes an argument that is no option. -/
def positional? (g : Given) (value : Text) : Option Given := do
  return { g with input := ← once g.input (readPath? value) }

/-- The request that was given to a command; there is none without an
input. -/
def request? (g : Given) : Command → Option Request
  | .build => do return .build (← g.input) g.outDir g.flags
  | .check => do return .check (← g.input)

end Given

/-- What one argument after a command means. -/
inductive Argument where
  | positional (value : Text)
  /-- An option whose value is the next argument. -/
  | pending (option : ValueOption)
  | valued (option : ValueOption) (value : Text)
  | plain (switch : Switch)
  | verbose
  | usage
  /-- The mark after which no argument is an option. -/
  | endOfOptions
  deriving DecidableEq, Repr

/-- Reads an option that bears on the output, from its name and from the
value after an equals sign. -/
def Argument.ofOption? (name : Text) : Option Text → Option Argument
  | none =>
    match Switch.ofName? name with
    | some switch => some (.plain switch)
    | none => (ValueOption.ofName? name).map .pending
  | some value => (ValueOption.ofName? name).map (.valued · value)

/-- Reads an argument that starts with two dashes, after them. -/
def Argument.ofLong? (command : Command) (body : Text) : Option Argument :=
  if body.isEmpty then some .endOfOptions
  else if body = "verbose".toList then some .verbose
  else if body = "help".toList then some .usage
  else if command.hasOptions then
    ofOption? (body.takeWhile (· != '=')) (body.dropWhile (· != '=')).tail?
  else none

/-- Reads letters after a dash: verbosity, then possibly the usage. -/
def Argument.ofLetters? : Text → Option Argument
  | [] => some .verbose
  | c :: letters =>
    if c = 'v' then ofLetters? letters
    else if c = 'h' then some .usage else none

/-- Reads an argument after a command. -/
def Argument.read? (command : Command) : Text → Option Argument
  | '-' :: '-' :: body => ofLong? command body
  | '-' :: c :: letters => ofLetters? (c :: letters)
  | value => some (.positional value)

/-- Whether an argument looks like an option, and so is not the value of
the one before it. -/
def looksLikeOption : Text → Bool
  | '-' :: _ :: _ => true
  | _ => false

/-- Reads the arguments after a command, the value of `pending` first, and
makes a request of what they give. -/
def readCommand (command : Command) (g : Given) (pending : Option ValueOption) :
    List Text → Option Request
  | [] => if pending.isSome then none else g.request? command
  | arg :: args =>
    match pending with
    | some option =>
      if looksLikeOption arg then none
      else (g.set? option arg).bind fun g => readCommand command g none args
    | none =>
      match Argument.read? command arg with
      | none => none
      | some (.positional value) =>
        (g.positional? value).bind fun g => readCommand command g none args
      | some (.pending option) => readCommand command g (some option) args
      | some (.valued option value) =>
        (g.set? option value).bind fun g => readCommand command g none args
      | some (.plain switch) =>
        (g.switch? switch).bind fun g => readCommand command g none args
      | some .verbose => readCommand command g none args
      | some .usage => some .usage
      | some .endOfOptions =>
        (args.foldlM Given.positional? g).bind (·.request? command)

-- ================================================= before the command

/-- Reads letters after a dash before the command: verbosity, then possibly
the version or the usage. Gives the request, if they make one. -/
def readLetters : Text → Option (Option Request)
  | [] => some none
  | c :: letters =>
    if c = 'v' then readLetters letters
    else if c = 'V' then some (some .version)
    else if c = 'h' then some (some .usage)
    else none

/-- Whether arguments make a topic of the usage: a command, the usage
itself, or nothing in particular. -/
def isTopic : List Text → Bool
  | [] => true
  | [name] => (Command.ofName? name).isSome || name == "help".toList
  | _ => false

/-- Reads the arguments of the command line; nothing if they make no
request. -/
def Request.ofArguments? : List Text → Option Request
  | [] => none
  | ('-' :: '-' :: name) :: args =>
    if name = "verbose".toList then ofArguments? args
    else if name = "version".toList then some .version
    else if name = "help".toList then some .usage
    else none
  | ('-' :: c :: letters) :: args =>
    match readLetters (c :: letters) with
    | none => none
    | some (some request) => some request
    | some none => ofArguments? args
  | name :: args =>
    match Command.ofName? name with
    | some command => readCommand command {} none args
    | none => if name = "help".toList && isTopic args then some .usage else none

end Stencil
