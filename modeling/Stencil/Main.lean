/-
The command line on the files of the system: the disk whose operations are
those of the system, and the program that runs the arguments on it.
-/
import Stencil.Command.Run

namespace Stencil

/-- The failure of an operation of the system. -/
def FileError.ofSystem : IO.Error → FileError
  | .noFileOrDirectory .. => .missing
  | .alreadyExists .. => .alreadyExists
  | .inappropriateType _ code details =>
    if code = 20 then .notDirectory
    else if code = 21 then .isDirectory
    else .other details.toList
  | .invalidArgument _ code details =>
    if code = 36 then .tooLong else .other details.toList
  | e => .other e.toString.toList

/-- Runs an operation of the system on a path and catches its failure. -/
def systemResult {α : Type} (path : Text) (action : String → IO α) :
    IO (Except FileError α) :=
  match FileError.ofPath? path with
  | some e => return .error e
  | none => do
    try return .ok (← action (String.ofList path))
    catch e => return .error (.ofSystem e)

/-- The files of the system. -/
def systemDisk : Disk IO where
  readText path := do
    let bytes ← systemResult path fun path => IO.FS.readBinFile path
    return bytes.bind fun bytes =>
      match String.fromUTF8? bytes with
      | some s => .ok s.toList
      | none => .error .notText
  createAll path :=
    if path.isEmpty then return .ok ()
    else systemResult path fun path => IO.FS.createDirAll path
  writeText path text :=
    systemResult path fun path => IO.FS.writeFile path (String.ofList text)

end Stencil

/-- Runs the command line. -/
def main (args : List String) : IO UInt32 := do
  let outcome ← Stencil.runArguments Stencil.systemDisk (args.map String.toList)
  IO.print (String.ofList outcome.output)
  IO.eprint (String.ofList outcome.errors)
  return outcome.code.toUInt32
