/-
A file tree: directories and files with their bytes, and a working
directory in which relative paths start. The operations are those that the
commands need: reading a file, making a directory with the ones above it,
and writing a file; each says how it can fail. Paths and the names in them
have bounded lengths: a path beyond the bound leads nowhere, and a name
beyond it stands in no directory.
-/
import Stencil.Files.Path

namespace Stencil

/-- Why an operation on files fails. -/
inductive FileError where
  | missing
  | alreadyExists
  | notDirectory
  | isDirectory
  /-- A path, or a name in it, is too long. -/
  | tooLong
  /-- A path has a NUL character in it. -/
  | nulInPath
  /-- The bytes of a file are not text. -/
  | notText
  /-- Anything else that the system reports. -/
  | other (message : Text)
  deriving DecidableEq, Repr

/-- The wording of a failure. -/
def FileError.message : FileError → Text
  | .missing => "No such file or directory (os error 2)"
  | .alreadyExists => "File exists (os error 17)"
  | .notDirectory => "Not a directory (os error 20)"
  | .isDirectory => "Is a directory (os error 21)"
  | .tooLong => "File name too long (os error 36)"
  | .nulInPath => "file name contained an unexpected NUL byte"
  | .notText => "stream did not contain valid UTF-8"
  | .other message => message

/-- The most bytes in a name. -/
def maxNameSize : Nat := 255

/-- The most bytes in a path. -/
def maxPathSize : Nat := 4095

/-- What is wrong with a path, whatever files there are. -/
def FileError.ofPath? (path : Text) : Option FileError :=
  if path.contains '\x00' then some .nulInPath
  else if maxPathSize < path.byteSize then some .tooLong
  else none

/-- What stands at a place of a file tree. -/
inductive Entry where
  | file (bytes : ByteArray)
  | directory

/-- A place in a file tree: the names on the way from its root. -/
abbrev Place := List Text

/-- A file tree with a working directory. The root is always there. -/
structure FileTree where
  /-- The working directory. -/
  here : Place
  /-- What stands at each place below the root, each place once. -/
  entries : List (Place × Entry)

namespace FileTree

/-- A tree with an empty working directory. -/
def fresh : FileTree :=
  let here : Place := ["work".toList]
  ⟨here, [(here, .directory)]⟩

/-- What stands at a place. -/
def get? (t : FileTree) (place : Place) : Option Entry :=
  if place.isEmpty then some .directory else t.entries.lookup place

/-- The tree with an entry at a place, in place of what stood there. -/
def put (t : FileTree) (place : Place) (entry : Entry) : FileTree :=
  { t with entries := (place, entry) :: t.entries.filter (·.1 != place) }

-- ============================================================ walking

/-- The place that one step leads to. -/
def step (place : Place) (s : Text) : Place :=
  if s = Path.stay then place else if s = Path.up then place.dropLast
  else place ++ [s]

/-- The place that steps lead to. Only a directory can be stepped from, and
only by a name that is not too long. -/
def walk (t : FileTree) : Place → List Text → Except FileError Place
  | place, [] => .ok place
  | place, s :: ss =>
    match t.get? place with
    | some .directory =>
      if maxNameSize < s.byteSize then .error .tooLong
      else walk t (step place s) ss
    | some (.file _) => .error .notDirectory
    | none => .error .missing

/-- The place at which a path starts. -/
def start (t : FileTree) (path : Text) : Place :=
  if Path.isAbsolute path then [] else t.here

/-- The place of a path; the empty path has none. -/
def locate (t : FileTree) (path : Text) : Except FileError Place :=
  match FileError.ofPath? path with
  | some e => .error e
  | none =>
    if path.isEmpty then .error .missing
    else t.walk (t.start path) (Path.stepsInto path)

-- ========================================================= operations

/-- The bytes of the file at a path. -/
def readBytes (t : FileTree) (path : Text) : Except FileError ByteArray :=
  match t.locate path with
  | .error e => .error e
  | .ok place =>
    match t.get? place with
    | none => .error .missing
    | some .directory => .error .isDirectory
    | some (.file bytes) => .ok bytes

/-- The text of the file at a path. -/
def readText (t : FileTree) (path : Text) : Except FileError Text :=
  match t.readBytes path with
  | .error e => .error e
  | .ok bytes =>
    match String.fromUTF8? bytes with
    | some s => .ok s.toList
    | none => .error .notText

/-- The tree with new bytes in the file at a path. -/
def writeBytes (t : FileTree) (path : Text) (bytes : ByteArray) :
    Except FileError FileTree :=
  match t.locate path with
  | .error e => .error e
  | .ok place =>
    match t.get? place with
    | some .directory => .error .isDirectory
    | _ => .ok (t.put place (.file bytes))

/-- The tree with a new text in the file at a path. -/
def writeText (t : FileTree) (path text : Text) : Except FileError FileTree :=
  t.writeBytes path (String.ofList text).toUTF8

/-- Makes the directory that some steps from `place` lead to; it may be
there already. Gives its place. -/
def ensureDirectory (t : FileTree) (place : Place) (steps : List Text) :
    FileTree × Except FileError Place :=
  match t.walk place steps with
  | .error e => (t, .error e)
  | .ok target =>
    match t.get? target with
    | none => (t.put target .directory, .ok target)
    | some .directory => (t, .ok target)
    | some (.file _) => (t, .error .alreadyExists)

/-- Makes a directory, and first the ones above it where they are missing.
Those stay even if a later one cannot be made. -/
def ensureDirectories (t : FileTree) (place : Place) (steps : List Text) :
    FileTree × Except FileError Place :=
  if _h : steps = [] then (t, .ok place)
  else
    match t.ensureDirectory place steps with
    | (t, .error .missing) =>
      let above := Path.parent steps
      match t.ensureDirectories place above with
      | (t, .error e) => (t, .error e)
      | (t, .ok directory) =>
        t.ensureDirectory directory (steps.drop above.length)
    | result => result
termination_by steps.length
decreasing_by exact Path.length_parent_lt _h

/-- Makes the directory at a path, with the ones above it; the empty path
stands for the working directory. -/
def createAll (t : FileTree) (path : Text) : FileTree × Except FileError Unit :=
  match FileError.ofPath? path with
  | some e => (t, .error e)
  | none =>
    let (t, result) := t.ensureDirectories (t.start path) (Path.steps path)
    (t, result.map fun _ => ())

-- ============================================================ listing

/-- Whether a text comes before another by its characters, or is it. -/
def before : Text → Text → Bool
  | [], _ => true
  | _ :: _, [] => false
  | c :: s, d :: t => c.toNat < d.toNat || (c == d && before s t)

/-- The paths of the files below the working directory, in order. -/
def files (t : FileTree) : List Text :=
  let found := t.entries.filterMap fun (place, entry) =>
    match entry with
    | .file _ =>
      if t.here.isPrefixOf place then
        some ("/".toList.intercalate (place.drop t.here.length))
      else none
    | .directory => none
  found.mergeSort before

end FileTree

end Stencil
