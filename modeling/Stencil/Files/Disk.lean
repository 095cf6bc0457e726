/-
A disk: what a command does to files, for any way of doing it. The disk of
a file tree keeps the tree as its state; the command line has another, by
the same three operations.
-/
import Stencil.Files.Tree

namespace Stencil

/-- The operations on files that the commands use. -/
structure Disk (m : Type → Type) where
  /-- The text of a file. -/
  readText : Text → m (Except FileError Text)
  /-- Makes a directory, with the ones above it. -/
  createAll : Text → m (Except FileError Unit)
  /-- Writes a text to a file. -/
  writeText : Text → Text → m (Except FileError Unit)

/-- The disk whose files are those of a file tree. -/
def FileTree.disk : Disk (StateM FileTree) where
  readText path := fun t => (t.readText path, t)
  createAll path := fun t => let (t, result) := t.createAll path; (result, t)
  writeText path text := fun t =>
    match t.writeText path text with
    | .ok t' => (.ok (), t')
    | .error e => (.error e, t)

end Stencil
