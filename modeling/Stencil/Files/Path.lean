/-
Paths as text. A path is a sequence of steps between slashes; a step is
the name of an entry, a dot for staying or two dots for going up. What a
file is called leaves out the steps that stay.
-/
import Stencil.Text.Runs

namespace Stencil.Path

/-- The step that stays where it is. -/
def stay : Text := "."

/-- The step to the directory above. -/
def up : Text := ".."

/-- The steps of a path, without those between neighbouring slashes. -/
def steps (path : Text) : List Text := path.runs (· != '/')

/-- The steps of a path that has to lead to a directory if it ends in a
slash: staying is a step that only a directory allows. -/
def stepsInto (path : Text) : List Text :=
  if path.getLast? = some '/' then steps path ++ [stay] else steps path

/-- Whether a path starts at the root of the file tree. -/
def isAbsolute (path : Text) : Bool := path.head? == some '/'

/-- Steps without those at the end that stay. -/
def dropStays (steps : List Text) : List Text :=
  (steps.reverse.dropWhile (· == stay)).reverse

/-- The steps to the directory that holds the entry at the end of the
steps given. -/
def parent (steps : List Text) : List Text :=
  dropStays (dropStays steps).dropLast

theorem length_dropStays_le (steps : List Text) :
    (dropStays steps).length ≤ steps.length := by
  have := (List.dropWhile_suffix (· == stay) (l := steps.reverse)).length_le
  simpa [dropStays] using this

/-- The directory above is fewer steps away. -/
theorem length_parent_lt {steps : List Text} (h : steps ≠ []) :
    (parent steps).length < steps.length := by
  have h₁ := length_dropStays_le (dropStays steps).dropLast
  have h₂ := length_dropStays_le steps
  have h₃ := List.length_pos_iff.2 h
  rw [List.length_dropLast] at h₁
  unfold parent
  omega

/-- The name of the file at the end of a path; nothing where the path goes
up or nowhere. -/
def fileName? (path : Text) : Option Text :=
  match (dropStays (steps path)).getLast? with
  | none => none
  | some name => if name = up then none else some name

/-- A file name without its last extension. A name whose only dot is its
first character has no extension. -/
def withoutExtension (name : Text) : Text :=
  match (name.reverse.dropWhile (· != '.')).drop 1 with
  | [] => name
  | before => before.reverse

/-- The stem of the file at the end of a path. -/
def stem? (path : Text) : Option Text := (fileName? path).map withoutExtension

/-- The path of an entry in a directory. -/
def join (directory name : Text) : Text :=
  match directory.getLast? with
  | none => name
  | some c => if c = '/' then directory ++ name else directory ++ ['/'] ++ name

end Stencil.Path
