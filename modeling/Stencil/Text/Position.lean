/-
Places in a text. An offset counts bytes of the UTF-8 form; a position
adds the line and the column, both counted from one, that a reader of the
text would give. Lines end at a line feed, columns count characters, and
an offset inside a character belongs to the place after it.
-/
import Stencil.Text.Basic

namespace Stencil

/-- A place in a text: the byte offset with its line and column. -/
structure Position where
  offset : Nat
  line : Nat
  column : Nat
  deriving DecidableEq, Repr

namespace Position

/-- The line and column after one more character. -/
def advance (place : Nat × Nat) (c : Char) : Nat × Nat :=
  if c = '\n' then (place.1 + 1, 1) else (place.1, place.2 + 1)

/-- The characters of a text that start before the byte offset given. -/
def startingBefore : Nat → Text → Text
  | 0, _ => []
  | _, [] => []
  | n + 1, c :: t => c :: startingBefore (n + 1 - c.utf8Size) t

/-- The position of a byte offset. An offset past the end has the line and
column of the end. -/
def ofOffset (source : Text) (offset : Nat) : Position :=
  let place := (startingBefore offset source).foldl advance (1, 1)
  ⟨offset, place.1, place.2⟩

/-- The position at which `rest` begins, where `rest` is what is left of
`source` there. -/
def ofRest (source rest : Text) : Position :=
  ofOffset source (source.byteSize - rest.byteSize)

end Position

-- ============================================================= lines

namespace Text

/-- The lines of a text. A line ends at a line feed, which takes along one
carriage return before it; a last line needs no end. -/
def lines : Text → List Text
  | [] => []
  | '\n' :: t => [] :: lines t
  | '\r' :: '\n' :: t => [] :: lines t
  | c :: t =>
    match lines t with
    | [] => [[c]]
    | l :: ls => (c :: l) :: ls

/-- The line with the number given, counted from one; empty past the last
line. -/
def line (t : Text) (n : Nat) : Text := ((lines t)[n - 1]?).getD []

end Text

end Stencil
