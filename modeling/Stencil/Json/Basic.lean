/-
JSON values, and the two ways in which a text fails to be one: it ends too
early, or it holds a character that cannot stand there. A reader gives its
value with the text that is left, which is always shorter.
-/
import Stencil.Json.Number

namespace Stencil

/-- A JSON value. An object keeps its members in order, repeated keys
included. -/
inductive Json where
  | null
  | bool (b : Bool)
  | number (n : Number)
  | string (t : Text)
  | array (items : List Json)
  | object (members : List (Text × Json))

/-- Why a text is not JSON. -/
inductive JsonFailure where
  /-- A character that cannot stand where it does, a number beyond the
  largest, or more levels than a value may have. -/
  | malformed
  /-- The text ends too early. -/
  | truncated
  deriving DecidableEq, Repr

/-- What a reader takes from the front of the text `s`: a value and a
shorter text. -/
structure Taken (α : Type) (s : Text) where
  value : α
  rest : Text
  shorter : rest.length < s.length

namespace Taken

/-- The same text taken with another value. -/
def map {α β : Type} {s : Text} (f : α → β) (t : Taken α s) : Taken β s :=
  ⟨f t.value, t.rest, t.shorter⟩

/-- The text that is left is shorter than the text with one more character
before it. -/
theorem shorterThanCons {α : Type} {s : Text} (t : Taken α s) (c : Char) :
    t.rest.length < (c :: s).length :=
  Nat.lt_trans t.shorter (Text.length_lt_cons c s)

/-- What is taken from the front of a text that is itself the end of a
longer one. -/
def ofTail {α : Type} {s r : Text} (h : r.length ≤ s.length) (t : Taken α r) :
    Taken α s :=
  ⟨t.value, t.rest, Nat.lt_of_lt_of_le t.shorter h⟩

end Taken

-- =============================================================== space

namespace Json

/-- The characters that may stand between the parts of a document. -/
def isSpace (c : Char) : Bool := c = ' ' || c = '\n' || c = '\t' || c = '\r'

/-- The text from its first character on that is not space. -/
def skipSpace (s : Text) : Text := s.dropWhile isSpace

theorem length_skipSpace_le (s : Text) : (skipSpace s).length ≤ s.length :=
  Text.length_dropWhile_le isSpace s

theorem length_lt_of_skipSpace {s r : Text} {c : Char}
    (h : skipSpace s = c :: r) :
    r.length < s.length := by
  have := length_skipSpace_le s
  rw [h, List.length_cons] at this
  omega

end Json

end Stencil
