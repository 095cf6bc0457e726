/-
Segments of interpolated text. A marker is an opening brace, at least one
character other than a closing brace, and a closing brace; markers are
found from left to right and do not overlap, and whatever lies between
two of them, stray and empty braces included, is one literal run.
-/
import Stencil.Text.Basic

namespace Stencil

/-- A piece of interpolated text. -/
inductive Segment where
  /-- A run of characters that stand for themselves; never empty. -/
  | literal (text : Text)
  /-- A marker, by what stands between its braces; never empty. -/
  | marker (content : Text)
  deriving DecidableEq, Repr

/-- Reads the rest of a marker after its opening brace. -/
def Segment.readMarker? (s : Text) : Option (Text × Text) :=
  match s.dropWhile (· != '}') with
  | [] => none
  | _ :: r =>
    if (s.takeWhile (· != '}')).isEmpty then none
    else some (s.takeWhile (· != '}'), r)

/-- Reading a marker uses up at least its closing brace. -/
theorem Segment.length_lt_of_readMarker? {s m r : Text}
    (h : readMarker? s = some (m, r)) : r.length < s.length := by
  have hle := Text.length_dropWhile_le (· != '}') s
  unfold readMarker? at h
  split at h
  · simp at h
  · rename_i heq
    rw [heq, List.length_cons] at hle
    split at h
    · simp at h
    · simp only [Option.some.injEq, Prod.mk.injEq] at h
      rw [← h.2]
      omega

/-- Puts a character that stands for itself in front of some segments. -/
def Segment.extend (c : Char) : List Segment → List Segment
  | .literal t :: rest => .literal (c :: t) :: rest
  | segments => .literal [c] :: segments

/-- The segments of a text. -/
def Segment.split (s : Text) : List Segment :=
  match s with
  | [] => []
  | c :: t =>
    if c = '{' then
      match _h : readMarker? t with
      | some (content, r) => .marker content :: split r
      | none => extend c (split t)
    else extend c (split t)
termination_by s.length
decreasing_by
  · have := Segment.length_lt_of_readMarker? _h
    simp only [List.length_cons]
    omega
  · simp
  · simp

/-- Whether the segment is a marker. -/
def Segment.isMarker : Segment → Bool
  | .marker _ => true
  | .literal _ => false

end Stencil
