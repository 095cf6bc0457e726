/-
Runs of a text: its maximal stretches of characters of one class, in
order. The parts of a path and the parts of a component name are runs.
-/
import Stencil.Text.Basic

namespace Stencil.Text

/-- The maximal stretches of characters in the class `p`; none of them is
empty. -/
def runs (p : Char → Bool) (s : Text) : List Text :=
  match _h : s.dropWhile (!p ·) with
  | [] => []
  | c :: t => (c :: t.takeWhile p) :: runs p (t.dropWhile p)
termination_by s.length
decreasing_by
  have h₁ := length_dropWhile_le (!p ·) s
  have h₂ := length_dropWhile_le p t
  rw [_h, List.length_cons] at h₁
  omega

end Stencil.Text
