/-
Scanning a text for the first character outside a class. Readers cut a
text by `takeWhile` and `dropWhile`; `Text.scan_eq_iff` says which cut
that is: the only one whose first part lies in the class and whose second
part does not start in it. The two cuts that readers make are cases of it,
a word and the stretch up to a mark. The classes of letters are ranges of
code points.
-/
import Stencil.Text.Basic
import Mathlib.Data.List.TakeWhile

namespace Stencil.Text

/-- The cut that scanning makes: `w` lies in the class and `r` does not
start in it. -/
theorem scan_eq_iff (p : Char → Bool) (s w r : Text) :
    s.takeWhile p = w ∧ s.dropWhile p = r
      ↔ s = w ++ r ∧ (∀ c ∈ w, p c) ∧ ∀ c ∈ r.head?, p c = false := by
  constructor
  · intro h
    obtain ⟨rfl, rfl⟩ := h
    refine ⟨List.takeWhile_append_dropWhile.symm,
      fun c hc => List.mem_takeWhile_imp hc, ?_⟩
    intro c hc
    have hstop := List.head?_dropWhile_not p s
    rw [Option.mem_def.1 hc] at hstop
    simpa using hstop
  · intro h
    obtain ⟨rfl, hw, hr⟩ := h
    rw [List.takeWhile_append_of_pos hw, List.dropWhile_append_of_pos hw]
    cases r with
    | nil => simp
    | cons c r =>
        have hc : ¬ p c := by simp [hr c rfl]
        simp [List.takeWhile_cons_of_neg hc, List.dropWhile_cons_of_neg hc]

/-- Dropping a class of characters from the front, where the text is
already cut. -/
theorem dropWhile_append_stop {p : Char → Bool} {w r : Text}
    (hw : ∀ c ∈ w, p c) (hr : ∀ c ∈ r.head?, p c = false) :
    (w ++ r).dropWhile p = r :=
  ((scan_eq_iff p (w ++ r) w r).2 ⟨rfl, hw, hr⟩).2

/-- The cut before the first occurrence of a mark. -/
theorem scan_mark_iff (mark : Char) (s v r : Text) :
    s.takeWhile (· != mark) = v ∧ s.dropWhile (· != mark) = mark :: r
      ↔ s = v ++ mark :: r ∧ mark ∉ v := by
  rw [scan_eq_iff]
  refine and_congr_right fun _ => ⟨?_, ?_⟩
  · intro h hmem
    simpa using h.1 mark hmem
  · intro hv
    refine ⟨fun c hc => ?_, fun c hc => ?_⟩
    · rw [bne_iff_ne]
      intro hcm
      subst hcm
      exact hv hc
    · obtain rfl : mark = c := by simpa using hc
      simp

/-- Scanning for a mark stops at the mark or at the end. -/
theorem dropWhile_mark_cases (mark : Char) (s : Text) :
    s.dropWhile (· != mark) = []
      ∨ ∃ r, s.dropWhile (· != mark) = mark :: r := by
  cases h : s.dropWhile (· != mark) with
  | nil => exact Or.inl rfl
  | cons c r =>
      have hstop := ((scan_eq_iff _ _ _ _).1 ⟨rfl, h⟩).2.2 c rfl
      obtain rfl : c = mark := by simpa using hstop
      exact Or.inr ⟨r, rfl⟩

theorem isUpper_iff (c : Char) : c.isUpper ↔ 65 ≤ c.toNat ∧ c.toNat ≤ 90 := by
  show decide ('A'.val ≤ c.val ∧ c.val ≤ 'Z'.val) = true ↔ _
  simp [UInt32.le_iff_toNat_le]

theorem isLower_iff (c : Char) : c.isLower ↔ 97 ≤ c.toNat ∧ c.toNat ≤ 122 := by
  show (decide ('a'.val ≤ c.val) && decide (c.val ≤ 'z'.val)) = true ↔ _
  simp [UInt32.le_iff_toNat_le]

/-- A letter is a capital or a small letter. -/
theorem isAlpha_eq (c : Char) : c.isAlpha = (c.isUpper || c.isLower) := rfl

end Stencil.Text
