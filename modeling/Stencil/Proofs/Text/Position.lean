/-
Places and lines, said without a walk over the text. A place is given by
what stands before it: its line is one more than the line feeds there, its
column one more than the characters behind the last of them
(`Position.ofOffset_append`).

The line that an excerpt repeats is found by its number among the lines of
the whole text, and these know nothing of the place. That the one found is
the line of the place, up to the place character by character, is
`Text.line_append`. It holds at every place but one between a carriage
return and its line feed, where the line ends before the carriage return
that the column counts.
-/
import Stencil.Text.Position
import Mathlib.Data.List.Induction

namespace Stencil

-- ====================================================== the last line

/-- What stands behind the last line feed of a text; all of a text that has
none. -/
def Text.lastLine (t : Text) : Text := (t.reverse.takeWhile (· != '\n')).reverse

theorem Text.lastLine_append_singleton (t : Text) (c : Char) :
    Text.lastLine (t ++ [c]) = if c = '\n' then [] else t.lastLine ++ [c] := by
  by_cases hc : c = '\n'
  · simp [Text.lastLine, hc]
  · simp [Text.lastLine, hc]

/-- The last line has no line feed, and is all of the text or stands behind
one. -/
theorem Text.lastLine_cases (t : Text) :
    '\n' ∉ t.lastLine
      ∧ (t = t.lastLine ∨ ∃ u, t = u ++ '\n' :: t.lastLine) := by
  induction t using List.reverseRecOn with
  | nil => exact ⟨by simp [Text.lastLine], Or.inl rfl⟩
  | append_singleton t c ih =>
      obtain ⟨hplain, hcut⟩ := ih
      rw [Text.lastLine_append_singleton]
      by_cases hc : c = '\n'
      · rw [if_pos hc, hc]
        exact ⟨by simp, Or.inr ⟨t, rfl⟩⟩
      · rw [if_neg hc]
        refine ⟨by simp [hplain, Ne.symm hc], ?_⟩
        rcases hcut with hall | ⟨u, hu⟩
        · exact Or.inl (by rw [← hall])
        · exact Or.inr
            ⟨u, by rw [← List.cons_append, ← List.append_assoc, ← hu]⟩

-- ========================================================== positions

/-- The characters that start before an offset behind a first part are that
part and those that start before the offset in the rest. -/
theorem Position.startingBefore_add (before rest : Text) (n : Nat) :
    Position.startingBefore (before.byteSize + n) (before ++ rest)
      = before ++ Position.startingBefore n rest := by
  induction before with
  | nil => simp
  | cons c before ih =>
      have hpos := c.utf8Size_pos
      obtain ⟨m, hm⟩ : ∃ m, Text.byteSize (c :: before) + n = m + 1 := by
        refine Nat.exists_eq_add_one.2 ?_
        rw [Text.byteSize_cons]
        omega
      have hrest : m + 1 - c.utf8Size = Text.byteSize before + n := by
        rw [← hm, Text.byteSize_cons]
        omega
      rw [hm, List.cons_append, Position.startingBefore, hrest, ih,
        List.cons_append]

/-- The characters that start before the end of a first part are that
part. -/
theorem Position.startingBefore_append (before rest : Text) :
    Position.startingBefore before.byteSize (before ++ rest) = before := by
  have hadd := Position.startingBefore_add before rest 0
  rwa [Nat.add_zero, Position.startingBefore, List.append_nil] at hadd

theorem Position.foldl_advance (t : Text) :
    t.foldl Position.advance (1, 1)
      = (t.count '\n' + 1, t.lastLine.length + 1) := by
  induction t using List.reverseRecOn with
  | nil => rfl
  | append_singleton t c ih =>
      rw [List.foldl_append, ih, Text.lastLine_append_singleton,
        List.count_append]
      by_cases hc : c = '\n'
      · simp [Position.advance, hc]
      · simp [Position.advance, hc]

/-- The position behind a first part of a text: a line for each line feed in
it, a column for each character behind the last. -/
theorem Position.ofOffset_append (before rest : Text) :
    Position.ofOffset (before ++ rest) before.byteSize
      = ⟨before.byteSize, before.count '\n' + 1,
        before.lastLine.length + 1⟩ := by
  rw [Position.ofOffset, Position.startingBefore_append, Position.foldl_advance]

-- ============================================================== lines

namespace Text

/-- Characters from the space on break no line. -/
theorem break_notMem_of_le {t : Text} (h : ∀ c ∈ t, 0x20 ≤ c.toNat) :
    '\n' ∉ t :=
  fun hmem => absurd (h '\n' hmem) (by decide)

/-- No line holds a line feed. -/
theorem break_notMem_lines (t : Text) : ∀ l ∈ lines t, '\n' ∉ l := by
  fun_induction lines t with
  | case1 => simp
  | case2 t ih => simpa using ih
  | case3 t ih => simpa using ih
  | case4 c t hc _ hnil ih =>
      have hc : c ≠ '\n' := hc
      simp [Ne.symm hc]
  | case5 c t hc _ l ls hcons ih =>
      have hc : c ≠ '\n' := hc
      rw [hcons] at ih
      simpa [Ne.symm hc] using ih

theorem break_notMem_line (t : Text) (n : Nat) : '\n' ∉ t.line n := by
  unfold line
  cases h : (lines t)[n - 1]? with
  | none => simp
  | some l => exact break_notMem_lines t l (List.mem_of_getElem? h)

/-- A carriage return before a line feed belongs to no line. -/
theorem lines_pair {t : Text} (h : t.head? = some '\n') :
    lines ('\r' :: t) = lines t := by
  obtain ⟨u, rfl⟩ := List.head?_eq_some_iff.1 h
  rw [lines, lines]

/-- Any other character that is no line feed belongs to the first line. -/
theorem lines_cons {c : Char} {t : Text} (hc : c ≠ '\n')
    (hpair : ¬ (c = '\r' ∧ t.head? = some '\n')) :
    lines (c :: t) = (c :: (lines t).headD []) :: (lines t).tail := by
  rw [lines]
  · cases lines t with
    | nil => rfl
    | cons l ls => rfl
  · exact hc
  · rintro u rfl rfl
    exact hpair ⟨rfl, rfl⟩

/-- Up to a line feed there is a line for each line feed, whatever
follows. -/
theorem exists_lines_append_break (t : Text) :
    ∃ ls : List Text, ls.length = t.count '\n' + 1
      ∧ ∀ u, lines (t ++ '\n' :: u) = ls ++ lines u := by
  induction t with
  | nil => exact ⟨[[]], rfl, fun u => by simp [lines]⟩
  | cons c t ih =>
      obtain ⟨ls, hlength, hlines⟩ := ih
      have hhead : ∀ u, (t ++ '\n' :: u).head? = (t ++ ['\n']).head? := by
        intro u
        cases t <;> rfl
      by_cases hc : c = '\n'
      · refine ⟨[] :: ls, by simp [hc, hlength], fun u => ?_⟩
        rw [hc, List.cons_append, lines, hlines, List.cons_append]
      · have hcount : (c :: t).count '\n' = t.count '\n' :=
          List.count_cons_of_ne hc
        by_cases hpair : c = '\r' ∧ (t ++ ['\n']).head? = some '\n'
        · refine ⟨ls, by rw [hcount, hlength], fun u => ?_⟩
          rw [hpair.1, List.cons_append,
            lines_pair (by rw [hhead, hpair.2]), hlines]
        · obtain ⟨l, ls, rfl⟩ := List.exists_cons_of_length_eq_add_one hlength
          refine ⟨(c :: l) :: ls, by rw [hcount, ← hlength]; rfl, fun u => ?_⟩
          rw [List.cons_append, lines_cons hc (by rw [hhead]; exact hpair),
            hlines]
          rfl

/-- Behind a line feed the lines are counted anew. -/
theorem line_append_break (t u : Text) :
    (t ++ '\n' :: u).line (t.count '\n' + 2) = u.line 1 := by
  obtain ⟨ls, hlength, hlines⟩ := exists_lines_append_break t
  have hindex : t.count '\n' + 2 - 1 = ls.length + 0 := by omega
  rw [line, hlines, hindex, List.getElem?_append_right (Nat.le_add_right ..),
    Nat.add_sub_cancel_left, line]

/-- A first line is what stands in it before a place and the first line from
the place on. -/
theorem line_one_append {l : Text} (hl : '\n' ∉ l) (r : Text)
    (hpair : ¬ (l.getLast? = some '\r' ∧ r.head? = some '\n')) :
    (l ++ r).line 1 = l ++ r.line 1 := by
  induction l with
  | nil => rfl
  | cons c l ih =>
      rw [List.mem_cons, not_or] at hl
      obtain ⟨hc, hl⟩ := hl
      have hfirst : ¬ (c = '\r' ∧ (l ++ r).head? = some '\n') := by
        rintro ⟨rfl, hhead⟩
        cases l with
        | nil => exact hpair ⟨rfl, hhead⟩
        | cons d l => exact hl (by simp_all)
      have hlater : ¬ (l.getLast? = some '\r' ∧ r.head? = some '\n') := by
        rintro ⟨hlast, hhead⟩
        exact hpair ⟨by rw [List.getLast?_cons, hlast]; rfl, hhead⟩
      have hone : line (c :: (l ++ r)) 1 = c :: line (l ++ r) 1 := by
        rw [line, lines_cons (Ne.symm hc) hfirst, line]
        cases lines (l ++ r) <;> rfl
      rw [List.cons_append, hone, ih hl hlater, List.cons_append]

/-- The line of a place is what stands in it before the place and the first
line from there on, if the place is not between a carriage return and its
line feed. -/
theorem line_append {before rest : Text}
    (hpair : ¬ (before.getLast? = some '\r' ∧ rest.head? = some '\n')) :
    (before ++ rest).line (before.count '\n' + 1)
      = before.lastLine ++ rest.line 1 := by
  obtain ⟨hplain, hcut⟩ := lastLine_cases before
  generalize before.lastLine = l at hplain hcut
  rcases hcut with rfl | ⟨u, rfl⟩
  · rw [List.count_eq_zero_of_not_mem hplain]
    exact line_one_append hplain rest hpair
  · have hlater : ¬ (l.getLast? = some '\r' ∧ rest.head? = some '\n') := by
      rintro ⟨hlast, hhead⟩
      refine hpair ⟨?_, hhead⟩
      rw [List.getLast?_append, List.getLast?_cons, hlast]
      rfl
    have hcount : (u ++ '\n' :: l).count '\n' + 1 = u.count '\n' + 2 := by
      simp [List.count_eq_zero_of_not_mem hplain]
    rw [List.append_assoc, List.cons_append, hcount, line_append_break]
    exact line_one_append hplain rest hlater

theorem exists_line_eq {before rest : Text}
    (hpair : ¬ (before.getLast? = some '\r' ∧ rest.head? = some '\n')) :
    ∃ tail, (before ++ rest).line (before.count '\n' + 1)
      = before.lastLine ++ tail :=
  ⟨_, line_append hpair⟩

end Text

end Stencil
