/-
The caret under the place of an error. An excerpt prints the line of the
template behind a margin, the number of the line in three columns and a
bar, and below it the caret behind a margin of a fixed width. The caret is
under the character at the place as long as the two margins are as wide as
each other, that is for a number of at most three digits
(`parse_error_caret_iff`). From the thousandth line on it stands one column
or more to the left (`caret_beside_place`).

What the printed line shows at the place is the first character of what is
left of the template there, unless the line ends at it
(`Text.head?_line_one`).
-/
import Stencil.Proofs.Template.Diagnostics

namespace Stencil

-- ============================================================ the line

/-- Whether a text begins with the end of a line: with its own end, with a
line feed, or with a carriage return before one. -/
def Text.atLineEnd : Text → Bool
  | [] => true
  | '\n' :: _ => true
  | '\r' :: '\n' :: _ => true
  | _ => false

/-- The first line of a text starts with the first character of the text, if
it does not end there. -/
theorem Text.head?_line_one (t : Text) :
    (t.line 1).head? = if t.atLineEnd then none else t.head? := by
  unfold Text.atLineEnd
  split
  · rfl
  · simp [Text.line, Text.lines]
  · simp [Text.line, Text.lines]
  · next hnil hbreak hpair =>
    cases t with
    | nil => exact absurd rfl hnil
    | cons c t =>
        have hc : c ≠ '\n' := by
          intro hc
          exact hbreak t (by rw [hc])
        have hfirst : ¬ (c = '\r' ∧ t.head? = some '\n') := by
          intro hends
          obtain ⟨u, hu⟩ := List.head?_eq_some_iff.1 hends.2
          exact hpair u (by rw [hends.1, hu])
        rw [Text.line, Text.lines_cons hc hfirst]
        rfl

-- ========================================================= the margins

/-- What an excerpt prints before the line with the number given. -/
def Diagnostic.margin (line : Nat) : Text :=
  Diagnostic.gutter line ++ " | ".toList

/-- What an excerpt prints before the spaces that lead to its caret. -/
def Diagnostic.caretMargin : Text := "    | "

/-- The two margins are as wide as each other for numbers of at most three
digits. -/
theorem Diagnostic.length_margin_iff (line : Nat) :
    (Diagnostic.margin line).length = Diagnostic.caretMargin.length
      ↔ line < 1000 := by
  have hdigits : (Text.ofNat line).length ≤ 3 ↔ line < 1000 :=
    Nat.length_toDigits_le_iff (by decide) (by decide)
  have hmargin : (Diagnostic.margin line).length
      = 3 - (Text.ofNat line).length + ((Text.ofNat line).length + 3) := by
    simp [Diagnostic.margin, Diagnostic.gutter, Text.spaces]
  have hcaret : Diagnostic.caretMargin.length = 6 := by decide
  rw [hmargin, hcaret, ← hdigits]
  omega

-- =========================================================== the caret

/-- A printed line shows the place between `before` and `rest`: behind the
margin stands the line of the place, and after `column` characters of the
printed line comes the character at the place, or the end of the printed
line where the line of the text ends at the place. -/
structure ShowsPlace (printed before rest : Text) (column : Nat) : Prop where
  line : printed = Diagnostic.margin (before.count '\n' + 1)
    ++ Text.line (before ++ rest) (before.count '\n' + 1)
  before : printed.take column
    = Diagnostic.margin (before.count '\n' + 1) ++ before.lastLine
  within : column ≤ printed.length
  here : printed[column]? = if rest.atLineEnd then none else rest.head?

/-- Every place but one inside a line end is shown behind the margin and what
stands in its line before it. -/
theorem showsPlace_of_cut {before rest : Text}
    (hpair : ¬ (before.getLast? = some '\r' ∧ rest.head? = some '\n')) :
    ShowsPlace (Diagnostic.margin (before.count '\n' + 1)
        ++ Text.line (before ++ rest) (before.count '\n' + 1)) before rest
      ((Diagnostic.margin (before.count '\n' + 1)).length
        + before.lastLine.length) := by
  rw [Text.line_append hpair, ← List.length_append]
  constructor
  · rw [Text.line_append hpair]
  · rw [← List.append_assoc, List.take_left]
  · rw [← List.append_assoc]
    exact (List.prefix_append _ (Text.line rest 1)).length_le
  · rw [← List.append_assoc, List.getElem?_append_right (Nat.le_refl _),
      Nat.sub_self, ← List.head?_eq_getElem?, Text.head?_line_one]

/-- The last line of an excerpt is a caret, and the line above it shows the
place of the error. The caret has as many characters before it as the place
has in the line above, if and only if the line is one of the first nine
hundred and ninety-nine. -/
theorem parse_error_caret_iff {s : Text} {e : TemplateError}
    (h : parse s = .error e) :
    ∃ before rest printed under : Text, ∃ column : Nat,
      s = before ++ rest ∧ e.position.offset = before.byteSize
      ∧ ((e.diagnostic.excerpt s).splitOn '\n').drop 3
        = [printed, under ++ ['^']]
      ∧ ShowsPlace printed before rest column
      ∧ (under.length = column ↔ e.position.line < 1000) := by
  obtain ⟨rest, hplace, hposition, hmessage⟩ := exists_place_of_parse_error h
  obtain ⟨before, rfl, hpair⟩ := hplace.exists_cut
  rw [Position.ofRest_append] at hposition
  have hplace := hposition.trans (Position.ofOffset_append before rest)
  have hlines :=
    Diagnostic.splitOn_excerpt (d := e.diagnostic) hmessage (before ++ rest)
  have hwidth := Diagnostic.length_margin_iff (before.count '\n' + 1)
  refine ⟨before, rest, _, Diagnostic.caretMargin
    ++ Text.spaces before.lastLine.length, _,
    rfl, by rw [hplace], ?_, showsPlace_of_cut hpair, ?_⟩
  · rw [hlines, Diagnostic.excerptLines, TemplateError.diagnostic, hplace]
    rfl
  · rw [hplace, ← hwidth, List.length_append, Text.spaces,
      List.length_replicate]
    omega

/-- A letter that starts no attribute, on the second of two lines with a
carriage return and line feed between them: nine characters are before it
and before the caret. -/
theorem parse_error_caret_second_line :
    ∃ e, parse "é\r\n<p é>".toList = .error e ∧ e.position = ⟨7, 2, 4⟩
      ∧ ((e.diagnostic.excerpt "é\r\n<p é>".toList).splitOn '\n').drop 3
        = ["  2 | <p é>".toList, "    |    ^".toList]
      ∧ ∃ before rest : Text, "é\r\n<p é>".toList = before ++ rest
        ∧ before.byteSize = 7
        ∧ ShowsPlace "  2 | <p é>".toList before rest 9 := by
  have hstuck : stuckAt "é\r\n<p é>".toList 0 = some "é>".toList := by
    decide +kernel
  have hparse : parse "é\r\n<p é>".toList
      = .error ⟨.unexpected (some 'é'), ⟨7, 2, 4⟩⟩ := by
    rw [parse_of_stuck hstuck]
    exact congrArg Except.error (by decide +kernel)
  have hlines :
      ((Diagnostic.excerpt ⟨(Fault.unexpected (some 'é')).message, ⟨7, 2, 4⟩⟩
      "é\r\n<p é>".toList).splitOn '\n').drop 3
        = ["  2 | <p é>".toList, "    |    ".toList ++ ['^']] := by
          decide +kernel
  obtain ⟨before, rest, printed, under, column, hs, hoffset, hdrop, hplace,
      hcaret⟩ :=
    parse_error_caret_iff hparse
  have hsame := List.cons.inj (hlines.symm.trans hdrop)
  have hunder := List.append_cancel_right (List.cons.inj hsame.2).1
  have hcolumn : (9 : Nat) = column := by
    rw [← hcaret.2 (by decide), ← hunder]
    rfl
  refine ⟨_, hparse, rfl, hlines, before, rest, hs, hoffset.symm, ?_⟩
  rw [hsame.1, hcolumn]
  exact hplace

/-- A template of a thousand lines, empty but for a bracket in the last. -/
def thousandLines : Text := List.replicate 999 '\n' ++ ['<']

/-- On the thousandth line the place has eight characters before it, and the
caret seven. -/
theorem caret_beside_place :
    ∃ e, parse thousandLines = .error e ∧ e.position = ⟨1000, 1000, 2⟩
      ∧ ((e.diagnostic.excerpt thousandLines).splitOn '\n').drop 3
        = ["1000 | <".toList, "    |  ".toList ++ ['^']]
      ∧ ShowsPlace "1000 | <".toList thousandLines [] 8
      ∧ "    |  ".toList.length = 7 := by
  have hstuck : stuckAt thousandLines 0 = some [] := by decide +kernel
  have hparse : parse thousandLines
      = .error ⟨.unexpected none, ⟨1000, 1000, 2⟩⟩ := by
    rw [parse_of_stuck hstuck]
    exact congrArg Except.error (by decide +kernel)
  refine ⟨_, hparse, rfl, by decide +kernel, ?_, rfl⟩
  constructor
  · decide +kernel
  · decide +kernel
  · decide +kernel
  · decide +kernel

end Stencil
