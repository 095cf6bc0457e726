/-
Offsets of bytes and the places they have. An offset lies on the boundary
of two characters, inside of a character or behind the end of the text. On
a boundary the place is counted from what stands before it; inside of a
character it is that of the next boundary, and behind the end that of the
end.

The places are in the order of the offsets. The characters that start
before an offset are a first part of those that start before a later one
(`Position.startingBefore_prefix`), and every character moves a place
ahead, a line feed to a later line and any other to a later column
(`Position.lt_advance`).
-/
import Stencil.Proofs.Text.Position
import Mathlib.Data.Prod.Lex

namespace Stencil

/-- The offset lies between two characters of the text, or at one of its
ends. -/
def Text.IsBoundary (t : Text) (offset : Nat) : Prop :=
  ∃ before rest, t = before ++ rest ∧ before.byteSize = offset

namespace Position

/-- The line and the column of a position; places on one line are in the
order of their columns, others in that of their lines. -/
def place (p : Position) : Nat ×ₗ Nat := toLex (p.line, p.column)

-- ========================================== characters before an offset

theorem startingBefore_nil (offset : Nat) : startingBefore offset [] = [] := by
  cases offset <;> rfl

/-- Behind the end all characters start before the offset. -/
theorem startingBefore_of_le {source : Text} {offset : Nat}
    (h : source.byteSize ≤ offset) :
    startingBefore offset source = source := by
  have hadd := startingBefore_add source [] (offset - source.byteSize)
  rwa [Nat.add_sub_cancel' h, startingBefore_nil, List.append_nil] at hadd

/-- Inside of a character, that character is the last to start before the
offset. -/
theorem startingBefore_inside {before rest : Text} {c : Char} {offset : Nat}
    (hstart : before.byteSize < offset)
    (hend : offset ≤ Text.byteSize (before ++ [c])) :
    startingBefore offset (before ++ c :: rest) = before ++ [c] := by
  obtain ⟨n, rfl⟩ : ∃ n, offset = before.byteSize + (n + 1) :=
    ⟨offset - before.byteSize - 1, by omega⟩
  have hstop : n + 1 - c.utf8Size = 0 := by
    simp only [Text.byteSize_append, Text.byteSize_cons,
      Text.byteSize_nil] at hend
    omega
  rw [startingBefore_add, startingBefore, hstop, startingBefore]

/-- What starts before an offset starts before every later one. -/
theorem startingBefore_prefix (source : Text) {a b : Nat} (h : a ≤ b) :
    startingBefore a source <+: startingBefore b source := by
  induction source generalizing a b with
  | nil =>
      rw [startingBefore_nil]
      exact List.nil_prefix
  | cons c t ih =>
      cases a with
      | zero => exact List.nil_prefix
      | succ a =>
          obtain ⟨b, rfl⟩ : ∃ n, b = n + 1 := ⟨b - 1, by omega⟩
          rw [startingBefore, startingBefore]
          exact (List.prefix_cons_inj c).2 (ih (by omega))

-- ======================================================== the order

theorem lt_advance (p : Nat × Nat) (c : Char) :
    toLex p < toLex (advance p c) := by
  rw [Prod.Lex.toLex_lt_toLex]
  unfold advance
  split
  · exact Or.inl (Nat.lt_succ_self p.1)
  · exact Or.inr ⟨rfl, Nat.lt_succ_self p.2⟩

theorem le_foldl_advance (t : Text) (p : Nat × Nat) :
    toLex p ≤ toLex (t.foldl advance p) := by
  induction t generalizing p with
  | nil => exact le_refl _
  | cons c t ih => exact (lt_advance p c).le.trans (ih (advance p c))

/-- Characters move a place ahead. -/
theorem lt_foldl_advance {t : Text} (ht : t ≠ []) (p : Nat × Nat) :
    toLex p < toLex (t.foldl advance p) := by
  obtain ⟨c, t, rfl⟩ := List.exists_cons_of_ne_nil ht
  exact (lt_advance p c).trans_le (le_foldl_advance t (advance p c))

theorem place_ofOffset (source : Text) (offset : Nat) :
    (ofOffset source offset).place = toLex
    ((startingBefore offset source).foldl advance (1, 1)) :=
  rfl

theorem place_mono (source : Text) {a b : Nat} (h : a ≤ b) :
    (ofOffset source a).place ≤ (ofOffset source b).place := by
  obtain ⟨t, ht⟩ := startingBefore_prefix source h
  rw [place_ofOffset, place_ofOffset, ← ht, List.foldl_append]
  exact le_foldl_advance t _

/-- Between two boundaries there is at least one character. -/
theorem place_strictMono {source : Text} {a b : Nat} (ha : source.IsBoundary a)
    (hb : source.IsBoundary b) (h : a < b) :
    (ofOffset source a).place < (ofOffset source b).place := by
  obtain ⟨before, rest, rfl, rfl⟩ := ha
  obtain ⟨before', rest', heq, rfl⟩ := hb
  have hfirst := startingBefore_append before rest
  have hsecond : startingBefore before'.byteSize (before ++ rest)
      = before' := by
    rw [heq, startingBefore_append]
  obtain ⟨t, ht⟩ := startingBefore_prefix (before ++ rest) h.le
  rw [hfirst, hsecond] at ht
  have hne : t ≠ [] := by
    rintro rfl
    rw [List.append_nil] at ht
    rw [ht] at h
    exact Nat.lt_irrefl _ h
  rw [place_ofOffset, place_ofOffset, hfirst, hsecond, ← ht, List.foldl_append]
  exact lt_foldl_advance hne _

-- ========================================================== the places

/-- What the position of an offset says of it. The places are in the order
of the offsets, and different on different boundaries; a boundary is told
by the line feeds before it and the characters since the last of them; any
other offset has the place of the boundary behind it, or of the end. -/
theorem ofOffset_faithful (source : Text) :
    (∀ a b, a ≤ b → (ofOffset source a).place ≤ (ofOffset source b).place)
      ∧ (∀ a b, source.IsBoundary a → source.IsBoundary b → a < b →
        (ofOffset source a).place < (ofOffset source b).place)
      ∧ (∀ before rest : Text, source = before ++ rest →
        ofOffset source before.byteSize
          = ⟨before.byteSize, before.count '\n' + 1,
            before.lastLine.length + 1⟩)
      ∧ (∀ (before rest : Text) (c : Char) (offset : Nat),
        source = before ++ c :: rest →
        before.byteSize < offset → offset < Text.byteSize (before ++ [c]) →
        (ofOffset source offset).place
          = (ofOffset source (Text.byteSize (before ++ [c]))).place)
      ∧ ∀ offset, source.byteSize ≤ offset →
        (ofOffset source offset).place
          = (ofOffset source source.byteSize).place := by
  refine ⟨fun a b => place_mono source, fun a b => place_strictMono, ?_, ?_, ?_⟩
  · rintro before rest rfl
    exact ofOffset_append before rest
  · rintro before rest c offset rfl hstart hend
    rw [place_ofOffset, place_ofOffset, startingBefore_inside hstart hend.le,
      startingBefore_inside (hstart.trans hend) (Nat.le_refl _)]
  · intro offset hoffset
    rw [place_ofOffset, place_ofOffset, startingBefore_of_le hoffset,
      startingBefore_of_le (Nat.le_refl _)]

/-- A letter of two bytes on the first of two lines, with an offset inside of
the letter and one behind the end. -/
theorem ofOffset_faithful_accent :
    let source : Text := "aé\nb"
    (ofOffset source 2).place = (ofOffset source 3).place
      ∧ (ofOffset source 1).place < (ofOffset source 3).place
      ∧ (ofOffset source 2).place ≤ (ofOffset source 4).place
      ∧ ofOffset source 4 = ⟨4, 2, 1⟩
      ∧ (ofOffset source 9).place = (ofOffset source 5).place := by
  intro source
  obtain ⟨hmono, hstrict, hboundary, hinside, hbehind⟩ :=
    ofOffset_faithful source
  have hfirst : source.IsBoundary 1 := ⟨"a".toList, "é\nb".toList, rfl, rfl⟩
  have hsecond : source.IsBoundary 3 := ⟨"aé".toList, "\nb".toList, rfl, rfl⟩
  refine ⟨?_, hstrict 1 3 hfirst hsecond (by decide),
    hmono 2 4 (by decide), ?_, ?_⟩
  · exact hinside "a".toList "\nb".toList 'é' 2 rfl (by decide) (by decide)
  · exact hboundary "aé\n".toList "b".toList rfl
  · exact hbehind 9 (by decide)

end Position

end Stencil
