/-
Quoted text is a JSON string. `Text.Escaped` says once how a character can
stand between the quotes: as itself, by a short escape, or by its code;
everything else about quoted text follows from that, such as which
characters it can hold and that reading it as a JSON string gives the text
back.

`Json.StringLiteral l t` says that `l` is a JSON string that stands for
`t`, by the reader of JSON documents and its strict rules. Such a literal
ends where its closing quote is, whatever follows
(`Json.StringLiteral.unique`), so that generated code which is put
together from literals can be taken apart again.
-/
import Stencil.Text.Quoted
import Stencil.Json.Scalar

namespace Stencil

-- ========================================================= characters

namespace Text

/-- The ways in which a character is written between quotes. -/
inductive Escaped (c : Char) : Text → Prop
  | plain (notQuote : c ≠ '"') (notBackslash : c ≠ '\\')
      (shown : 0x20 ≤ c.toNat) :
      Escaped c [c]
  | short {e : Char} (value : Json.shortEscape? e = some c)
      (notCode : e ≠ 'u') :
      Escaped c ['\\', e]
  | code {a b : Char} {x y : Nat} (high : Json.hexValue? a = some x)
      (low : Json.hexValue? b = some y) (digits : a.isAlphanum ∧ b.isAlphanum)
      (value : c.toNat = 16 * x + y) (hidden : c.toNat < 0x20) :
      Escaped c ['\\', 'u', '0', '0', a, b]

/-- The hexadecimal form of a number below 32, by its last digit. -/
theorem hex_lt (n : Nat) (h : n < 0x20) :
    ∃ d, d.isAlphanum ∧ Json.hexValue? d = some (n % 16)
      ∧ hex n = if n < 0x10 then [d] else ['1', d] := by
  have hall : ∀ k < 0x20, (Nat.digitChar (k % 16)).isAlphanum
      ∧ Json.hexValue? (Nat.digitChar (k % 16)) = some (k % 16)
      ∧ hex k = if k < 0x10 then [Nat.digitChar (k % 16)]
        else ['1', Nat.digitChar (k % 16)] := by
    decide
  exact ⟨Nat.digitChar (n % 16), hall n h⟩

/-- Every character is written in one of these ways. -/
theorem escaped_escape (c : Char) : Escaped c (escape c) := by
  unfold escape
  iterate 7
    split
    · next h => subst h; exact .short rfl (by decide)
  split
  · next h =>
    obtain ⟨d, halnum, hd, hhex⟩ := hex_lt c.toNat (by omega)
    rw [if_pos h] at hhex
    rw [hhex]
    exact .code (a := '0') (x := 0) rfl hd ⟨rfl, halnum⟩ (by omega) (by omega)
  split
  · next hlow hhigh =>
    obtain ⟨d, halnum, hd, hhex⟩ := hex_lt c.toNat hhigh
    rw [if_neg hlow] at hhex
    rw [hhex]
    exact .code (a := '1') (x := 1) rfl hd ⟨rfl, halnum⟩ (by omega) hhigh
  · next hquote hback _ _ _ _ _ _ hshown =>
    exact .plain hquote hback (by omega)

/-- Letters and digits lie above the control characters. -/
theorem le_toNat_of_isAlphanum {c : Char} (h : c.isAlphanum) :
    0x20 ≤ c.toNat := by
  have hcontrol : ∀ n < 0x20, (Char.ofNat n).isAlphanum = false := by decide
  refine Nat.le_of_not_lt fun hlt => ?_
  have hfalse := hcontrol c.toNat hlt
  rw [Char.ofNat_toNat, h] at hfalse
  cases hfalse

/-- The second character of a short escape is a letter or one of the three
characters that stand for themselves. -/
theorem of_shortEscape? {c d : Char} (h : Json.shortEscape? c = some d) :
    (c = '"' ∨ c = '\\' ∨ c = '/') ∨ c.isAlphanum := by
  unfold Json.shortEscape? at h
  split at h
  · next hc =>
    left
    simpa [or_assoc] using hc
  iterate 5
    split at h
    · next hc => subst hc; exact Or.inr rfl
  cases h

/-- What stands between the quotes is shown, and is part of an escape or a
character of the text. -/
theorem Escaped.mem {c d : Char} {e : Text} (h : Escaped c e) (hd : d ∈ e) :
    0x20 ≤ d.toNat
      ∧ ((d = '"' ∨ d = '\\' ∨ d = '/') ∨ d.isAlphanum ∨ d = c) := by
  have halnum : ∀ x : Char, x.isAlphanum → 0x20 ≤ x.toNat
      ∧ ((x = '"' ∨ x = '\\' ∨ x = '/') ∨ x.isAlphanum ∨ x = c) :=
    fun x hx => ⟨le_toNat_of_isAlphanum hx, Or.inr (Or.inl hx)⟩
  have hback : 0x20 ≤ '\\'.toNat
      ∧ (('\\' = '"' ∨ '\\' = '\\' ∨ '\\' = '/') ∨ '\\'.isAlphanum
        ∨ '\\' = c) :=
    ⟨by decide, by simp⟩
  cases h with
  | plain _ _ hshown =>
      obtain rfl := List.mem_singleton.1 hd
      exact ⟨hshown, by simp⟩
  | @short e hvalue _ =>
      rcases List.mem_cons.1 hd with rfl | hd
      · exact hback
      · obtain rfl := List.mem_singleton.1 hd
        rcases of_shortEscape? hvalue with hmark | hletter
        · refine ⟨?_, Or.inl hmark⟩
          rcases hmark with rfl | rfl | rfl <;> decide
        · exact halnum _ hletter
  | @code a b x y _ _ hdigits _ _ =>
      simp only [List.mem_cons, List.not_mem_nil, or_false] at hd
      rcases hd with rfl | rfl | rfl | rfl | rfl | rfl
      · exact hback
      · exact halnum _ rfl
      · exact halnum _ rfl
      · exact halnum _ rfl
      · exact halnum _ hdigits.1
      · exact halnum _ hdigits.2

/-- What a quoted text holds, beside the characters of the text. -/
theorem of_mem_quote {d : Char} {t : Text} (h : d ∈ quote t) :
    0x20 ≤ d.toNat
      ∧ ((d = '"' ∨ d = '\\' ∨ d = '/') ∨ d.isAlphanum ∨ d ∈ t) := by
  unfold quote at h
  rcases List.mem_cons.1 h with rfl | h
  · exact ⟨by decide, by simp⟩
  rcases List.mem_append.1 h with h | h
  · obtain ⟨c, hc, hd⟩ := List.mem_flatMap.1 h
    obtain ⟨hshown, hmark | halnum | rfl⟩ := (escaped_escape c).mem hd
    · exact ⟨hshown, Or.inl hmark⟩
    · exact ⟨hshown, Or.inr (Or.inl halnum)⟩
    · exact ⟨hshown, Or.inr (Or.inr hc)⟩
  · obtain rfl := List.mem_singleton.1 h
    exact ⟨by decide, by simp⟩

end Text

-- ======================================================= JSON strings

namespace Json

/-- A reader succeeds with a value and leaves a text. -/
def Takes {α : Type} {s : Text} (result : Except JsonFailure (Taken α s))
    (value : α) (rest : Text) : Prop :=
  ∃ taken, result = .ok taken ∧ taken.value = value ∧ taken.rest = rest

/-- The text `l` is a JSON string that stands for `t`. -/
def StringLiteral (l t : Text) : Prop :=
  ∃ s, l = '"' :: s ∧ Takes (readString .strict s) t []

theorem Takes.unique {α : Type} {s : Text}
    {result : Except JsonFailure (Taken α s)} {v v' : α} {r r' : Text}
    (h : Takes result v r) (h' : Takes result v' r') :
    v = v' ∧ r = r' := by
  obtain ⟨u, hu, rfl, rfl⟩ := h
  obtain ⟨u', hu', rfl, rfl⟩ := h'
  rw [hu] at hu'
  cases hu'
  exact ⟨rfl, rfl⟩

theorem takes_ok {α : Type} {s : Text} {taken : Taken α s} {v : α} {r : Text} :
    Takes (.ok taken) v r ↔ taken.value = v ∧ taken.rest = r := by
  simp [Takes]

theorem not_takes_error {α : Type} {s : Text} {e : JsonFailure} {v : α}
    {r : Text} :
    ¬ Takes (.error e : Except JsonFailure (Taken α s)) v r := by
  simp [Takes]

theorem takes_ofTail {α : Type} {s t : Text} {h : t.length ≤ s.length}
    {result : Except JsonFailure (Taken α t)} {v : α} {r : Text} :
    Takes (result.map (Taken.ofTail h)) v r ↔ Takes result v r := by
  cases result with
  | error e => simp [Except.map, not_takes_error]
  | ok u => simp [Except.map, takes_ok, Taken.ofTail]

/-- One more character in front of a string. -/
theorem takes_cons {s t : Text} {h : t.length ≤ s.length} {c : Char}
    {result : Except JsonFailure (Taken Text t)} {v r : Text} :
    Takes (result.map fun u => (u.map (c :: ·)).ofTail h : Except JsonFailure
      (Taken Text s)) v r
      ↔ ∃ w, v = c :: w ∧ Takes result w r := by
  cases result with
  | error e => simp [Except.map, not_takes_error]
  | ok u =>
      simp only [Except.map, takes_ok, Taken.ofTail, Taken.map]
      constructor
      · intro h
        obtain ⟨rfl, rfl⟩ := h
        exact ⟨_, rfl, rfl, rfl⟩
      · intro h
        obtain ⟨w, rfl, rfl, rfl⟩ := h
        exact ⟨rfl, rfl⟩

/-- A code unit is four hexadecimal digits. -/
theorem takes_readCodeUnit_iff {s q : Text} {n : Nat} :
    Takes (readCodeUnit s) n q
      ↔ ∃ a b c d, s = a :: b :: c :: d :: q ∧ hexQuad? a b c d = some n := by
  constructor
  · intro h
    unfold readCodeUnit at h
    split at h
    · exact absurd h not_takes_error
    · split at h
      · next a b c d rest _ =>
        split at h
        · next n' hn =>
          obtain ⟨rfl, rfl⟩ := takes_ok.1 h
          exact ⟨a, b, c, d, rfl, hn⟩
        · exact absurd h not_takes_error
      · exact absurd h not_takes_error
  · intro h
    obtain ⟨a, b, c, d, rfl, hn⟩ := h
    have hsize : ¬ Text.byteSize ((a :: b :: c :: d :: q).take 4) < 4 := by
      have ha := a.utf8Size_pos
      have hb := b.utf8Size_pos
      have hc := c.utf8Size_pos
      have hd := d.utf8Size_pos
      simp only [List.take_succ_cons, List.take_zero, Text.byteSize_cons,
        Text.byteSize_nil]
      omega
    rw [readCodeUnit, if_neg hsize]
    simp only [hn]
    exact takes_ok.2 ⟨rfl, rfl⟩

theorem Takes.readCodeUnit_append {s q : Text} {n : Nat}
    (h : Takes (readCodeUnit s) n q) (r : Text) :
    Takes (readCodeUnit (s ++ r)) n (q ++ r) := by
  obtain ⟨a, b, c, d, rfl, hn⟩ := takes_readCodeUnit_iff.1 h
  exact takes_readCodeUnit_iff.2 ⟨a, b, c, d, rfl, hn⟩

/-- The second half of a pair leaves what follows it alone. -/
theorem Takes.readSecondHalf_append {high : Nat} {s q : Text} {c : Char}
    (h : Takes (readSecondHalf high s) c q) (r : Text) :
    Takes (readSecondHalf high (s ++ r)) c (q ++ r) := by
  unfold readSecondHalf at h
  split at h
  · exact absurd h not_takes_error
  · exact absurd h not_takes_error
  · next s' =>
    split at h
    · exact absurd h not_takes_error
    · next u hu =>
      split at h
      · next hlow =>
        obtain ⟨rfl, rfl⟩ := takes_ok.1 h
        obtain ⟨u', hu', hvalue, hrest⟩ :=
          Takes.readCodeUnit_append ⟨u, hu, rfl, rfl⟩ r
        simp only [List.cons_append, readSecondHalf, hu', hvalue, if_pos hlow]
        simp only [takes_ok, hrest, and_self]
      · exact absurd h not_takes_error
  · exact absurd h not_takes_error

/-- An escaped code unit leaves what follows it alone. -/
theorem Takes.readUnicode_append {s q : Text} {c : Char}
    (h : Takes (readUnicode .strict s) c q) (r : Text) :
    Takes (readUnicode .strict (s ++ r)) c (q ++ r) := by
  unfold readUnicode at h
  split at h
  · exact absurd h not_takes_error
  · next u hu =>
    obtain ⟨u', hu', hvalue, hrest⟩ :=
      Takes.readCodeUnit_append ⟨u, hu, rfl, rfl⟩ r
    simp only [reduceCtorEq, if_false] at h
    simp only [readUnicode, hu', hvalue, reduceCtorEq, if_false]
    split at h
    · exact absurd h not_takes_error
    · next hlow =>
      rw [if_neg hlow]
      split at h
      · next hhigh =>
        rw [if_pos hhigh, takes_ofTail, hrest]
        exact (takes_ofTail.1 h).readSecondHalf_append r
      · next hhigh =>
        obtain ⟨rfl, rfl⟩ := takes_ok.1 h
        rw [if_neg hhigh]
        exact takes_ok.2 ⟨congrArg Char.ofNat hvalue, hrest⟩

/-- An escape leaves what follows it alone. -/
theorem Takes.readEscape_append {s q : Text} {c : Char}
    (h : Takes (readEscape .strict s) c q) (r : Text) :
    Takes (readEscape .strict (s ++ r)) c (q ++ r) := by
  unfold readEscape at h
  split at h
  · exact absurd h not_takes_error
  · next e s' =>
    rw [List.cons_append, readEscape]
    split at h
    · next he =>
      rw [if_pos he, takes_ofTail]
      exact (takes_ofTail.1 h).readUnicode_append r
    · next he =>
      rw [if_neg he]
      split at h
      · next d hd =>
        obtain ⟨rfl, rfl⟩ := takes_ok.1 h
        exact takes_ok.2 ⟨rfl, rfl⟩
      · exact absurd h not_takes_error

/-- A string leaves what follows it alone. -/
theorem Takes.readString_append {s t q : Text}
    (h : Takes (readString .strict s) t q) (r : Text) :
    Takes (readString .strict (s ++ r)) t (q ++ r) := by
  fun_induction readString .strict s generalizing t q with
  | case1 => exact absurd h not_takes_error
  | case2 s =>
      obtain ⟨rfl, rfl⟩ := takes_ok.1 h
      rw [List.cons_append, readString, if_pos rfl]
      exact takes_ok.2 ⟨rfl, rfl⟩
  | case3 => exact absurd h not_takes_error
  | case4 s u hu hquote ih =>
      obtain ⟨w, rfl, hw⟩ := takes_cons.1 h
      obtain ⟨u', hu', hvalue, hrest⟩ :=
        Takes.readEscape_append ⟨u, hu, rfl, rfl⟩ r
      rw [List.cons_append, readString, if_neg hquote, if_pos rfl]
      simp only [hu']
      rw [takes_cons, hvalue, hrest]
      exact ⟨w, rfl, ih hw⟩
  | case5 => exact absurd h not_takes_error
  | case6 c s hquote hback hshown ih =>
      obtain ⟨w, rfl, hw⟩ := takes_cons.1 h
      rw [List.cons_append, readString, if_neg hquote, if_neg hback,
        if_neg hshown, takes_cons]
      exact ⟨w, rfl, ih hw⟩

/-- A character reads as it is written between the quotes. -/
theorem Takes.readString_escape {s t q : Text} {c : Char}
    (h : Takes (readString .strict s) t q) :
    Takes (readString .strict (Text.escape c ++ s)) (c :: t) q := by
  have hc := Text.escaped_escape c
  generalize Text.escape c = e at hc
  cases hc with
  | plain hquote hback hshown =>
      rw [List.singleton_append, readString, if_neg hquote, if_neg hback,
        if_neg (by omega), takes_cons]
      exact ⟨t, rfl, h⟩
  | @short e hvalue hcode =>
      have hread : readEscape .strict (e :: s)
          = .ok ⟨c, s, Text.length_lt_cons e s⟩ := by
        simp [readEscape, hcode, hvalue]
      simp only [List.cons_append, List.nil_append]
      rw [readString, if_neg (by decide), if_pos rfl]
      simp only [hread]
      exact takes_cons.2 ⟨t, rfl, h⟩
  | @code a b x y ha hb _ hvalue hhidden =>
      have hquad : hexQuad? '0' '0' a b = some c.toNat := by
        have h0 : hexValue? '0' = some 0 := rfl
        simp [hexQuad?, h0, ha, hb, hvalue]
      obtain ⟨u, hu, huvalue, hurest⟩ := takes_readCodeUnit_iff.2
        ⟨'0', '0', a, b, (rfl : '0' :: '0' :: a :: b :: s = _), hquad⟩
      have hread : Takes (readEscape .strict ('u' :: '0' :: '0' :: a :: b :: s))
          c s := by
        have hlow : isLowSurrogate u.value = false := by
          simp [isLowSurrogate, huvalue]; omega
        have hhigh : isHighSurrogate u.value = false := by
          simp [isHighSurrogate, huvalue]; omega
        rw [readEscape, if_pos rfl, takes_ofTail]
        simp only [readUnicode, hu, hlow, hhigh, reduceCtorEq, if_false,
          Bool.false_eq_true]
        exact takes_ok.2 ⟨by simp [Taken.map, huvalue], hurest⟩
      obtain ⟨w, hw, hwvalue, hwrest⟩ := hread
      simp only [List.cons_append, List.nil_append]
      rw [readString, if_neg (by decide), if_pos rfl]
      simp only [hw]
      rw [takes_cons, hwvalue, hwrest]
      exact ⟨t, rfl, h⟩

/-- A quoted text reads as the text. -/
theorem takes_readString_quote (t r : Text) :
    Takes (readString .strict (t.flatMap Text.escape ++ '"' :: r)) t r := by
  induction t with
  | nil =>
      rw [List.flatMap_nil, List.nil_append, readString, if_pos rfl]
      exact takes_ok.2 ⟨rfl, rfl⟩
  | cons c t ih =>
      rw [List.flatMap_cons, List.append_assoc]
      exact ih.readString_escape

theorem stringLiteral_quote (t : Text) : StringLiteral t.quote t :=
  ⟨_, rfl, takes_readString_quote t []⟩

/-- A string literal ends at its closing quote, whatever follows. -/
theorem StringLiteral.unique {l l' t t' r r' : Text} (h : StringLiteral l t)
    (h' : StringLiteral l' t') (heq : l ++ r = l' ++ r') :
    l = l' ∧ t = t' ∧ r = r' := by
  obtain ⟨s, rfl, hs⟩ := h
  obtain ⟨s', rfl, hs'⟩ := h'
  have hss : s ++ r = s' ++ r' := (List.cons.inj heq).2
  have hread := hs.readString_append r
  rw [hss] at hread
  obtain ⟨rfl, hr⟩ := hread.unique (hs'.readString_append r')
  rw [List.nil_append, List.nil_append] at hr
  subst hr
  exact ⟨by rw [List.append_cancel_right hss], rfl, rfl⟩

end Json

end Stencil
