/-
Words, numbers and strings, and the readers of them. As with the spelling
of numbers, a scalar that is spelled is read with whatever follows left
over, and what has been read was spelled. Only a number needs to know what
follows it: every other scalar ends by itself.

By the loose rules a reader gives no value in particular. So a text that
is spelled is read as some value, and by the strict rules as the value that
it spells.
-/
import Stencil.Proofs.Json.Numbers
import Stencil.Proofs.Text.Quoted

namespace Stencil

-- ============================================================= readers

namespace Taken

/-- A reader succeeds with a value and leaves a text, whatever its failures
are. -/
def Gives {ε α : Type} {s : Text} (result : Except ε (Taken α s)) (value : α)
    (rest : Text) :
    Prop :=
  ∃ taken, result = .ok taken ∧ taken.value = value ∧ taken.rest = rest

variable {ε α β : Type} {s t : Text}

theorem gives_ok {taken : Taken α s} {v : α} {rest : Text} :
    Gives (.ok taken : Except ε (Taken α s)) v rest
      ↔ taken.value = v ∧ taken.rest = rest := by
  simp [Gives]

theorem not_gives_error {e : ε} {v : α} {rest : Text} :
    ¬ Gives (.error e : Except ε (Taken α s)) v rest := by
  simp [Gives]

/-- A reader whose value is changed and whose text is kept. -/
theorem gives_map_iff {result : Except ε (Taken α t)}
    {f : Taken α t → Taken β s} (g : α → β)
    (hf : ∀ u, (f u).value = g u.value ∧ (f u).rest = u.rest) {v : β}
    {rest : Text} :
    Gives (result.map f) v rest ↔ ∃ a, Gives result a rest ∧ v = g a := by
  cases result with
  | error e => simp [Except.map, not_gives_error]
  | ok u =>
      simp only [Except.map, gives_ok, hf]
      grind

/-- A reader that can give only values of one kind and leave only one text
either fails or gives such a value. -/
theorem gives_cases {result : Except ε (Taken α s)} {P : α → Prop} {rest : Text}
    (h : ∀ a rest', Gives result a rest' ↔ rest' = rest ∧ P a) :
    (∃ e, result = .error e ∧ ∀ a, ¬ P a)
      ∨ ∃ t, result = .ok t ∧ t.rest = rest ∧ ∀ a, P a ↔ t.value = a := by
  cases result with
  | error e =>
      simp only [not_gives_error, false_iff, not_and] at h
      exact .inl ⟨e, rfl, fun a => h a rest rfl⟩
  | ok t =>
      simp only [gives_ok] at h
      obtain ⟨hrest, -⟩ := (h t.value t.rest).1 ⟨rfl, rfl⟩
      subst hrest
      exact .inr ⟨t, rfl, rfl, fun a => by simpa using (h a t.rest).symm⟩

end Taken

namespace Json

-- ============================================================= escapes

/-- The second half of a pair is a code unit of its own. -/
theorem takes_readSecondHalf_iff {high : Nat} {s rest : Text} {c : Char} :
    Takes (readSecondHalf high s) c rest
      ↔ ∃ a b d e low, s = '\\' :: 'u' :: a :: b :: d :: e :: rest
        ∧ hexQuad? a b d e = some low ∧ isLowSurrogate low
        ∧ pairChar high low = c := by
  unfold pairChar
  constructor
  · intro h
    unfold readSecondHalf at h
    split at h
    · exact absurd h not_takes_error
    · exact absurd h not_takes_error
    · next r =>
      split at h
      · exact absurd h not_takes_error
      · next u hu =>
        split at h
        · next hlow =>
          simp only [takes_ok] at h
          obtain ⟨hc, hrest⟩ := h
          obtain ⟨a, b, d, e, hr, hquad⟩ :=
            takes_readCodeUnit_iff.1 ⟨u, hu, rfl, hrest⟩
          exact ⟨a, b, d, e, u.value, congrArg ('\\' :: 'u' :: ·) hr,
            hquad, hlow, hc⟩
        · exact absurd h not_takes_error
    · exact absurd h not_takes_error
  · intro h
    obtain ⟨a, b, d, e, low, rfl, hquad, hlow, rfl⟩ := h
    obtain ⟨u, hu, hvalue, hrest⟩ := takes_readCodeUnit_iff.2
      ⟨a, b, d, e, (rfl : a :: b :: d :: e :: rest = _), hquad⟩
    simp only [readSecondHalf, hu, hvalue, hlow, if_true, takes_ok,
      hrest, and_self]

/-- A code unit that stands by itself. -/
theorem takes_readUnicode_unit {rules : Rules} {a b c d : Char} {n : Nat}
    (digits : hexQuad? a b c d = some n)
    (whole : rules = .strict
      → isHighSurrogate n = false ∧ isLowSurrogate n = false) (s : Text) :
    Takes (readUnicode rules (a :: b :: c :: d :: s)) (Char.ofNat n) s := by
  obtain ⟨u, hu, hvalue, hrest⟩ := takes_readCodeUnit_iff.2
    ⟨a, b, c, d, (rfl : a :: b :: c :: d :: s = _), digits⟩
  simp only [readUnicode, hu, hvalue]
  cases rules with
  | loose =>
      rw [if_pos rfl]
      exact takes_ok.2 ⟨congrArg Char.ofNat hvalue, hrest⟩
  | strict =>
      obtain ⟨hhigh, hlow⟩ := whole rfl
      simp only [hhigh, hlow, reduceCtorEq, if_false, Bool.false_eq_true]
      exact takes_ok.2 ⟨congrArg Char.ofNat hvalue, hrest⟩

/-- Two code units that make a pair. -/
theorem takes_readUnicode_pair {a b c d a' b' c' d' : Char} {high low : Nat}
    (first : hexQuad? a b c d = some high) (isHigh : isHighSurrogate high)
    (second : hexQuad? a' b' c' d' = some low) (isLow : isLowSurrogate low)
    (s : Text) :
    Takes (readUnicode .strict (a :: b :: c :: d :: '\\' :: 'u' :: a' :: b'
      :: c' :: d' :: s))
      (pairChar high low) s := by
  obtain ⟨u, hu, hvalue, hrest⟩ := takes_readCodeUnit_iff.2
    ⟨a, b, c, d, (rfl : a :: b :: c :: d :: '\\' :: 'u' :: a' :: b' :: c' :: d'
      :: s = _), first⟩
  have hnotLow : isLowSurrogate high = false := by
    simp only [isHighSurrogate, Bool.and_eq_true, decide_eq_true_eq] at isHigh
    simp only [isLowSurrogate, Bool.and_eq_false_iff, decide_eq_false_iff_not]
    omega
  simp only [readUnicode, hu, hvalue, isHigh, hnotLow, reduceCtorEq,
    if_false, if_true, Bool.false_eq_true]
  rw [takes_ofTail, hrest, takes_readSecondHalf_iff]
  exact ⟨a', b', c', d', low, rfl, second, isLow, rfl⟩

theorem charSpells_of_readUnicode {rules : Rules} {s rest : Text} {c : Char}
    (h : Takes (readUnicode rules s) c rest) :
    ∃ p, s = p ++ rest ∧ CharSpells rules ('\\' :: 'u' :: p) c := by
  unfold readUnicode at h
  split at h
  · exact absurd h not_takes_error
  · next u hu =>
    obtain ⟨a, b, d, e, hs, hquad⟩ := takes_readCodeUnit_iff.1 ⟨u, hu, rfl, rfl⟩
    split at h
    · next hloose =>
      obtain ⟨rfl, rfl⟩ := takes_ok.1 h
      refine ⟨[a, b, d, e], hs, .unit hquad fun hstrict => ?_⟩
      rw [hloose] at hstrict
      cases hstrict
    · split at h
      · exact absurd h not_takes_error
      · next hlow =>
        split at h
        · next hhigh =>
          obtain ⟨a', b', d', e', low, hrest, hquad', hislow, rfl⟩ :=
            takes_readSecondHalf_iff.1 (takes_ofTail.1 h)
          rw [hrest] at hs
          exact ⟨[a, b, d, e, '\\', 'u', a', b', d', e'], hs,
            .pair hquad hhigh hquad' hislow⟩
        · next hhigh =>
          obtain ⟨rfl, rfl⟩ := takes_ok.1 h
          exact ⟨[a, b, d, e], hs,
            .unit hquad fun _ => ⟨eq_false_of_ne_true hhigh,
              eq_false_of_ne_true hlow⟩⟩

/-- An escape is one character or a code unit. -/
theorem takes_readEscape_iff {rules : Rules} {s rest : Text} {c : Char} :
    Takes (readEscape rules s) c rest
      ↔ (∃ e, s = e :: rest ∧ shortEscape? e = some c)
        ∨ ∃ u, s = 'u' :: u ∧ Takes (readUnicode rules u) c rest := by
  have hcode : shortEscape? 'u' = none := by decide
  cases s with
  | nil => simp [readEscape, not_takes_error]
  | cons e r =>
      rw [readEscape]
      by_cases hu : e = 'u'
      · subst hu
        simp [takes_ofTail, hcode]
      · rw [if_neg hu]
        cases he : shortEscape? e with
        | none => simp [not_takes_error, hu, he]
        | some d =>
            simp only [takes_ok]
            grind

-- ============================================================= strings

theorem takes_readString_backslash_iff {rules : Rules} {u v rest : Text} :
    Takes (readString rules ('\\' :: u)) v rest
      ↔ ∃ c r t, Takes (readEscape rules u) c r
        ∧ Takes (readString rules r) t rest
        ∧ v = c :: t := by
  rw [readString, if_neg (by decide), if_pos rfl]
  cases hread : readEscape rules u with
  | error e => simp [not_takes_error]
  | ok taken =>
      simp only [takes_cons, takes_ok]
      constructor
      · intro h
        obtain ⟨t, rfl, ht⟩ := h
        exact ⟨_, _, t, ⟨rfl, rfl⟩, ht, rfl⟩
      · intro h
        obtain ⟨c, r, t, ⟨rfl, rfl⟩, ht, rfl⟩ := h
        exact ⟨t, rfl, ht⟩

theorem takes_readString_plain {rules : Rules} {u t rest : Text} {c : Char}
    (notQuote : c ≠ '"') (notBackslash : c ≠ '\\') (shown : 0x20 ≤ c.toNat)
    (h : Takes (readString rules u) t rest) :
    Takes (readString rules (c :: u)) (c :: t) rest := by
  rw [readString, if_neg notQuote, if_neg notBackslash, if_neg (by omega),
    takes_cons]
  exact ⟨t, rfl, h⟩

/-- A spelled character is read, whatever string follows. By the loose
rules a pair may be read as two characters. -/
theorem CharSpells.read {rules : Rules} {p s t rest : Text} {c : Char}
    (h : CharSpells rules p c) (ht : Takes (readString rules s) t rest) :
    ∃ cs, Takes (readString rules (p ++ s)) (cs ++ t) rest
      ∧ (rules = .strict → cs = [c]) := by
  -- one escape behind another text
  have hescape : ∀ {u r v : Text} {d : Char}, Takes (readEscape rules u) d r →
      Takes (readString rules r) v rest
        → Takes (readString rules ('\\' :: u)) (d :: v) rest :=
    fun hd hv => takes_readString_backslash_iff.2 ⟨_, _, _, hd, hv, rfl⟩
  have hunicode : ∀ {u r : Text} {d : Char}, Takes (readUnicode rules u) d r →
      Takes (readEscape rules ('u' :: u)) d r :=
    fun hd => takes_readEscape_iff.2 (.inr ⟨_, rfl, hd⟩)
  cases h with
  | plain notQuote notBackslash shown =>
      exact ⟨[c], takes_readString_plain notQuote notBackslash shown ht,
        fun _ => rfl⟩
  | short value =>
      exact ⟨[c], hescape (takes_readEscape_iff.2 (.inl ⟨_, rfl, value⟩)) ht,
        fun _ => rfl⟩
  | unit digits whole =>
      exact ⟨[_], hescape (hunicode (takes_readUnicode_unit digits whole s)) ht,
        fun _ => rfl⟩
  | pair first isHigh second isLow =>
      cases rules with
      | strict =>
          exact ⟨[_],
            hescape (hunicode (takes_readUnicode_pair first isHigh second isLow
              s)) ht, fun _ => rfl⟩
      | loose =>
          have hunit : ∀ {a b c d : Char} {n : Nat}, hexQuad? a b c d = some n
              → ∀ u : Text,
              Takes (readUnicode .loose (a :: b :: c :: d :: u))
                (Char.ofNat n) u :=
            fun digits => takes_readUnicode_unit digits nofun
          have hsecond := hescape (hunicode (hunit second s)) ht
          exact ⟨[_, _], hescape (hunicode (hunit first _)) hsecond, nofun⟩

/-- A spelled string is read up to its closing quote. -/
theorem StringSpells.read {rules : Rules} {p t : Text}
    (h : StringSpells rules p t) (rest : Text) :
    ∃ t', Takes (readString rules (p ++ '"' :: rest)) t' rest
      ∧ (rules = .strict → t' = t) := by
  induction h with
  | nil =>
      refine ⟨[], ?_, fun _ => rfl⟩
      rw [List.nil_append, readString, if_pos rfl]
      exact takes_ok.2 ⟨rfl, rfl⟩
  | cons head tail ih =>
      obtain ⟨t', ht', htail⟩ := ih
      obtain ⟨cs, hcs, hhead⟩ := head.read ht'
      rw [List.append_assoc]
      refine ⟨cs ++ t', hcs, fun hstrict => ?_⟩
      rw [hhead hstrict, htail hstrict, List.singleton_append]

/-- What has been read as a string was spelled as one. -/
theorem stringSpells_of_read {rules : Rules} {s t rest : Text}
    (h : Takes (readString rules s) t rest) :
    ∃ p, s = p ++ '"' :: rest ∧ StringSpells rules p t := by
  fun_induction readString rules s generalizing t rest with
  | case1 => exact absurd h not_takes_error
  | case2 s =>
      obtain ⟨rfl, rfl⟩ := takes_ok.1 h
      exact ⟨[], rfl, .nil⟩
  | case3 => exact absurd h not_takes_error
  | case4 s u hu hquote ih =>
      obtain ⟨w, rfl, hw⟩ := takes_cons.1 h
      obtain ⟨q, hq, hqw⟩ := ih hw
      rcases takes_readEscape_iff.1 ⟨u, hu, rfl, rfl⟩ with ⟨e, hs, he⟩
        | ⟨v, hs, hv⟩
      · refine ⟨'\\' :: e :: q, ?_, .cons (.short he) hqw⟩
        rw [hq] at hs
        rw [hs]
        rfl
      · obtain ⟨p, hp, hspells⟩ := charSpells_of_readUnicode hv
        refine ⟨('\\' :: 'u' :: p) ++ q, ?_, .cons hspells hqw⟩
        rw [hq] at hp
        simp [hs, hp]
  | case5 => exact absurd h not_takes_error
  | case6 c s hquote hback hshown ih =>
      obtain ⟨w, rfl, hw⟩ := takes_cons.1 h
      obtain ⟨q, rfl, hqw⟩ := ih hw
      exact ⟨c :: q, rfl, .cons (.plain hquote hback (by omega)) hqw⟩

-- ============================================================= scalars

theorem readWord_eq_ok_iff {w s r : Text} :
    readWord w s = .ok r ↔ s = w ++ r := by
  fun_induction readWord w s with
  | case1 s => simp
  | case2 => simp
  | case3 w c s ih => simpa using ih
  | case4 c w d s hne =>
      constructor
      · intro h
        cases h
      · intro h
        exact absurd (List.cons.inj h).1.symm hne

theorem takes_readLiteral_iff {tail r rest : Text} {value v : Json} {c : Char} :
    Takes (readLiteral tail value (c :: r)) v rest
      ↔ r = tail ++ rest ∧ v = value := by
  rw [readLiteral, ← readWord_eq_ok_iff]
  split
  · next e he => simp [he, not_takes_error]
  · next rest' hrest =>
    simp only [takes_ok, hrest, Except.ok.injEq]
    grind

theorem takes_readNumber_iff {rules : Rules} {s rest : Text} {n : Number} :
    Takes (readNumber rules s) n rest
      ↔ ∃ t, readNumberText s = .ok (t, rest)
        ∧ match rules with
          | .strict => t.value? = some n
          | .loose => n = .natural 0 := by
  unfold readNumber
  split
  · next t r h =>
    simp only [h, takes_ok, Except.ok.injEq, Prod.mk.injEq]
    grind
  · next e h => simp [h, not_takes_error]
  · next e h => simp [h, not_takes_error]
  · next t r h =>
    split
    · next n' hn =>
      simp only [h, takes_ok, Except.ok.injEq, Prod.mk.injEq]
      grind
    · next hn =>
      simp only [h, not_takes_error, Except.ok.injEq, Prod.mk.injEq, false_iff]
      grind

theorem takes_map_iff {α β : Type} {s t : Text}
    {result : Except JsonFailure (Taken α t)} {f : Taken α t → Taken β s}
    (g : α → β) (hf : ∀ u, (f u).value = g u.value ∧ (f u).rest = u.rest)
    {v : β} {rest : Text} :
    Takes (result.map f) v rest ↔ ∃ a, Takes result a rest ∧ v = g a :=
  Taken.gives_map_iff g hf

/-- A character that a number starts with is none that anything else
starts with. -/
theorem ne_of_startsNumber {c d : Char} (hc : c = '-' ∨ c.isDigit)
    (hd : (d = '-' || d.isDigit) = false) : c ≠ d := by
  intro h
  subst h
  simp only [Bool.or_eq_false_iff, decide_eq_false_iff_not] at hd
  rcases hc with hc | hc
  · exact hd.1 hc
  · rw [hd.2] at hc
    cases hc

end Json

theorem NumberText.Spells.head {p : Text} {t : NumberText}
    (h : NumberText.Spells p t) :
    ∃ c u, p = c :: u ∧ (c = '-' ∨ c.isDigit) := by
  obtain @⟨whole, f, e, fraction, exponent, isNegative, hwhole, -, -⟩ := h
  cases isNegative with
  | true => exact ⟨'-', _, rfl, .inl rfl⟩
  | false =>
      obtain ⟨c, u, rfl⟩ := List.exists_cons_of_ne_nil hwhole.ne_nil
      exact ⟨c, _, rfl, .inr (hwhole.digits c (List.mem_cons_self ..))⟩

namespace Json

/-- The first character of a value is no space and closes no array. -/
theorem Spells.head {rules : Rules} {p : Text} {v : Json}
    (h : Spells rules p v) :
    ∃ c u, p = c :: u ∧ isSpace c = false ∧ c ≠ ']'
      ∧ (v.depth = 0 → c ≠ '[' ∧ c ≠ '{') := by
  cases h with
  | null => exact ⟨'n', _, rfl, by decide⟩
  | bool b =>
      cases b with
      | true => exact ⟨'t', _, rfl, by decide⟩
      | false => exact ⟨'f', _, rfl, by decide⟩
  | number spelled _ =>
      obtain ⟨c, u, hp, hc⟩ := spelled.head
      have hne : ∀ d : Char, (d = '-' || d.isDigit) = false → c ≠ d :=
        fun d => ne_of_startsNumber hc
      refine ⟨c, u, hp, ?_, hne _ (by decide),
        fun _ => ⟨hne _ (by decide), hne _ (by decide)⟩⟩
      simp [isSpace, hne ' ' (by decide), hne '\n' (by decide),
        hne '\t' (by decide), hne '\r' (by decide)]
  | string _ => exact ⟨'"', _, rfl, by decide, by decide, fun _ => by decide⟩
  | array _ =>
      exact ⟨'[', _, rfl, by decide, by decide, fun h => by simp [depth] at h⟩
  | object _ =>
      exact ⟨'{', _, rfl, by decide, by decide, fun h => by simp [depth] at h⟩

/-- A value without brackets is read, if what follows cannot be more of
it. -/
theorem Spells.readScalar {rules : Rules} {p rest : Text} {v : Json}
    (h : Spells rules p v) (hflat : v.depth = 0)
    (hrest : NumberText.EndsBefore rest) :
    ∃ v', Takes (readScalar rules (p ++ rest)) v' rest
      ∧ (rules = .strict → v' = v) := by
  cases h with
  | null => exact ⟨.null, takes_readLiteral_iff.2 ⟨rfl, rfl⟩, fun _ => rfl⟩
  | bool b =>
      refine ⟨.bool b, ?_, fun _ => rfl⟩
      cases b with
      | true => exact takes_readLiteral_iff.2 ⟨rfl, rfl⟩
      | false => exact takes_readLiteral_iff.2 ⟨rfl, rfl⟩
  | @number p t n spelled value =>
      have hread := spelled.read hrest
      obtain ⟨c, u, rfl, hc⟩ := spelled.head
      have hne : ∀ d : Char, (d = '-' || d.isDigit) = false → c ≠ d :=
        fun d => ne_of_startsNumber hc
      obtain ⟨n', hn', hvalue⟩ : ∃ n',
          Takes (readNumber rules ((c :: u) ++ rest)) n' rest
          ∧ (rules = .strict → n' = n) := by
        cases rules with
        | strict =>
            exact ⟨n, takes_readNumber_iff.2 ⟨t, hread, value rfl⟩,
              fun _ => rfl⟩
        | loose =>
            exact ⟨.natural 0, takes_readNumber_iff.2 ⟨t, hread, rfl⟩, nofun⟩
      refine ⟨.number n', ?_, fun hstrict => by rw [hvalue hstrict]⟩
      rw [List.cons_append, Json.readScalar, if_neg (hne _ (by decide)),
        if_neg (hne _ (by decide)), if_neg (hne _ (by decide)),
        if_neg (hne _ (by decide)), if_pos (by simpa using hc)]
      exact (takes_map_iff Json.number (by simp [Taken.map])).2 ⟨n', hn', rfl⟩
  | @string p t spelled =>
      obtain ⟨t', ht', hvalue⟩ := spelled.read rest
      refine ⟨.string t', ?_, fun hstrict => by rw [hvalue hstrict]⟩
      rw [List.cons_append, List.append_assoc, List.singleton_append]
      exact (takes_map_iff Json.string (by simp)).2 ⟨t', ht', rfl⟩
  | array _ => simp [depth] at hflat
  | object _ => simp [depth] at hflat

/-- What has been read as a value without brackets was spelled as one. -/
theorem spells_of_readScalar {rules : Rules} {s rest : Text} {v : Json}
    (h : Takes (readScalar rules s) v rest) :
    ∃ p, s = p ++ rest ∧ Spells rules p v ∧ v.depth = 0 := by
  cases s with
  | nil => exact absurd h not_takes_error
  | cons c r =>
      rw [readScalar] at h
      split at h
      · next hc =>
        obtain ⟨rfl, rfl⟩ := takes_readLiteral_iff.1 h
        exact ⟨_, by rw [hc]; rfl, .null, rfl⟩
      split at h
      · next hc =>
        obtain ⟨rfl, rfl⟩ := takes_readLiteral_iff.1 h
        exact ⟨_, by rw [hc]; rfl, .bool true, rfl⟩
      split at h
      · next hc =>
        obtain ⟨rfl, rfl⟩ := takes_readLiteral_iff.1 h
        exact ⟨_, by rw [hc]; rfl, .bool false, rfl⟩
      split at h
      · next hc =>
        obtain ⟨t, ht, rfl⟩ := (takes_map_iff Json.string (by simp)).1 h
        obtain ⟨p, rfl, hspelled⟩ := stringSpells_of_read ht
        refine ⟨_, ?_, .string hspelled, rfl⟩
        rw [hc, List.cons_append, List.append_assoc, List.singleton_append]
      split at h
      · obtain ⟨n, hn, rfl⟩ :=
          (takes_map_iff Json.number (by simp [Taken.map])).1 h
        obtain ⟨t, ht, hvalue⟩ := takes_readNumber_iff.1 hn
        obtain ⟨p, hp, hspelled⟩ := NumberText.spells_of_read ht
        refine ⟨p, hp, .number hspelled fun hstrict => ?_, rfl⟩
        subst hstrict
        exact hvalue
      · exact absurd h not_takes_error

end Json

end Stencil
