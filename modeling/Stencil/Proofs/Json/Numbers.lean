/-
Numbers, and the reader of their spelling. Each reader accepts what the
grammar spells and nothing else, in two directions: a spelled text is read
with whatever follows left over, and what has been read was spelled.

A number is read as far as it goes, so it is read in full only where what
follows cannot be more of it (`NumberText.EndsBefore`).
-/
import Stencil.Proofs.Json.Grammar
import Stencil.Proofs.Text.Scan

namespace Stencil

-- ============================================================== digits

namespace Json

/-- Digits are read up to the first character that is none, one digit at
least. -/
theorem readDigits_eq_ok_iff {s ds r : Text} :
    readDigits s = .ok (ds, r)
      ↔ s = ds ++ r ∧ IsDigits ds ∧ ∀ c ∈ r.head?, c.isDigit = false := by
  constructor
  · intro h
    cases s with
    | nil => cases h
    | cons c s =>
        rw [readDigits] at h
        split at h
        · next hc =>
          obtain ⟨hds, hr⟩ := Prod.mk.inj (Except.ok.inj h)
          obtain ⟨hcut, hdigits, hstop⟩ :=
            (Text.scan_eq_iff Char.isDigit _ _ _).1 ⟨hds, hr⟩
          refine ⟨hcut, ⟨?_, hdigits⟩, hstop⟩
          rw [← hds, List.takeWhile_cons_of_pos hc]
          exact List.cons_ne_nil _ _
        · cases h
  · intro h
    obtain ⟨rfl, hdigits, hstop⟩ := h
    obtain ⟨c, t, rfl⟩ := List.exists_cons_of_ne_nil hdigits.ne_nil
    obtain ⟨htake, hdrop⟩ :=
      (Text.scan_eq_iff Char.isDigit _ _ _).2 ⟨rfl, hdigits.digits, hstop⟩
    have hc := hdigits.digits c (List.mem_cons_self ..)
    rw [List.cons_append] at htake hdrop
    rw [List.cons_append, readDigits, if_pos hc, splitDigits, htake, hdrop]

/-- The same of digits in front of a point, where a zero stands alone. -/
theorem readWhole_eq_ok_iff {s ds r : Text} :
    readWhole s = .ok (ds, r)
      ↔ s = ds ++ r ∧ IsWhole ds ∧ ∀ c ∈ r.head?, c.isDigit = false := by
  unfold readWhole
  split
  · next t =>
    constructor
    · intro h
      split at h
      · cases h
      · next hstop =>
        obtain ⟨rfl, rfl⟩ := Prod.mk.inj (Except.ok.inj h)
        refine ⟨rfl, ⟨⟨by simp, by simp⟩, fun _ => rfl⟩, ?_⟩
        intro c hc
        rw [Option.mem_def.1 hc] at hstop
        simpa using hstop
    · intro h
      obtain ⟨hcut, hwhole, hstop⟩ := h
      have hhead : ds.head? = some '0' := by
        obtain ⟨c, u, rfl⟩ := List.exists_cons_of_ne_nil hwhole.ne_nil
        rw [(List.cons.inj hcut).1]
        rfl
      obtain rfl := hwhole.zero hhead
      obtain rfl : t = r := (List.cons.inj hcut).2
      rw [if_neg]
      cases t with
      | nil => simp
      | cons c t => simp [hstop c rfl]
  · next hzero =>
    rw [readDigits_eq_ok_iff]
    refine and_congr_right fun hcut => and_congr_left fun _ => ?_
    constructor
    · intro hdigits
      refine ⟨hdigits, fun hhead => ?_⟩
      obtain ⟨u, rfl⟩ := List.head?_eq_some_iff.1 hhead
      exact absurd hcut (hzero (u ++ r))
    · intro hwhole
      exact hwhole.toIsDigits

end Json

-- ============================================================= numbers

namespace NumberText

/-- Whether a text that follows a number cannot be more of it. -/
def EndsBefore (rest : Text) : Prop :=
  ∀ c ∈ rest.head?, c.isDigit = false ∧ c ≠ '.' ∧ c ≠ 'e' ∧ c ≠ 'E'

/-- A fraction is read up to where it ends. Without one, a point may not
follow. -/
theorem FractionSpells.read {f rest : Text} {fraction : Option Text}
    (h : FractionSpells f fraction)
    (hdigit : ∀ c ∈ rest.head?, c.isDigit = false)
    (hpoint : rest.head? ≠ some '.') :
    Json.readFraction (f ++ rest) = .ok (fraction, rest) := by
  cases h with
  | absent =>
      rw [List.nil_append, Json.readFraction]
      rintro r rfl
      exact hpoint rfl
  | digits hdigits =>
      rw [List.cons_append, Json.readFraction,
        Json.readDigits_eq_ok_iff.2 ⟨rfl, hdigits, hdigit⟩]
      rfl

/-- What has been read as a fraction was spelled as one. -/
theorem fractionSpells_of_read {s rest : Text} {fraction : Option Text}
    (h : Json.readFraction s = .ok (fraction, rest)) :
    ∃ f, s = f ++ rest ∧ FractionSpells f fraction := by
  unfold Json.readFraction at h
  split at h
  · next r =>
    cases hread : Json.readDigits r with
    | error e =>
        rw [hread] at h
        cases h
    | ok found =>
        rw [hread] at h
        cases h
        obtain ⟨hcut, hdigits, -⟩ := Json.readDigits_eq_ok_iff.1 hread
        exact ⟨'.' :: found.1, by rw [hcut]; rfl, .digits hdigits⟩
  · cases h
    exact ⟨[], rfl, .absent⟩

/-- The sign of an exponent is told from its digits. -/
theorem SignSpells.read {sign ds : Text} {isNegative : Bool}
    (h : SignSpells sign isNegative) (hdigits : IsDigits ds) (rest : Text) :
    Json.readSign (sign ++ (ds ++ rest)) = (isNegative, ds ++ rest) := by
  cases h with
  | plus => rfl
  | minus => rfl
  | absent =>
      obtain ⟨c, t, rfl⟩ := List.exists_cons_of_ne_nil hdigits.ne_nil
      have hc := hdigits.digits c (List.mem_cons_self ..)
      rw [List.nil_append, List.cons_append]
      unfold Json.readSign
      split
      · next hplus =>
        rw [(List.cons.inj hplus).1] at hc
        cases hc
      · next hminus =>
        rw [(List.cons.inj hminus).1] at hc
        cases hc
      · rfl

/-- An exponent is read if what follows cannot be more of the number. -/
theorem ExponentSpells.read {e rest : Text} {exponent : Option (Bool × Text)}
    (h : ExponentSpells e exponent) (hrest : EndsBefore rest) :
    Json.readExponent (e ++ rest) = .ok (exponent, rest) := by
  cases h with
  | absent =>
      rw [List.nil_append]
      unfold Json.readExponent
      split
      · next c r =>
        obtain ⟨-, -, hsmall, hlarge⟩ := hrest c rfl
        rw [if_neg (by simp [hsmall, hlarge])]
      · rfl
  | @digits mark sign ds isNegative marked signed digits =>
      have hdigit : ∀ c ∈ rest.head?, c.isDigit = false :=
        fun c hc => (hrest c hc).1
      have hmark : (mark = 'e' || mark = 'E') = true := by simpa using marked
      rw [List.cons_append, Json.readExponent, if_pos hmark, List.append_assoc,
        signed.read digits rest]
      simp only [Json.readDigits_eq_ok_iff.2 ⟨rfl, digits, hdigit⟩]
      rfl

/-- What has been read as an exponent was spelled as one. -/
theorem exponentSpells_of_read {s rest : Text} {exponent : Option (Bool × Text)}
    (h : Json.readExponent s = .ok (exponent, rest)) :
    ∃ e, s = e ++ rest ∧ ExponentSpells e exponent := by
  unfold Json.readExponent at h
  split at h
  · next c r =>
    split at h
    · next hmark =>
      obtain ⟨sign, hcut, hsign⟩ : ∃ sign, r = sign ++ (Json.readSign r).2
          ∧ SignSpells sign (Json.readSign r).1 := by
        unfold Json.readSign
        split
        · exact ⟨['+'], rfl, .plus⟩
        · exact ⟨['-'], rfl, .minus⟩
        · exact ⟨[], rfl, .absent⟩
      cases hread : Json.readDigits (Json.readSign r).2 with
      | error e =>
          simp only [hread] at h
          cases h
      | ok found =>
          simp only [hread] at h
          cases h
          obtain ⟨hrest, hdigits, -⟩ := Json.readDigits_eq_ok_iff.1 hread
          refine ⟨c :: (sign ++ found.1), ?_,
            .digits (by simpa using hmark) hsign hdigits⟩
          rw [hcut, hrest, List.cons_append, List.append_assoc]
    · cases h
      exact ⟨[], rfl, .absent⟩
  · cases h
    exact ⟨[], rfl, .absent⟩

/-- Where the exponent may stand, there is no more of what is before it. -/
theorem ExponentSpells.head {e rest : Text} {exponent : Option (Bool × Text)}
    (h : ExponentSpells e exponent) (hrest : EndsBefore rest) :
    ∀ c ∈ (e ++ rest).head?, c.isDigit = false ∧ c ≠ '.' := by
  intro c hc
  cases h with
  | absent => exact ⟨(hrest c hc).1, (hrest c hc).2.1⟩
  | digits marked _ _ =>
      obtain rfl := Option.some.inj hc
      rcases marked with rfl | rfl <;> decide

/-- A fraction starts with no digit, so the digits before it end there. -/
theorem FractionSpells.head {f r : Text} {fraction : Option Text}
    (h : FractionSpells f fraction) (hr : ∀ c ∈ r.head?, c.isDigit = false) :
    ∀ c ∈ (f ++ r).head?, c.isDigit = false := by
  cases h with
  | absent => exact hr
  | digits _ =>
      intro c hc
      obtain rfl : '.' = c := Option.some.inj hc
      rfl

/-- A spelled number is read, if what follows cannot be more of it. -/
theorem Spells.read {p rest : Text} {t : NumberText} (h : Spells p t)
    (hrest : EndsBefore rest) :
    Json.readNumberText (p ++ rest) = .ok (t, rest) := by
  obtain @⟨whole, f, e, fraction, exponent, isNegative, hwhole, hfraction,
      hexponent⟩ := h
  have hhead := hexponent.head hrest
  have hunsigned : Json.readUnsigned isNegative (whole ++ (f ++ (e ++ rest)))
      = .ok (⟨isNegative, whole, fraction, exponent⟩, rest) := by
    have hwhole_read := Json.readWhole_eq_ok_iff.2
      ⟨rfl, hwhole, hfraction.head fun c hc => (hhead c hc).1⟩
    have hfraction_read := hfraction.read (fun c hc => (hhead c hc).1)
      fun hpoint => (hhead '.' hpoint).2 rfl
    simp only [Json.readUnsigned, hwhole_read, hfraction_read,
      hexponent.read hrest]
    rfl
  simp only [List.append_assoc]
  cases isNegative with
  | true => exact hunsigned
  | false =>
      rw [← hunsigned]
      unfold Json.readNumberText
      split
      · next hminus =>
        obtain ⟨c, u, rfl⟩ := List.exists_cons_of_ne_nil hwhole.ne_nil
        have hc := hwhole.digits c (List.mem_cons_self ..)
        rw [(List.cons.inj hminus).1] at hc
        cases hc
      · rfl

/-- The parts that have been read behind a sign spell a number with it. -/
theorem spells_of_readUnsigned {isNegative : Bool} {s rest : Text}
    {t : NumberText} (h : Json.readUnsigned isNegative s = .ok (t, rest)) :
    ∃ p, (if isNegative then ['-'] else []) ++ s = p ++ rest ∧ Spells p t := by
  unfold Json.readUnsigned at h
  split at h
  · cases h
  · next whole r hread =>
    obtain ⟨rfl, hwhole, -⟩ := Json.readWhole_eq_ok_iff.1 hread
    split at h
    · cases h
    · next fraction r hread =>
      obtain ⟨f, rfl, hfraction⟩ := fractionSpells_of_read hread
      cases hread : Json.readExponent r with
      | error e =>
          rw [hread] at h
          cases h
      | ok found =>
          rw [hread] at h
          cases h
          obtain ⟨e, rfl, hexponent⟩ := exponentSpells_of_read hread
          refine ⟨_, ?_, .mk isNegative hwhole hfraction hexponent⟩
          simp only [List.append_assoc]

/-- What has been read as a number was spelled as one. -/
theorem spells_of_read {s rest : Text} {t : NumberText}
    (h : Json.readNumberText s = .ok (t, rest)) :
    ∃ p, s = p ++ rest ∧ Spells p t := by
  unfold Json.readNumberText at h
  split at h
  · exact spells_of_readUnsigned h
  · exact spells_of_readUnsigned h

end NumberText

end Stencil
