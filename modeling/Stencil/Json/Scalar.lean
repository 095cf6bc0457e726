/-
Reading the values of a JSON document that hold no others: words, numbers
and strings. A value that is only passed over is read by looser rules,
which look at its form alone: its numbers may be of any size, and its
strings may escape half of a surrogate pair.
-/
import Stencil.Json.Basic

namespace Stencil.Json

/-- The rules by which a value is read. -/
inductive Rules where
  /-- The value is wanted. -/
  | strict
  /-- The value is passed over. -/
  | loose
  deriving DecidableEq, Repr

-- =============================================================== words

/-- Reads the letters of a word. -/
def readWord : Text → Text → Except JsonFailure Text
  | [], s => .ok s
  | _ :: _, [] => .error .truncated
  | c :: w, d :: s => if c = d then readWord w s else .error .malformed

theorem length_le_of_readWord {w s r : Text} (h : readWord w s = .ok r) :
    r.length ≤ s.length := by
  fun_induction readWord w s with
  | case1 s =>
    simp only [Except.ok.injEq] at h
    simp [h]
  | case2 => simp at h
  | case3 w c s ih =>
    have := ih h
    simp only [List.length_cons]
    omega
  | case4 => simp at h

-- ============================================================= numbers

/-- Splits off the decimal digits at the front. -/
def splitDigits (s : Text) : Text × Text :=
  (s.takeWhile Char.isDigit, s.dropWhile Char.isDigit)

/-- Reads at least one digit. -/
def readDigits (s : Text) : Except JsonFailure (Text × Text) :=
  match s with
  | [] => .error .truncated
  | c :: _ => if c.isDigit then .ok (splitDigits s) else .error .malformed

/-- Reads the digits before the point: a zero alone, or digits that do not
start with one. -/
def readWhole (s : Text) : Except JsonFailure (Text × Text) :=
  match s with
  | '0' :: r =>
    if r.head?.any Char.isDigit then .error .malformed else .ok (['0'], r)
  | s => readDigits s

/-- Reads the point and the digits after it, if there is a point. -/
def readFraction (s : Text) : Except JsonFailure (Option Text × Text) :=
  match s with
  | '.' :: r => (readDigits r).map fun (ds, r) => (some ds, r)
  | s => .ok (none, s)

/-- Reads the sign of an exponent: whether it is a minus sign. -/
def readSign : Text → Bool × Text
  | '+' :: r => (false, r)
  | '-' :: r => (true, r)
  | s => (false, s)

/-- Reads the exponent, if there is one. -/
def readExponent (s : Text) :
    Except JsonFailure (Option (Bool × Text) × Text) :=
  match s with
  | c :: r =>
    if c = 'e' || c = 'E' then
      let (isNegative, r) := readSign r
      (readDigits r).map fun (ds, r) => (some (isNegative, ds), r)
    else .ok (none, s)
  | [] => .ok (none, s)

/-- Reads the spelling of a number after its sign. -/
def readUnsigned (isNegative : Bool) (s : Text) :
    Except JsonFailure (NumberText × Text) :=
  match readWhole s with
  | .error e => .error e
  | .ok (whole, r) =>
    match readFraction r with
    | .error e => .error e
    | .ok (frac, r) =>
      (readExponent r).map fun (exp, r) => (⟨isNegative, whole, frac, exp⟩, r)

/-- Reads the spelling of a number. -/
def readNumberText : Text → Except JsonFailure (NumberText × Text)
  | '-' :: r => readUnsigned true r
  | s => readUnsigned false s

theorem length_lt_of_readDigits {s ds r : Text}
    (h : readDigits s = .ok (ds, r)) :
    r.length < s.length := by
  cases s with
  | nil => simp [readDigits] at h
  | cons c t =>
    simp only [readDigits] at h
    split at h
    · rename_i hc
      have := Text.length_dropWhile_le Char.isDigit t
      simp only [splitDigits, Except.ok.injEq, Prod.mk.injEq] at h
      rw [← h.2, List.dropWhile_cons_of_pos hc, List.length_cons]
      omega
    · simp at h

theorem length_lt_of_readWhole {s ds r : Text} (h : readWhole s = .ok (ds, r)) :
    r.length < s.length := by
  unfold readWhole at h
  split at h
  · split at h
    · simp at h
    · simp only [Except.ok.injEq, Prod.mk.injEq] at h
      simp [← h.2]
  · exact length_lt_of_readDigits h

theorem length_le_of_readFraction {s r : Text} {ds : Option Text}
    (h : readFraction s = .ok (ds, r)) : r.length ≤ s.length := by
  unfold readFraction at h
  split at h
  · rename_i t
    cases hd : readDigits t with
    | error e => simp [hd, Except.map] at h
    | ok p =>
      have := length_lt_of_readDigits hd
      simp only [hd, Except.map, Except.ok.injEq, Prod.mk.injEq] at h
      rw [← h.2, List.length_cons]
      omega
  · simp only [Except.ok.injEq, Prod.mk.injEq] at h
    simp [← h.2]

theorem length_readSign_le (s : Text) : (readSign s).2.length ≤ s.length := by
  unfold readSign
  split <;> simp

theorem length_le_of_readExponent {s r : Text} {e : Option (Bool × Text)}
    (h : readExponent s = .ok (e, r)) : r.length ≤ s.length := by
  unfold readExponent at h
  split at h
  · rename_i c t
    split at h
    · cases hd : readDigits (readSign t).2 with
      | error e => simp [hd, Except.map] at h
      | ok p =>
        have h₁ := length_lt_of_readDigits hd
        have h₂ := length_readSign_le t
        simp only [hd, Except.map, Except.ok.injEq, Prod.mk.injEq] at h
        rw [← h.2, List.length_cons]
        omega
    · simp only [Except.ok.injEq, Prod.mk.injEq] at h
      simp [← h.2]
  · simp only [Except.ok.injEq, Prod.mk.injEq] at h
    simp [← h.2]

theorem length_lt_of_readUnsigned {b : Bool} {s r : Text} {t : NumberText}
    (h : readUnsigned b s = .ok (t, r)) : r.length < s.length := by
  unfold readUnsigned at h
  split at h
  · simp at h
  · rename_i hw
    have h₁ := length_lt_of_readWhole hw
    split at h
    · simp at h
    · rename_i r₂ hf
      have h₂ := length_le_of_readFraction hf
      cases he : readExponent r₂ with
      | error e => simp [he, Except.map] at h
      | ok p =>
        have h₃ := length_le_of_readExponent he
        simp only [he, Except.map, Except.ok.injEq, Prod.mk.injEq] at h
        rw [← h.2]
        omega

/-- Reading the spelling of a number uses up at least a digit. -/
theorem length_lt_of_readNumberText {s r : Text} {t : NumberText}
    (h : readNumberText s = .ok (t, r)) : r.length < s.length := by
  unfold readNumberText at h
  split at h
  · have := length_lt_of_readUnsigned h
    simp only [List.length_cons]
    omega
  · exact length_lt_of_readUnsigned h

/-- Reads a number. By the loose rules its value is not looked at, and one
that ends too early is as bad as any other. -/
def readNumber (rules : Rules) (s : Text) :
    Except JsonFailure (Taken Number s) :=
  match rules, _h : readNumberText s with
  | .loose, .ok (_, r) => .ok ⟨.natural 0, r, length_lt_of_readNumberText _h⟩
  | .loose, .error _ => .error .malformed
  | .strict, .error e => .error e
  | .strict, .ok (t, r) =>
    match t.value? with
    | some n => .ok ⟨n, r, length_lt_of_readNumberText _h⟩
    | none => .error .malformed

-- ============================================================= strings

/-- The value of a hexadecimal digit. -/
def hexValue? (c : Char) : Option Nat :=
  if c.isDigit then some (c.toNat - '0'.toNat)
  else if 'a' ≤ c && c ≤ 'f' then some (c.toNat - 'a'.toNat + 10)
  else if 'A' ≤ c && c ≤ 'F' then some (c.toNat - 'A'.toNat + 10)
  else none

/-- The number that four hexadecimal digits spell. -/
def hexQuad? (a b c d : Char) : Option Nat := do
  return 4096 * (← hexValue? a) + 256 * (← hexValue? b) + 16 * (← hexValue? c)
    + (← hexValue? d)

/-- Reads the four digits of an escaped code unit. The text ends too early
if fewer than four bytes of it are left. -/
def readCodeUnit (s : Text) : Except JsonFailure (Taken Nat s) :=
  if Text.byteSize (s.take 4) < 4 then .error .truncated
  else
    match s with
    | a :: b :: c :: d :: r =>
      match hexQuad? a b c d with
      | some n => .ok ⟨n, r, by simp only [List.length_cons]; omega⟩
      | none => .error .malformed
    | _ => .error .malformed

/-- Whether a code unit is the first half of a pair. -/
def isHighSurrogate (n : Nat) : Bool := 0xD800 ≤ n && n ≤ 0xDBFF

/-- Whether a code unit is the second half of a pair. -/
def isLowSurrogate (n : Nat) : Bool := 0xDC00 ≤ n && n ≤ 0xDFFF

/-- Reads the second half of a pair whose first half is `high`. -/
def readSecondHalf (high : Nat) (s : Text) :
    Except JsonFailure (Taken Char s) :=
  match s with
  | [] => .error .truncated
  | ['\\'] => .error .truncated
  | '\\' :: 'u' :: r =>
    match readCodeUnit r with
    | .error e => .error e
    | .ok t =>
      if isLowSurrogate t.value then
        let c :=
          Char.ofNat (0x10000 + 0x400 * (high - 0xD800) + (t.value - 0xDC00))
        .ok ⟨c, t.rest, Nat.lt_trans (t.shorterThanCons 'u')
          (Text.length_lt_cons '\\' _)⟩
      else .error .malformed
  | _ => .error .malformed

/-- Reads an escaped code unit after its `u`, with the second one of a
pair. -/
def readUnicode (rules : Rules) (s : Text) :
    Except JsonFailure (Taken Char s) :=
  match readCodeUnit s with
  | .error e => .error e
  | .ok t =>
    if rules = .loose then .ok (t.map Char.ofNat)
    else if isLowSurrogate t.value then .error .malformed
    else if isHighSurrogate t.value then
      (readSecondHalf t.value t.rest).map (.ofTail (Nat.le_of_lt t.shorter))
    else .ok (t.map Char.ofNat)

/-- The character behind a backslash and one more character. -/
def shortEscape? (c : Char) : Option Char :=
  if c = '"' || c = '\\' || c = '/' then some c
  else if c = 'b' then some '\x08'
  else if c = 'f' then some '\x0c'
  else if c = 'n' then some '\n'
  else if c = 'r' then some '\r'
  else if c = 't' then some '\t'
  else none

/-- Reads an escape after its backslash. -/
def readEscape (rules : Rules) (s : Text) : Except JsonFailure (Taken Char s) :=
  match s with
  | [] => .error .truncated
  | c :: r =>
    if c = 'u' then (readUnicode rules r).map
      (.ofTail (Nat.le_of_lt (Text.length_lt_cons c r)))
    else
      match shortEscape? c with
      | some d => .ok ⟨d, r, Text.length_lt_cons c r⟩
      | none => .error .malformed

/-- Reads a string after its opening quote. -/
def readString (rules : Rules) (s : Text) : Except JsonFailure (Taken Text s) :=
  match s with
  | [] => .error .truncated
  | c :: r =>
    if c = '"' then .ok ⟨[], r, Text.length_lt_cons c r⟩
    else if c = '\\' then
      match readEscape rules r with
      | .error e => .error e
      | .ok t =>
        (readString rules t.rest).map fun u =>
          (u.map (t.value :: ·)).ofTail (Nat.le_of_lt (t.shorterThanCons c))
    else if c.toNat < 0x20 then .error .malformed
    else
      (readString rules r).map fun u =>
        (u.map (c :: ·)).ofTail (Nat.le_of_lt (Text.length_lt_cons c r))
termination_by s.length
decreasing_by
  · exact t.shorterThanCons c
  · exact Text.length_lt_cons c r

end Stencil.Json
