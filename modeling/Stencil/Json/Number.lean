/-
Numbers of a JSON document. A number without fraction and exponent that
fits in sixty-four bits is an integer; every other one is a number of
double precision, taken from its leading digits, and must not exceed the
largest.
-/
import Stencil.Decimal.Shortest

namespace Stencil

-- ============================================================== values

/-- The value of a JSON number. -/
inductive Number where
  /-- An integer without a sign. -/
  | natural (n : Nat)
  /-- An integer with a minus sign, by its size. -/
  | negative (n : Nat)
  /-- A number of double precision. -/
  | real (isNegative : Bool) (size : Binary)
  deriving DecidableEq, Repr

/-- A number as it is spelled. -/
structure NumberText where
  isNegative : Bool
  /-- The digits before the point. -/
  whole : Text
  /-- The digits after the point. -/
  fraction : Option Text
  /-- The sign and the digits after the mark of the exponent. -/
  exponent : Option (Bool × Text)
  deriving DecidableEq, Repr

/-- The bound of the integers without a sign. -/
def wordBound : Nat := Nat.pow 2 64

/-- The value of a decimal digit. -/
def digitValue (c : Char) : Nat := c.toNat - '0'.toNat

/-- The number that decimal digits spell. -/
def decimalValue (digits : Text) : Nat :=
  digits.foldl (fun n c => 10 * n + digitValue c) 0

namespace NumberText

/-- Takes digits into a significand as long as it stays below `wordBound`.
Gives the significand and the digits left over. -/
def absorb (significand : Nat) : Text → Nat × Text
  | [] => (significand, [])
  | c :: digits =>
    let next := 10 * significand + digitValue c
    if next < wordBound then absorb next digits else (significand, c :: digits)

/-- The significand of a number and the power of ten that goes with it,
its exponent aside. Digits beyond the significand count by their places
before the point and not at all after it. -/
def significand (t : NumberText) : Nat × Int :=
  let (m, left) := absorb 0 t.whole
  let fraction := t.fraction.getD []
  let (m', left') := absorb m fraction
  (m', (left.length : Int) - ((fraction.length - left'.length : Nat) : Int))

/-- The size of a number as one of double precision; nothing where it is
beyond the largest. -/
def size? (t : NumberText) : Option Binary :=
  let (m, shift) := t.significand
  match Binary.nearest? m 1 with
  | none => none
  | some x =>
    match t.exponent with
    | none => x.scaleTen? shift
    | some (isNegative, digits) =>
      let e := decimalValue digits
      if e < Nat.pow 2 31 then x.scaleTen? (if isNegative then shift - e
      else shift + e)
      else if isNegative || m == 0 then some .zero
      else none

/-- The value of a number; nothing where it is beyond the largest. -/
def value? (t : NumberText) : Option Number :=
  let n := decimalValue t.whole
  if t.fraction.isNone && t.exponent.isNone && n < wordBound then
    if !t.isNegative then some (.natural n)
    else if 0 < n && n ≤ wordBound / 2 then some (.negative n)
    else t.size?.map (.real true)
  else t.size?.map (.real t.isNegative)

end NumberText

-- ================================================================ text

namespace Number

/-- An exponent in decimal digits, always with its sign. -/
def exponentText : Int → Text
  | .ofNat n => '+' :: Text.ofNat n
  | .negSucc n => '-' :: Text.ofNat (n + 1)

/-- Digits without the zeros at their end. -/
def trimZeros (digits : Text) : Text :=
  (digits.reverse.dropWhile (· == '0')).reverse

/-- A run of zeros. -/
def zeros (n : Nat) : Text := List.replicate n '0'

/-- A decimal in writing: with its point in place as long as the value is
below `10 ^ 16` and has at most four zeros behind the point before its first
digit, and with an exponent and its sign otherwise. A point always has a
digit on each side. -/
def decimalText (d : Decimal) : Text :=
  let all := Text.ofNat d.digits
  let digits := trimZeros all
  -- the value is 0.digits times ten to the power of `point`
  let point : Int := all.length + d.exponent
  let count : Int := digits.length
  if count ≤ point && point ≤ 16 then
    digits ++ zeros (point - count).toNat ++ ".0".toList
  else if 0 < point && point ≤ 16 then
    digits.take point.toNat ++ ['.'] ++ digits.drop point.toNat
  else if -5 < point && point ≤ 0 then
    "0.".toList ++ zeros (-point).toNat ++ digits
  else
    let mark := 'e' :: exponentText (point - 1)
    match digits with
    | [d] => d :: mark
    | d :: more => d :: '.' :: (more ++ mark)
    | [] => mark

/-- The size of a number of double precision in writing. -/
def sizeText (x : Binary) : Text :=
  if x.mantissa = 0 then "0.0" else decimalText (.shortest x)

/-- A number in writing. -/
def text : Number → Text
  | .natural n => Text.ofNat n
  | .negative n => '-' :: Text.ofNat n
  | .real isNegative size => (if isNegative then ['-'] else []) ++ sizeText size

end Number

end Stencil
