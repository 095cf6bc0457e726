/-
Binary numbers of double precision: fifty-three bits of significand and a
bounded power of two, as exact natural numbers. A value is
`mantissa * 2 ^ power` units of `2 ^ -1074`, the smallest positive value,
so every rule is one of natural arithmetic.

`Binary.nearest?` rounds a fraction to the nearest such number, ties to
the even significand; the operations are exact results, rounded once.
-/

namespace Stencil

/-- Rounds `a / b` to the nearest natural number, a tie to the even one. -/
def roundDiv (a b : Nat) : Nat :=
  let q := a / b
  let r := a % b
  if 2 * r < b || (2 * r == b && q % 2 == 0) then q else q + 1

/-- A number of double precision, sign aside. -/
structure Binary where
  mantissa : Nat
  power : Nat
  deriving DecidableEq, Repr

namespace Binary

/-- The unit of the last place of the smallest numbers, as the denominator
that all of them share. -/
def scale : Nat := Nat.pow 2 1074

/-- The bound of the significand. -/
def top : Nat := Nat.pow 2 53

/-- The value of a number in units of the smallest one. -/
def scaled (x : Binary) : Nat := x.mantissa * Nat.pow 2 x.power

/-- Zero. -/
def zero : Binary := ⟨0, 0⟩

/-- The number nearest to `a / b`; nothing where that is beyond the
largest. -/
def nearest? (a b : Nat) : Option Binary :=
  let power := (a * scale / b).log2 - 52
  let mantissa := roundDiv (a * scale) (b * Nat.pow 2 power)
  let x : Binary := if mantissa = top then ⟨top / 2, power + 1⟩
    else ⟨mantissa, power⟩
  if 2045 < x.power then none else some x

/-- The number nearest to a product. -/
def mul? (x y : Binary) : Option Binary :=
  nearest? (x.scaled * y.scaled) (scale * scale)

/-- The number nearest to a quotient. -/
def div? (x y : Binary) : Option Binary := nearest? x.scaled y.scaled

/-- The number nearest to a power of ten. -/
def tenPow? (k : Nat) : Option Binary := nearest? (Nat.pow 10 k) 1

/-- The largest power of ten that a scaling step uses. -/
def maxStep : Nat := 308

/-- The number `x` divided `n` times by the largest step; zero stays. -/
def shrinkSteps? : Nat → Binary → Option Binary
  | 0, x => some x
  | n + 1, x =>
    if x.mantissa = 0 then some x
    else (tenPow? maxStep).bind fun step => (x.div? step).bind (shrinkSteps? n)

/-- The number `x / 10 ^ k`, by division through powers of ten that are
themselves rounded: as many of the largest step as leave no more than one
step, then the rest. -/
def shrink? (x : Binary) (k : Nat) : Option Binary :=
  let n := (k - 1) / maxStep
  (shrinkSteps? n x).bind fun y => (tenPow? (k - n * maxStep)).bind y.div?

/-- The number `x * 10 ^ e`, by one rounded power of ten where that is
enough; nothing where it is beyond the largest number. -/
def scaleTen? (x : Binary) : Int → Option Binary
  | .ofNat k =>
    if maxStep < k then if x.mantissa = 0 then some x else none
    else (tenPow? k).bind x.mul?
  | .negSucc k => shrink? x (k + 1)

end Binary

end Stencil
