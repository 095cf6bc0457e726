/-
The shortest decimal for a binary number: the fewest digits that read back
as that number, and of those the nearest to it. On the grid of decimals
with a given number of digits only the two neighbours of the value can be
wanted, so the grids are tried from one digit on.
-/
import Stencil.Decimal.Binary
import Stencil.Text.Basic

namespace Stencil

/-- A decimal `digits * 10 ^ exponent`. -/
structure Decimal where
  digits : Nat
  exponent : Int
  deriving DecidableEq, Repr

namespace Decimal

/-- A power of ten that makes every grid in question a natural number. -/
def lift : Nat := 400

/-- The decimals that read back as `x` lie between these two bounds, which
belong to them if the significand is even. Both are in quarters of the
unit of `x`, scaled by `10 ^ lift`. -/
def bounds (x : Binary) : Nat × Nat :=
  let below := if x.mantissa = Binary.top / 2 && x.power != 0 then 1 else 2
  let unit := Nat.pow 2 x.power * Nat.pow 10 lift
  ((4 * x.mantissa - below) * unit, (4 * x.mantissa + 2) * unit)

/-- Whether the scaled value `v` reads back as `x`. -/
def readsBack (x : Binary) (v : Nat) : Bool :=
  let (low, high) := bounds x
  if x.mantissa % 2 = 0 then low ≤ v && v ≤ high else low < v && v < high

/-- The decimal for `x` on the grid whose step is `step`, if one of the two
neighbours of `x` there reads back: the nearer one, and the even one of
two as near. -/
def onGrid? (x : Binary) (step : Nat) : Option Nat :=
  let v := 4 * x.scaled * Nat.pow 10 lift
  let d := v / step
  match readsBack x (d * step), readsBack x ((d + 1) * step) with
  | true, true => some (roundDiv v step)
  | true, false => some d
  | false, true => some (d + 1)
  | false, false => none

/-- Tries the grids with `n` digits and more, as many as `tries`, for a
number whose lifted value has `places` places. -/
def search (x : Binary) (places n : Nat) : Nat → Decimal
  | 0 => ⟨0, 0⟩
  | tries + 1 =>
    match onGrid? x (4 * Binary.scale * Nat.pow 10 (places - n)) with
    | some d => ⟨d, (places : Int) - n - lift⟩
    | none => search x places (n + 1) tries

/-- The shortest decimal for a number other than zero. Seventeen digits
always read back. -/
def shortest (x : Binary) : Decimal :=
  let places := (Text.ofNat (x.scaled * Nat.pow 10 lift / Binary.scale)).length
  search x places 1 17

end Decimal

end Stencil
