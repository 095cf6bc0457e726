/-
Arithmetic of columns. A printer of nested code finds the column of what
is inside brackets by adding a step, and that of the closing bracket by
taking the step back. Columns are words of a fixed size, so a sum may be
too large and a difference too small; a machine that checks stops there,
and one that does not goes on with what is left in the word.

`Columns` is what a printer is given for its arithmetic. `ExactFor` says
for how many steps it makes no difference which.
-/
import Stencil.Output.Style

namespace Stencil

/-- How columns are added to and taken from each other. -/
structure Columns (m : Type → Type) where
  add : Nat → Nat → m Nat
  sub : Nat → Nat → m Nat

/-- Arithmetic with a result that is not a column. -/
inductive Overflow where
  /-- A sum that does not fit in a word. -/
  | sum
  /-- A difference below zero. -/
  | difference
  deriving DecidableEq, Repr

namespace Columns

/-- The least number that does not fit in a word. -/
def limit : Nat := Nat.pow 2 64

/-- Columns of any size. -/
def exact : Columns Id where
  add a b := pure (a + b)
  sub a b := pure (a - b)

/-- Words, where nothing comes out of an overflow. -/
def checked : Columns (Except Overflow) where
  add a b := if a + b < limit then .ok (a + b) else .error .sum
  sub a b := if b ≤ a then .ok (a - b) else .error .difference

variable {m : Type → Type} [Monad m] {c : Columns m} {step column n : Nat}

/-- The arithmetic is exact for `n` steps in from a column, and for each of
them back out. -/
def ExactFor (c : Columns m) (step column n : Nat) : Prop :=
  ∀ k < n,
    c.add (column + step * k) step = pure (column + step * (k + 1))
      ∧ c.sub (column + step * (k + 1)) step = pure (column + step * k)

theorem ExactFor.add (h : c.ExactFor step column n) (hn : 0 < n) :
    c.add column step = pure (column + step) := by
  simpa using (h 0 hn).1

theorem ExactFor.sub (h : c.ExactFor step column n) (hn : 0 < n) :
    c.sub (column + step) step = pure column := by
  simpa using (h 0 hn).2

theorem ExactFor.mono (h : c.ExactFor step column n) {k : Nat} (hk : k ≤ n) :
    c.ExactFor step column k :=
  fun i hi => h i (Nat.lt_of_lt_of_le hi hk)

/-- One step in there is one step less to go. -/
theorem ExactFor.inner (h : c.ExactFor step column (n + 1)) :
    c.ExactFor step (column + step) n := by
  intro k hk
  have hinner : ∀ i, column + step + step * i = column + step * (i + 1) := by
    intro i
    rw [Nat.mul_succ]
    omega
  rw [hinner, hinner]
  exact h (k + 1) (Nat.succ_lt_succ hk)

theorem exactFor_exact (step column n : Nat) :
    exact.ExactFor step column n := by
  intro k _
  have hsucc : column + step * (k + 1) = column + step * k + step := by
    rw [Nat.mul_succ, Nat.add_assoc]
  rw [hsucc]
  exact ⟨rfl, congrArg pure (Nat.add_sub_cancel ..)⟩

/-- The columns up to one that is a word are words. -/
theorem lt_limit (h : column + step * n < limit) {k : Nat} (hk : k < n) :
    column + step * k + step < limit := by
  have hle : step * (k + 1) ≤ step * n := Nat.mul_le_mul_left step hk
  rw [Nat.mul_succ] at hle
  omega

theorem exactFor_checked (h : column + step * n < limit) :
    checked.ExactFor step column n := by
  intro k hk
  have hlt := lt_limit h hk
  rw [Nat.mul_succ, ← Nat.add_assoc]
  refine ⟨if_pos hlt, ?_⟩
  show (if step ≤ _ then _ else _) = _
  rw [if_pos (Nat.le_add_left ..), Nat.add_sub_cancel]
  rfl

end Columns

end Stencil
