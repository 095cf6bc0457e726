/-
Bindings for tags that come from properties. A tag position takes a name,
not any expression, so each distinct expression is bound once, in the
order of first use, and the tags refer to it by the name of its binding.
-/
import Stencil.Output.Style

namespace Stencil

/-- The expressions bound so far, in the order of their first use. -/
structure Bindings where
  exprs : List Text
  deriving DecidableEq, Repr

namespace Bindings

/-- No bindings. -/
def empty : Bindings := ⟨[]⟩

/-- Binds an expression, unless it is bound already. -/
def bind (b : Bindings) (expr : Text) : Bindings :=
  if expr ∈ b.exprs then b else ⟨b.exprs ++ [expr]⟩

/-- The name of the binding with the number given. -/
def nameAt (i : Nat) : Text := "C$c".toList ++ Text.ofNat i

/-- The name by which a bound expression is referred to. -/
def name (b : Bindings) (expr : Text) : Text := nameAt (b.exprs.idxOf expr)

/-- Uses an expression in a tag: it is bound, and the name of its binding
stands in the tag. -/
def use (b : Bindings) (expr : Text) : Text × Bindings :=
  ((b.bind expr).name expr, b.bind expr)

/-- The bindings of some expressions in order. -/
def ofList (exprs : List Text) : Bindings := exprs.foldl bind empty

/-- The statement that binds the expression with the number given. -/
def statement (pretty : Bool) (column : Nat) (expr : Text) (i : Nat) : Text :=
  if pretty then
    Style.newline column ++ "const ".toList ++ nameAt i ++ " = ".toList
      ++ expr ++ [';']
  else "const ".toList ++ nameAt i ++ ['='] ++ expr ++ [';']

/-- The statements of all bindings in order. -/
def statements (b : Bindings) (pretty : Bool) (column : Nat) : Text :=
  b.exprs.zipIdx.flatMap fun (expr, i) => statement pretty column expr i

-- ============================================================ growth

theorem mem_exprs_bind (b : Bindings) (d e : Text) :
    d ∈ (b.bind e).exprs ↔ d ∈ b.exprs ∨ d = e := by
  unfold bind
  split
  · next he =>
    constructor
    · exact Or.inl
    · rintro (hd | rfl)
      · exact hd
      · exact he
  · simp

theorem exprs_prefix_bind (b : Bindings) (e : Text) :
    b.exprs <+: (b.bind e).exprs := by
  unfold bind
  split
  · exact List.prefix_rfl
  · exact List.prefix_append b.exprs [e]

theorem exprs_prefix_foldl_bind (es : List Text) (b : Bindings) :
    b.exprs <+: (es.foldl bind b).exprs := by
  induction es generalizing b with
  | nil => exact List.prefix_rfl
  | cons e es ih => exact (exprs_prefix_bind b e).trans (ih (b.bind e))

/-- What is bound later changes no name. -/
theorem name_of_prefix {b b' : Bindings} (h : b.exprs <+: b'.exprs) {d : Text}
    (hd : d ∈ b.exprs) : b'.name d = b.name d := by
  obtain ⟨t, ht⟩ := h
  rw [name, ← ht, List.idxOf_append, if_pos hd, name]

end Bindings

end Stencil
