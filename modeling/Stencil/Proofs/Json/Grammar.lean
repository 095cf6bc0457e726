/-
The grammar of JSON, as a relation between texts and values and with no
reader in it. Tokens may have any space between them. A list of items
between brackets is `Listed`, for arrays and for objects alike; the members
of an object are `Keyed`, so that a document whose members are of different
kinds can use both.

A value that is only passed over is spelled by the loose rules, which ask
for its form alone: what the strict rules say beyond that stands as an
implication in the two constructors that it is about, the number and the
escaped code unit. A loosely spelled text stands for no value in
particular.
-/
import Stencil.Json.Reader

namespace Stencil

-- ============================================================= numbers

/-- Decimal digits, at least one. -/
structure IsDigits (p : Text) : Prop where
  ne_nil : p ≠ []
  digits : ∀ c ∈ p, c.isDigit

/-- The digits before the point: a zero stands there alone. -/
structure IsWhole (p : Text) : Prop extends IsDigits p where
  zero : p.head? = some '0' → p = ['0']

namespace NumberText

/-- The point and the digits after it. -/
inductive FractionSpells : Text → Option Text → Prop
  | absent : FractionSpells [] none
  | digits {ds : Text} (digits : IsDigits ds) :
      FractionSpells ('.' :: ds) (some ds)

/-- The sign of an exponent: whether it is a minus sign. -/
inductive SignSpells : Text → Bool → Prop
  | absent : SignSpells [] false
  | plus : SignSpells ['+'] false
  | minus : SignSpells ['-'] true

/-- The exponent with its mark. -/
inductive ExponentSpells : Text → Option (Bool × Text) → Prop
  | absent : ExponentSpells [] none
  | digits {mark : Char} {sign ds : Text} {isNegative : Bool}
      (marked : mark = 'e' ∨ mark = 'E')
      (signed : SignSpells sign isNegative) (digits : IsDigits ds) :
      ExponentSpells (mark :: (sign ++ ds)) (some (isNegative, ds))

/-- A number as it stands in a document. -/
inductive Spells : Text → NumberText → Prop
  | mk {whole f e : Text} {fraction : Option Text}
      {exponent : Option (Bool × Text)}
      (isNegative : Bool) (isWhole : IsWhole whole)
        (spellsFraction : FractionSpells f fraction)
      (spellsExponent : ExponentSpells e exponent) :
      Spells ((if isNegative then ['-'] else []) ++ (whole ++ (f ++ e)))
        ⟨isNegative, whole, fraction, exponent⟩

end NumberText

namespace Json

-- ============================================================= strings

/-- The character that two halves of a pair make. -/
def pairChar (high low : Nat) : Char :=
  Char.ofNat (0x10000 + 0x400 * (high - 0xD800) + (low - 0xDC00))

/-- The ways in which a character stands in a string. By the strict rules
half of a pair stands for nothing. -/
inductive CharSpells (rules : Rules) : Text → Char → Prop
  | plain {c : Char} (notQuote : c ≠ '"') (notBackslash : c ≠ '\\')
      (shown : 0x20 ≤ c.toNat) :
      CharSpells rules [c] c
  | short {e c : Char} (value : shortEscape? e = some c) :
      CharSpells rules ['\\', e] c
  | unit {a b c d : Char} {n : Nat} (digits : hexQuad? a b c d = some n)
      (whole : rules = .strict
        → isHighSurrogate n = false ∧ isLowSurrogate n = false) :
      CharSpells rules ['\\', 'u', a, b, c, d] (Char.ofNat n)
  | pair {a b c d a' b' c' d' : Char} {high low : Nat}
      (first : hexQuad? a b c d = some high)
      (isHigh : isHighSurrogate high) (second : hexQuad? a' b' c' d' = some low)
      (isLow : isLowSurrogate low) :
      CharSpells rules ['\\', 'u', a, b, c, d, '\\', 'u', a', b', c', d']
        (pairChar high low)

/-- The text between the quotes of a string. -/
inductive StringSpells (rules : Rules) : Text → Text → Prop
  | nil : StringSpells rules [] []
  | cons {p q t : Text} {c : Char} (head : CharSpells rules p c)
      (tail : StringSpells rules q t) :
      StringSpells rules (p ++ q) (c :: t)

-- =============================================================== items

/-- Space between tokens, or none. -/
def IsSpace (w : Text) : Prop := ∀ c ∈ w, isSpace c

/-- The items between two brackets, from the first one on or from behind
another: each item but the first has a comma before it. -/
inductive Listed {α : Type} (item : Text → α → Prop) :
    (isFirst : Bool) → Text → List α → Prop
  | nil {isFirst : Bool} {w : Text} (space : IsSpace w) :
      Listed item isFirst w []
  | first {w p q : Text} {a : α} {as : List α} (space : IsSpace w)
      (head : item p a) (tail : Listed item false q as) :
      Listed item true (w ++ (p ++ q)) (a :: as)
  | next {w w' p q : Text} {a : α} {as : List α} (space : IsSpace w)
      (space' : IsSpace w') (head : item p a) (tail : Listed item false q as) :
      Listed item false (w ++ ',' :: (w' ++ (p ++ q))) (a :: as)

/-- A member of an object, whose value is spelled as its key demands. -/
inductive Keyed (rules : Rules) (value : Text → Text → Json → Prop) :
    Text → Text × Json → Prop
  | mk {k key w w' p : Text} {v : Json} (spellsKey : StringSpells rules k key)
      (space : IsSpace w) (space' : IsSpace w') (spellsValue : value key p v) :
      Keyed rules value ('"' :: (k ++ '"' :: (w ++ ':' :: (w' ++ p)))) (key, v)

-- ============================================================== values

/-- The word for a truth value. -/
def boolWord (b : Bool) : Text := if b then "true" else "false"

/-- A text that spells a value, with no space around it. -/
inductive Spells (rules : Rules) : Text → Json → Prop
  | null : Spells rules "null".toList .null
  | bool (b : Bool) : Spells rules (boolWord b) (.bool b)
  | number {p : Text} {t : NumberText} {n : Number}
      (spelled : NumberText.Spells p t)
      (value : rules = .strict → t.value? = some n) : Spells rules p (.number n)
  | string {p t : Text} (spelled : StringSpells rules p t) :
      Spells rules ('"' :: (p ++ ['"'])) (.string t)
  | array {q : Text} {vs : List Json}
      (items : Listed (Spells rules) true q vs) :
      Spells rules ('[' :: (q ++ [']'])) (.array vs)
  | object {q : Text} {ms : List (Text × Json)}
      (members : Listed (Keyed rules fun _ => Spells rules) true q ms) :
      Spells rules ('{' :: (q ++ ['}'])) (.object ms)

mutual

/-- How many brackets lie one inside the other. -/
def depth : Json → Nat
  | .array items => depthItems items + 1
  | .object members => depthMembers members + 1
  | _ => 0

/-- The depth of the deepest item. -/
def depthItems : List Json → Nat
  | [] => 0
  | v :: vs => max v.depth (depthItems vs)

/-- The depth of the deepest value of a member. -/
def depthMembers : List (Text × Json) → Nat
  | [] => 0
  | (_, v) :: ms => max v.depth (depthMembers ms)

end

end Json

end Stencil
