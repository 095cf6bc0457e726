/-
Text as this library handles it: a list of characters, so that every
reader is a recursion on what is left to read and every printer a
concatenation. `String` appears only where text enters or leaves.

Beside the type stand its size in the UTF-8 form, the measure of every
offset and of the width that breaks an attribute list, and runs of
spaces, the only padding that any output uses.
-/

namespace Stencil

/-- A text is the list of its characters. -/
abbrev Text := List Char

/-- A literal stands for the list of its characters. -/
instance : Coe String Text := ⟨String.toList⟩

namespace Text

-- ================================================= size and padding

/-- The number of bytes that the UTF-8 form of a text takes. -/
def byteSize : Text → Nat
  | [] => 0
  | c :: t => c.utf8Size + byteSize t

@[simp]
theorem byteSize_nil : byteSize [] = 0 := rfl

@[simp]
theorem byteSize_cons (c : Char) (t : Text) :
    byteSize (c :: t) = c.utf8Size + byteSize t := rfl

@[simp]
theorem byteSize_append (s t : Text) :
    byteSize (s ++ t) = byteSize s + byteSize t := by
  induction s with
  | nil => simp
  | cons c s ih =>
    rw [List.cons_append, byteSize_cons, byteSize_cons, ih]
    omega

/-- A run of `n` spaces. -/
def spaces (n : Nat) : Text := List.replicate n ' '

/-- A natural number in decimal digits. -/
def ofNat (n : Nat) : Text := Nat.toDigits 10 n

-- ===================================================== reading ahead

/-- Reads a word: an ASCII letter, then as many characters of the class
`more` as follow it. Gives the word and what is left. -/
def word? (more : Char → Bool) : Text → Option (Text × Text)
  | [] => none
  | c :: t =>
    if c.isAlpha then some (c :: t.takeWhile more, t.dropWhile more)
    else none

/-- A text without its first character is shorter. -/
theorem length_lt_cons (c : Char) (t : Text) : t.length < (c :: t).length :=
  Nat.lt_succ_self t.length

/-- Dropping characters from the front never makes a text longer. -/
theorem length_dropWhile_le (p : Char → Bool) (t : Text) :
    (t.dropWhile p).length ≤ t.length :=
  (List.dropWhile_suffix p).length_le

/-- Reading a word uses up at least its first letter. -/
theorem length_lt_of_word? {more : Char → Bool} {s w r : Text}
    (h : word? more s = some (w, r)) : r.length < s.length := by
  cases s with
  | nil => simp [word?] at h
  | cons c t =>
    simp only [word?] at h
    split at h
    · have := length_dropWhile_le more t
      simp only [Option.some.injEq, Prod.mk.injEq] at h
      rw [← h.2, List.length_cons]
      omega
    · simp at h

end Text

end Stencil
