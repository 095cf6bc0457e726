/-
Tokens of a template: the pieces that reading from left to right meets.
At a `<` stands a comment, a closing tag, or an opening or self-closing
tag with its attributes; everything else is text up to the next `<`.

A reader of tags is fixed by its `Spacing`, the characters it takes for
space inside a tag and whether an attribute must have space before it.
The grammar of templates uses one spacing, the search for a wrongly
closed tag another.

`Token.read?` reads one token and leaves a shorter text
(`Token.length_lt_of_read?`), so `Token.readAll` can read tokens until
none stands at the front.
-/
import Stencil.Template.Node
import Stencil.Text.Blank

namespace Stencil

-- ========================================================= the parts

/-- The characters that continue a literal tag name or attribute name. -/
def isNameChar (c : Char) : Bool := c.isAlphanum || c = '_' || c = '-'

/-- The characters that continue the identifier of a placeholder. -/
def isIdentChar (c : Char) : Bool := c.isAlphanum || c = '_'

/-- Reads a tag name: a literal name, or an identifier in braces. -/
def Name.read? : Text → Option (Name × Text)
  | '{' :: s =>
    match Text.word? isIdentChar s with
    | some (ident, '}' :: r) => some (.placeholder ident, r)
    | _ => none
  | s => (Text.word? isNameChar s).map fun (name, r) => (.literal name, r)

/-- How space is read inside a tag. -/
structure Spacing where
  /-- The characters that count as space. -/
  isSpace : Char → Bool
  /-- Whether an attribute must have space before it. -/
  separated : Bool

namespace Spacing

/-- The spacing of the grammar: space, tab and the two line characters,
and an attribute may follow directly. -/
def grammar : Spacing :=
  ⟨fun c => c = ' ' || c = '\t' || c = '\r' || c = '\n', false⟩

/-- The spacing of the search for a wrongly closed tag: any white space,
and some before each attribute. -/
def search : Spacing := ⟨Text.isBlank, true⟩

end Spacing

/-- Reads the rest of a value up to its closing quote. -/
def Attribute.readValue? (mark : Char) (s : Text) : Option (Text × Text) :=
  match s.dropWhile (· != mark) with
  | [] => none
  | _ :: r => some (s.takeWhile (· != mark), r)

/-- Reads a value in either kind of quotes. -/
def Attribute.readQuoted? : Text → Option (Text × Text)
  | '"' :: s => readValue? '"' s
  | '\'' :: s => readValue? '\'' s
  | _ => none

/-- Reads an attribute with the space before it. -/
def Attribute.read? (sp : Spacing) (s : Text) : Option (Attribute × Text) :=
  if sp.separated && !s.head?.any sp.isSpace then none
  else
    match Text.word? isNameChar (s.dropWhile sp.isSpace) with
    | some (name, '=' :: v) => (readQuoted? v).map fun (value, r) =>
      (⟨name, value⟩, r)
    | _ => none

/-- Reads the body of a comment, up to the first `-->`. -/
def readComment? : Text → Option (Text × Text)
  | [] => none
  | '-' :: '-' :: '>' :: r => some ([], r)
  | c :: s => (readComment? s).map fun (body, r) => (c :: body, r)

-- ============================================================ bounds

theorem Name.length_lt_of_read? {s r : Text} {n : Name}
    (h : Name.read? s = some (n, r)) : r.length < s.length := by
  unfold Name.read? at h
  split at h
  · split at h
    · rename_i heq
      have := Text.length_lt_of_word? heq
      simp only [Option.some.injEq, Prod.mk.injEq] at h
      simp only [List.length_cons, ← h.2] at this ⊢
      omega
    · simp at h
  · obtain ⟨⟨w, r'⟩, hw, he⟩ := Option.map_eq_some_iff.1 h
    simp only [Prod.mk.injEq] at he
    exact Text.length_lt_of_word? (he.2 ▸ hw)

theorem Attribute.length_lt_of_readValue? {mark : Char} {s v r : Text}
    (h : readValue? mark s = some (v, r)) : r.length < s.length := by
  have hle := Text.length_dropWhile_le (· != mark) s
  unfold readValue? at h
  split at h
  · simp at h
  · rename_i heq
    rw [heq, List.length_cons] at hle
    simp only [Option.some.injEq, Prod.mk.injEq] at h
    rw [← h.2]
    omega

theorem Attribute.length_lt_of_readQuoted? {s v r : Text}
    (h : readQuoted? s = some (v, r)) : r.length < s.length := by
  unfold readQuoted? at h
  split at h
  · have := length_lt_of_readValue? h
    simp only [List.length_cons]
    omega
  · have := length_lt_of_readValue? h
    simp only [List.length_cons]
    omega
  · simp at h

theorem Attribute.length_lt_of_read? {sp : Spacing} {s r : Text} {a : Attribute}
    (h : Attribute.read? sp s = some (a, r)) : r.length < s.length := by
  have hle := Text.length_dropWhile_le sp.isSpace s
  unfold Attribute.read? at h
  split at h
  · simp at h
  · split at h
    · rename_i hw
      obtain ⟨⟨v, r'⟩, hq, he⟩ := Option.map_eq_some_iff.1 h
      have h₁ := Text.length_lt_of_word? hw
      have h₂ := length_lt_of_readQuoted? hq
      simp only [Prod.mk.injEq] at he
      simp only [List.length_cons] at h₁
      rw [← he.2]
      omega
    · simp at h

theorem length_lt_of_readComment? {s b r : Text}
    (h : readComment? s = some (b, r)) : r.length < s.length := by
  fun_induction readComment? s generalizing b with
  | case1 => simp at h
  | case2 r' =>
    simp only [Option.some.injEq, Prod.mk.injEq] at h
    simp only [List.length_cons, ← h.2]
    omega
  | case3 c s _ ih =>
    obtain ⟨⟨b', r'⟩, hr, he⟩ := Option.map_eq_some_iff.1 h
    simp only [Prod.mk.injEq] at he
    have := ih (he.2 ▸ hr)
    simp only [List.length_cons]
    omega

-- ============================================================ tokens

/-- Reads attributes as long as one follows. -/
def Attribute.readAll (sp : Spacing) (s : Text) : List Attribute × Text :=
  match _h : Attribute.read? sp s with
  | none => ([], s)
  | some (a, r) =>
    let more := readAll sp r
    (a :: more.1, more.2)
termination_by s.length
decreasing_by exact Attribute.length_lt_of_read? _h

/-- A piece of a template. -/
inductive Token where
  | text (value : Text)
  | comment (body : Text)
  | opening (name : Name) (attributes : List Attribute)
  | closing (name : Name)
  | selfClosing (name : Name) (attributes : List Attribute)
  deriving DecidableEq, Repr

namespace Token

/-- Reads an opening or self-closing tag after its `<`. -/
def readTag? (sp : Spacing) (s : Text) : Option (Token × Text) :=
  match Name.read? s with
  | none => none
  | some (name, r) =>
    let (attributes, r') := Attribute.readAll sp r
    match r'.dropWhile sp.isSpace with
    | '>' :: rest => some (.opening name attributes, rest)
    | '/' :: '>' :: rest => some (.selfClosing name attributes, rest)
    | _ => none

/-- Reads a closing tag after its `</`. -/
def readClosing? (s : Text) : Option (Token × Text) :=
  match Name.read? s with
  | some (name, '>' :: rest) => some (.closing name, rest)
  | _ => none

/-- Reads the token at the front of a text. -/
def read? (sp : Spacing) : Text → Option (Token × Text)
  | [] => none
  | '<' :: '!' :: '-' :: '-' :: s =>
    (readComment? s).map fun (body, r) => (.comment body, r)
  | '<' :: '/' :: s => readClosing? s
  | '<' :: s => readTag? sp s
  | c :: s => some (.text (c :: s.takeWhile (· != '<')), s.dropWhile (· != '<'))

end Token

theorem Attribute.length_readAll_le (sp : Spacing) (s : Text) :
    (Attribute.readAll sp s).2.length ≤ s.length := by
  fun_induction Attribute.readAll sp s with
  | case1 => simp
  | case2 s a r h more ih =>
    have := Attribute.length_lt_of_read? h
    simp only [more]
    omega

namespace Token

theorem length_lt_of_readTag? {sp : Spacing} {s r : Text} {t : Token}
    (h : readTag? sp s = some (t, r)) : r.length < s.length := by
  unfold readTag? at h
  split at h
  · simp at h
  · rename_i name r₁ hn
    have h₁ := Name.length_lt_of_read? hn
    have h₂ := Attribute.length_readAll_le sp r₁
    have h₃ := Text.length_dropWhile_le sp.isSpace (Attribute.readAll sp r₁).2
    simp only at h
    split at h
    · rename_i heq
      simp only [Option.some.injEq, Prod.mk.injEq] at h
      rw [heq, List.length_cons] at h₃
      rw [← h.2]
      omega
    · rename_i heq
      simp only [Option.some.injEq, Prod.mk.injEq] at h
      rw [heq, List.length_cons, List.length_cons] at h₃
      rw [← h.2]
      omega
    · simp at h

theorem length_lt_of_readClosing? {s r : Text} {t : Token}
    (h : readClosing? s = some (t, r)) : r.length < s.length := by
  unfold readClosing? at h
  split at h
  · rename_i hn
    have := Name.length_lt_of_read? hn
    simp only [Option.some.injEq, Prod.mk.injEq] at h
    simp only [List.length_cons, ← h.2] at this ⊢
    omega
  · simp at h

/-- Reading a token uses up at least one character. -/
theorem length_lt_of_read? {sp : Spacing} {s r : Text} {t : Token}
    (h : read? sp s = some (t, r)) : r.length < s.length := by
  unfold read? at h
  split at h
  · simp at h
  · obtain ⟨⟨b, r'⟩, hr, he⟩ := Option.map_eq_some_iff.1 h
    have := length_lt_of_readComment? hr
    simp only [Prod.mk.injEq] at he
    simp only [List.length_cons, ← he.2]
    omega
  · have := length_lt_of_readClosing? h
    simp only [List.length_cons]
    omega
  · have := length_lt_of_readTag? h
    simp only [List.length_cons]
    omega
  · rename_i c s' _ _ _
    have := Text.length_dropWhile_le (· != '<') s'
    simp only [Option.some.injEq, Prod.mk.injEq] at h
    rw [← h.2, List.length_cons]
    omega

end Token

/-- A token with the text from its first character on. -/
structure Located where
  token : Token
  start : Text
  deriving DecidableEq, Repr

/-- Reads tokens as long as one follows. Gives them with the text at which
reading stops. -/
def Token.readAll (sp : Spacing) (s : Text) : List Located × Text :=
  match _h : Token.read? sp s with
  | none => ([], s)
  | some (t, r) =>
    let more := readAll sp r
    (⟨t, s⟩ :: more.1, more.2)
termination_by s.length
decreasing_by exact Token.length_lt_of_read? _h

end Stencil
