/-
The grammar of templates as a relation: which texts spell which trees.
Nothing here is ordered. A piece of the grammar holds of every text that
has its form, several may hold of one text, and none of them looks for a
longest or a first match; the only place where the form of a piece
depends on what follows it is a literal tag name, which may not be
followed by another name character.

Pieces of a tag are relative to a `Spacing`, like the readers of tags,
and `Spacing.Lawful` is what a reader needs of it: space is neither a
letter nor one of the characters that end a tag.

`Document s ns` is the grammar proper. It is one relation with a case for
each kind of node at the front, so that induction on a derivation follows
the document from left to right and into the content of its elements.
-/
import Stencil.Template.Token

namespace Stencil

-- ============================================================= names

/-- An ASCII letter and then characters of the class `more`. -/
def Text.IsWord (more : Char → Bool) : Text → Prop
  | [] => False
  | c :: t => c.isAlpha ∧ ∀ d ∈ t, more d

/-- The names that a template can spell. -/
def Name.Writable : Name → Prop
  | .literal t => t.IsWord isNameChar
  | .placeholder t => t.IsWord isIdentChar
  | .property _ | .fragment _ => False

/-- A literal name extends as far as it can: what follows it does not start
with another name character. -/
def Name.EndsBefore : Name → Text → Prop
  | .literal _, rest => ∀ c ∈ rest.head?, isNameChar c = false
  | _, _ => True

/-- A literal name has no capital letter. -/
def Name.IsLower : Name → Prop
  | .literal t => ∀ c ∈ t, c.isUpper = false
  | _ => True

-- ============================================================== tags

/-- What reading from left to right needs of the space inside tags. -/
structure Spacing.Lawful (sp : Spacing) : Prop where
  notAlpha : ∀ c, sp.isSpace c → c.isAlpha = false
  notGreater : sp.isSpace '>' = false
  notSlash : sp.isSpace '/' = false

theorem Spacing.grammar_lawful : Spacing.grammar.Lawful where
  notAlpha := by
    intro c hc
    simp only [Spacing.grammar, Bool.or_eq_true, decide_eq_true_eq] at hc
    rcases hc with ((rfl | rfl) | rfl) | rfl <;> rfl
  notGreater := rfl
  notSlash := rfl

/-- An attribute with the space before it: some space, a name, an equals
sign, and a value between two quotes of one kind that it does not hold. -/
inductive Attribute.Spells (sp : Spacing) : Text → Attribute → Prop
  | intro {w n v : Text} {mark : Char}
      (space : ∀ c ∈ w, sp.isSpace c) (apart : sp.separated → w ≠ [])
      (name : n.IsWord isNameChar)
      (quote : mark = '"' ∨ mark = '\'') (value : mark ∉ v) :
      Attribute.Spells sp (w ++ (n ++ '=' :: mark :: (v ++ [mark]))) ⟨n, v⟩

/-- Any number of attributes. -/
inductive Attribute.SpellsAll (sp : Spacing) : Text → List Attribute → Prop
  | nil : Attribute.SpellsAll sp [] []
  | cons {p s : Text} {a : Attribute} {as : List Attribute}
      (first : Attribute.Spells sp p a) (more : Attribute.SpellsAll sp s as) :
      Attribute.SpellsAll sp (p ++ s) (a :: as)

/-- The head of a tag, between its `<` and its end: a name, attributes, and
some space. -/
inductive TagHead (sp : Spacing) : Text → Name → List Attribute → Prop
  | intro {s w : Text} {n : Name} {as : List Attribute}
      (name : n.Writable) (attributes : Attribute.SpellsAll sp s as)
      (space : ∀ c ∈ w, sp.isSpace c) (ends : n.EndsBefore (s ++ w)) :
      TagHead sp (n.raw ++ (s ++ w)) n as

-- ========================================================= documents

/-- The closing tag that repeats the spelling of a name. -/
def closingTag (raw : Text) : Text := "</".toList ++ (raw ++ ['>'])

/-- The body of a comment holds no end of a comment. -/
def IsCommentBody (b : Text) : Prop := ¬ ("-->".toList <:+: b)

/-- Whether some nodes start with a text. -/
def startsWithText : List Node → Bool
  | .text _ :: _ => true
  | _ => false

/-- The texts that spell a list of nodes. -/
inductive Document : Text → List Node → Prop
  | nil : Document [] []
  | text {t s : Text} {ns : List Node}
      (nonempty : t ≠ []) (plain : '<' ∉ t)
      (alone : startsWithText ns = false) (rest : Document s ns) :
      Document (t ++ s) (.text t :: ns)
  | comment {b s : Text} {ns : List Node}
      (body : IsCommentBody b) (rest : Document s ns) :
      Document ("<!--".toList ++ (b ++ ("-->".toList ++ s))) (.comment b :: ns)
  | selfClosing {h s : Text} {n : Name} {as : List Attribute} {ns : List Node}
      (head : TagHead .grammar h n as) (lower : n.IsLower)
        (rest : Document s ns) :
      Document ('<' :: (h ++ ("/>".toList ++ s))) (.selfClosing n as :: ns)
  | element {h d s : Text} {n : Name} {as : List Attribute}
      {children ns : List Node}
      (head : TagHead .grammar h n as) (lower : n.IsLower)
      (content : Document d children) (rest : Document s ns) :
      Document ('<' :: (h ++ '>' :: (d ++ (closingTag n.raw ++ s))))
        (.element n as children :: ns)

end Stencil
