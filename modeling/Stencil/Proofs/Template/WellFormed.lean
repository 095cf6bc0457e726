/-
The trees that templates have. `WellFormed` says of a list of nodes, level
by level, what a template can spell: texts that hold something but no tag,
never two of them next to each other; comments without an end of a comment
inside; names and attributes in their characters, and values that leave
one of the two quotes free. It speaks of trees alone, not of texts.

Reading gives such trees and no others. One half follows a derivation of
the grammar. For the other half a tree is spelled out (`Node.spellList`)
in one way among those that the grammar allows, and the spelling is
derived with the tree it was made from, one node in front of what follows
it: what may follow a text is the only thing that a node asks of its
neighbour.
-/
import Stencil.Proofs.Template.Recognition
import Mathlib.Data.List.Chain

namespace Stencil

-- =================================================== well-formed trees

/-- A small letter, then small letters, digits, `_` and `-`. -/
def Text.IsTagName : Text → Prop
  | [] => False
  | c :: t => c.isLower ∧ ∀ d ∈ t, d.isLower ∨ d.isDigit ∨ d = '_' ∨ d = '-'

/-- The names of tags in a tree that was read. -/
def Name.WellFormed : Name → Prop
  | .literal t => t.IsTagName
  | .placeholder t => t.IsWord isIdentChar
  | .property _ | .fragment _ => False

/-- An attribute has a name, and a value that leaves one kind of quotes
free. -/
structure Attribute.WellFormed (a : Attribute) : Prop where
  name : a.name.IsWord isNameChar
  value : '"' ∉ a.value ∨ '\'' ∉ a.value

/-- Whether a node is a text. -/
def Node.isText : Node → Bool
  | .text _ => true
  | _ => false

/-- No text stands next to another. -/
def TextsApart (ns : List Node) : Prop :=
  ns.IsChain fun n m => ¬ (n.isText ∧ m.isText)

/-- The nodes of a tree that was read. -/
inductive Node.WellFormed : Node → Prop
  | text {t : Text} (nonempty : t ≠ [])
      (plain : '<' ∉ t) : Node.WellFormed (.text t)
  | comment {b : Text} (body : ¬ ("-->".toList <:+: b)) :
      Node.WellFormed (.comment b)
  | element {n : Name} {as : List Attribute} {children : List Node}
      (name : n.WellFormed) (attributes : ∀ a ∈ as, a.WellFormed)
      (content : ∀ c ∈ children, c.WellFormed) (apart : TextsApart children) :
      Node.WellFormed (.element n as children)
  | selfClosing {n : Name} {as : List Attribute}
      (name : n.WellFormed) (attributes : ∀ a ∈ as, a.WellFormed) :
      Node.WellFormed (.selfClosing n as)

/-- The trees that were read. -/
structure WellFormed (ns : List Node) : Prop where
  nodes : ∀ n ∈ ns, n.WellFormed
  apart : TextsApart ns

-- ======================================================== deciding it

instance (more : Char → Bool) : DecidablePred (Text.IsWord more)
  | [] => .isFalse id
  | c :: t => decidable_of_iff (c.isAlpha && t.all more) (by simp [Text.IsWord])

instance : DecidablePred Text.IsTagName
  | [] => .isFalse id
  | c :: t =>
    decidable_of_iff (c.isLower && t.all fun d => d.isLower || d.isDigit
      || d == '_' || d == '-')
      (by simp [Text.IsTagName, or_assoc])

instance : DecidablePred Name.WellFormed
  | .literal t => inferInstanceAs (Decidable t.IsTagName)
  | .placeholder t => inferInstanceAs (Decidable (t.IsWord isIdentChar))
  | .property _ | .fragment _ => inferInstanceAs (Decidable False)

instance : DecidablePred Attribute.WellFormed := fun a =>
  decidable_of_iff (a.name.IsWord isNameChar ∧ ('"' ∉ a.value ∨ '\'' ∉ a.value))
    ⟨fun h => ⟨h.1, h.2⟩, fun h => ⟨h.name, h.value⟩⟩

instance : DecidablePred TextsApart := fun ns =>
  inferInstanceAs (Decidable (ns.IsChain fun n m => ¬ (n.isText ∧ m.isText)))

mutual

/-- Whether a node is well-formed. -/
def Node.decideWellFormed : (n : Node) → Decidable n.WellFormed
  | .text t => decidable_of_iff (t ≠ [] ∧ '<' ∉ t)
      ⟨fun h => .text h.1 h.2, fun | .text hne hplain => ⟨hne, hplain⟩⟩
  | .comment b => decidable_of_iff (¬ ("-->".toList <:+: b))
      ⟨.comment, fun | .comment hbody => hbody⟩
  | .element n as children =>
    have := Node.decideWellFormedList children
    decidable_of_iff (n.WellFormed ∧ (∀ a ∈ as, a.WellFormed)
        ∧ (∀ c ∈ children, c.WellFormed) ∧ TextsApart children)
      ⟨fun h => .element h.1 h.2.1 h.2.2.1 h.2.2.2,
        fun | .element hname has hcontent hapart => ⟨hname, has,
          hcontent, hapart⟩⟩
  | .selfClosing n as =>
    decidable_of_iff (n.WellFormed ∧ ∀ a ∈ as, a.WellFormed)
      ⟨fun h => .selfClosing h.1 h.2,
        fun | .selfClosing hname has => ⟨hname, has⟩⟩

/-- Whether some nodes are well-formed. -/
def Node.decideWellFormedList :
    (ns : List Node) → Decidable (∀ n ∈ ns, n.WellFormed)
  | [] => .isTrue (by simp)
  | n :: ns =>
    have := n.decideWellFormed
    have := Node.decideWellFormedList ns
    decidable_of_iff (n.WellFormed ∧ ∀ m ∈ ns, m.WellFormed)
      List.forall_mem_cons.symm

end

instance : DecidablePred WellFormed := fun ns =>
  have := Node.decideWellFormedList ns
  decidable_of_iff ((∀ n ∈ ns, n.WellFormed) ∧ TextsApart ns)
    ⟨fun h => ⟨h.1, h.2⟩, fun h => ⟨h.nodes, h.apart⟩⟩

-- ============================================================ names

/-- The characters of a name in small letters are the name characters that
are no capitals. -/
theorem isSmallNameChar_iff {c : Char} :
    (c.isLower ∨ c.isDigit ∨ c = '_' ∨ c = '-')
      ↔ isNameChar c ∧ c.isUpper = false := by
  constructor
  · intro h
    rcases h with h | h | rfl | rfl
    · refine ⟨by simp [isNameChar, Char.isAlphanum, Text.isAlpha_eq, h], ?_⟩
      rw [Text.isLower_iff] at h
      rw [Bool.eq_false_iff, ne_eq, Text.isUpper_iff]
      omega
    · refine ⟨by simp [isNameChar, Char.isAlphanum, h], ?_⟩
      rw [Bool.eq_false_iff, ne_eq, Text.isUpper_iff]
      simp [Char.isDigit, UInt32.le_iff_toNat_le] at h
      omega
    · decide
    · decide
  · intro h
    obtain ⟨hname, hupper⟩ := h
    simpa [isNameChar, Char.isAlphanum, Text.isAlpha_eq, hupper, or_assoc]
      using hname

theorem Text.isTagName_iff {t : Text} :
    t.IsTagName ↔ t.IsWord isNameChar ∧ ∀ c ∈ t, c.isUpper = false := by
  cases t with
  | nil => simp [Text.IsTagName, Text.IsWord]
  | cons c t =>
      simp only [Text.IsTagName, Text.IsWord, List.forall_mem_cons,
        isSmallNameChar_iff]
      constructor
      · intro h
        obtain ⟨hc, ht⟩ := h
        have hupper := (isSmallNameChar_iff.1 (Or.inl hc)).2
        exact ⟨⟨by simp [Text.isAlpha_eq, hc], fun d hd => (ht d hd).1⟩, hupper,
          fun d hd => (ht d hd).2⟩
      · intro h
        obtain ⟨⟨hc, ht⟩, hupper, htupper⟩ := h
        exact ⟨by simpa [Text.isAlpha_eq, hupper] using hc,
          fun d hd => ⟨ht d hd, htupper d hd⟩⟩

/-- The names of a tree are those that a template can spell without a
capital in a literal one. -/
theorem Name.wellFormed_iff {n : Name} :
    n.WellFormed ↔ n.Writable ∧ n.IsLower := by
  cases n with
  | literal t => exact Text.isTagName_iff
  | placeholder t => simp [Name.WellFormed, Name.Writable, Name.IsLower]
  | property t => simp [Name.WellFormed, Name.Writable]
  | fragment t => simp [Name.WellFormed, Name.Writable]

-- ================================================= what reading gives

theorem textsApart_cons {n : Node} {ns : List Node} :
    TextsApart (n :: ns)
      ↔ (n.isText → startsWithText ns = false) ∧ TextsApart ns := by
  unfold TextsApart
  rw [List.isChain_cons]
  refine and_congr_left fun _ => ?_
  cases ns with
  | nil => simp [startsWithText]
  | cons m ns =>
      have hstarts : startsWithText (m :: ns) = m.isText := by cases m <;> rfl
      simp [hstarts]

theorem WellFormed.cons {n : Node} {ns : List Node} (hn : n.WellFormed)
    (hfollows : n.isText → startsWithText ns = false) (h : WellFormed ns) :
    WellFormed (n :: ns) where
  nodes := List.forall_mem_cons.2 ⟨hn, h.nodes⟩
  apart := textsApart_cons.2 ⟨hfollows, h.apart⟩

theorem Attribute.Spells.wellFormed {sp : Spacing} {s : Text} {a : Attribute}
    (h : Attribute.Spells sp s a) : a.WellFormed := by
  obtain ⟨-, -, hname, hmark, hvalue⟩ := h
  refine ⟨hname, ?_⟩
  rcases hmark with rfl | rfl
  · exact Or.inl hvalue
  · exact Or.inr hvalue

theorem Attribute.SpellsAll.wellFormed {sp : Spacing} {s : Text}
    {as : List Attribute} (h : Attribute.SpellsAll sp s as) :
    ∀ a ∈ as, a.WellFormed := by
  induction h with
  | nil => simp
  | cons hfirst _ ih => exact List.forall_mem_cons.2 ⟨hfirst.wellFormed, ih⟩

theorem TagHead.wellFormed {sp : Spacing} {h : Text} {n : Name}
    {as : List Attribute} (head : TagHead sp h n as) (lower : n.IsLower) :
    n.WellFormed ∧ ∀ a ∈ as, a.WellFormed := by
  obtain ⟨hname, hattributes, -, -⟩ := head
  exact ⟨Name.wellFormed_iff.2 ⟨hname, lower⟩, hattributes.wellFormed⟩

/-- What a template spells is well-formed. -/
theorem Document.wellFormed {s : Text} {ns : List Node} (h : Document s ns) :
    WellFormed ns := by
  induction h with
  | nil => exact ⟨by simp, .nil⟩
  | text hne hplain halone _ ih =>
      exact ih.cons (.text hne hplain) fun _ => halone
  | comment hbody _ ih => exact ih.cons (.comment hbody) (by simp [Node.isText])
  | selfClosing head lower _ ih =>
      obtain ⟨hname, hattributes⟩ := head.wellFormed lower
      exact ih.cons (.selfClosing hname hattributes) (by simp [Node.isText])
  | element head lower _ _ ihcontent ih =>
      obtain ⟨hname, hattributes⟩ := head.wellFormed lower
      exact ih.cons (.element hname hattributes ihcontent.nodes ihcontent.apart)
        (by simp [Node.isText])

-- ====================================================== spelling out

/-- A quote that the value does not hold, if it leaves one free; where both
are, `single` chooses. -/
def quoteMark (single : Text → Bool) (value : Text) : Char :=
  if '"' ∈ value ∨ ('\'' ∉ value ∧ single value) then '\'' else '"'

/-- An attribute with one space before it. -/
def Attribute.spell (single : Text → Bool) (a : Attribute) : Text :=
  let mark := quoteMark single a.value
  ' ' :: (a.name ++ '=' :: mark :: (a.value ++ [mark]))

/-- A name with its attributes. -/
def spellHead (single : Text → Bool) (n : Name) (as : List Attribute) : Text :=
  n.raw ++ as.flatMap (Attribute.spell single)

mutual

/-- A node as a template may have it. -/
def Node.spell (single : Text → Bool) : Node → Text
  | .text t => t
  | .comment b => "<!--".toList ++ (b ++ "-->".toList)
  | .selfClosing n as => '<' :: (spellHead single n as ++ "/>".toList)
  | .element n as children =>
    '<' :: (spellHead single n as
      ++ '>' :: (Node.spellList single children ++ closingTag n.raw))

/-- Some nodes as a template may have them. -/
def Node.spellList (single : Text → Bool) : List Node → Text
  | [] => []
  | n :: ns => n.spell single ++ Node.spellList single ns

end

theorem Attribute.WellFormed.spells {a : Attribute} (h : a.WellFormed)
    (single : Text → Bool) : Attribute.Spells .grammar (a.spell single) a := by
  have hquote : quoteMark single a.value = '"'
      ∨ quoteMark single a.value = '\'' := by
    unfold quoteMark
    split
    · exact Or.inr rfl
    · exact Or.inl rfl
  have hfree : quoteMark single a.value ∉ a.value := by
    unfold quoteMark
    split
    · next htaken =>
      rcases htaken with hdouble | ⟨hsingle, -⟩
      · exact h.value.resolve_left (not_not_intro hdouble)
      · exact hsingle
    · next hdouble => exact fun hmem => hdouble (Or.inl hmem)
  exact .intro (w := [' ']) (by simp [Spacing.grammar]) (by simp)
    h.name hquote hfree

theorem spellsAll_flatMap {as : List Attribute} (h : ∀ a ∈ as, a.WellFormed)
    (single : Text → Bool) :
    Attribute.SpellsAll .grammar (as.flatMap (Attribute.spell single)) as := by
  induction as with
  | nil => exact .nil
  | cons a as ih =>
      obtain ⟨ha, has⟩ := List.forall_mem_cons.1 h
      rw [List.flatMap_cons]
      exact .cons (ha.spells single) (ih has)

/-- A name ends where its attributes start, with a space. -/
theorem tagHead_spellHead {n : Name} {as : List Attribute}
    (hname : n.WellFormed) (has : ∀ a ∈ as, a.WellFormed)
    (single : Text → Bool) :
    TagHead .grammar (spellHead single n as) n as := by
  have hends : n.EndsBefore (as.flatMap (Attribute.spell single)) := by
    cases as with
    | nil => exact n.endsBefore_nil
    | cons a as =>
        refine n.endsBefore_nil.append ?_
        simp [isNameChar]
  have hhead := TagHead.intro (w := []) (Name.wellFormed_iff.1 hname).1
    (spellsAll_flatMap has single) (by simp) (by simpa using hends)
  simpa [spellHead] using hhead

/-- The node can be spelled in front of any document that may follow it. -/
def Node.Extends (single : Text → Bool) (n : Node) : Prop :=
  ∀ {s : Text} {ns : List Node}, (n.isText → startsWithText ns = false)
    → Document s ns →
    Document (n.spell single ++ s) (n :: ns)

theorem document_spellList {single : Text → Bool} {ns : List Node}
    (h : ∀ n ∈ ns, n.Extends single) (hapart : TextsApart ns) :
    Document (Node.spellList single ns) ns := by
  induction ns with
  | nil => exact .nil
  | cons n ns ih =>
      obtain ⟨hn, hns⟩ := List.forall_mem_cons.1 h
      obtain ⟨hfollows, hapart⟩ := textsApart_cons.1 hapart
      exact hn hfollows (ih hns hapart)

theorem Node.WellFormed.extends {n : Node} (h : n.WellFormed)
    (single : Text → Bool) :
    n.Extends single := by
  induction h with
  | text hne hplain =>
      intro s ns hfollows hs
      exact .text hne hplain (hfollows rfl) hs
  | comment hbody =>
      intro s ns _ hs
      simpa [Node.spell] using Document.comment hbody hs
  | selfClosing hname hattributes =>
      intro s ns _ hs
      have hhead := tagHead_spellHead hname hattributes single
      simpa [Node.spell] using
        Document.selfClosing hhead (Name.wellFormed_iff.1 hname).2 hs
  | element hname hattributes _ hapart ih =>
      intro s ns _ hs
      have hhead := tagHead_spellHead hname hattributes single
      simpa [Node.spell] using
        Document.element hhead (Name.wellFormed_iff.1 hname).2
          (document_spellList ih hapart) hs

/-- A well-formed tree, spelled out and read. -/
theorem WellFormed.parse_eq {ns : List Node} (h : WellFormed ns)
    (single : Text → Bool) :
    parse (Node.spellList single ns) = .ok ns :=
  (document_spellList (fun n hn => (h.nodes n hn).extends single)
    h.apart).parse_eq

-- =================================================== the equivalence

/-- Reading gives exactly the well-formed trees: some template has the tree,
and the tree spelled out, with either kind of quotes where a value allows
both, is a template that has it. -/
theorem parse_spellList_iff (ns : List Node) :
    ((∃ s, parse s = .ok ns) ↔ WellFormed ns)
      ∧ ∀ single, parse (Node.spellList single ns) = .ok ns
        ↔ WellFormed ns := by
  have hread : ∀ s, parse s = .ok ns → WellFormed ns :=
    fun s hs => (document_of_parse hs).wellFormed
  refine ⟨⟨?_, ?_⟩, fun single => ⟨hread _, fun h => h.parse_eq single⟩⟩
  · intro h
    obtain ⟨s, hs⟩ := h
    exact hread s hs
  · intro h
    exact ⟨_, h.parse_eq fun _ => false⟩

end Stencil
