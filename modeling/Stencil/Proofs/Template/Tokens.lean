/-
Tokens and the grammar: reading a token succeeds exactly on the texts that
the grammar spells it by. Each reader of a part of a tag has one lemma of
that form, an equivalence between what it returns and what the relation
derives, so that both directions of every later argument use the same
statement; `Token.read?_eq_some_iff` puts them together.

A reader commits to the first cut it finds. That no cut is lost rests on
how the parts end: a word before the first character outside its class, a
value and the body of a comment at the first mark that could end them, and
the attributes where no further attribute starts.
-/
import Stencil.Proofs.Template.Grammar
import Stencil.Proofs.Text.Scan

namespace Stencil

-- =============================================== words and names

/-- A word reads as far as its class goes. -/
theorem Text.word?_eq_some_iff {more : Char → Bool} {s w r : Text} :
    Text.word? more s = some (w, r)
      ↔ s = w ++ r ∧ w.IsWord more ∧ ∀ c ∈ r.head?, more c = false := by
  constructor
  · intro h
    cases s with
    | nil => simp [Text.word?] at h
    | cons c t =>
        simp only [Text.word?] at h
        split at h
        · next hc =>
          simp only [Option.some.injEq, Prod.mk.injEq] at h
          obtain ⟨rfl, hr⟩ := h
          obtain ⟨ht, hw, hstop⟩ := (Text.scan_eq_iff more t _ r).1 ⟨rfl, hr⟩
          refine ⟨?_, ⟨hc, hw⟩, hstop⟩
          rw [List.cons_append, ← ht]
        · cases h
  · intro h
    obtain ⟨rfl, hword, hstop⟩ := h
    cases w with
    | nil => exact hword.elim
    | cons c t =>
        obtain ⟨hc, ht⟩ := hword
        obtain ⟨htake, hdrop⟩ :=
          (Text.scan_eq_iff more _ t r).2 ⟨rfl, ht, hstop⟩
        rw [List.cons_append, Text.word?, if_pos hc, htake, hdrop]

/-- A word is never empty, and starts with a letter. -/
theorem Text.IsWord.exists_cons {more : Char → Bool} {w : Text}
    (h : w.IsWord more) :
    ∃ c t, w = c :: t ∧ c.isAlpha = true := by
  cases w with
  | nil => exact h.elim
  | cons c t => exact ⟨c, t, rfl, h.1⟩

/-- Where no letter stands, no word can be read. -/
theorem Text.word?_eq_none {more : Char → Bool} {s : Text}
    (h : ∀ c ∈ s.head?, c.isAlpha = false) : Text.word? more s = none := by
  cases s with
  | nil => rfl
  | cons c t => simp [Text.word?, h c rfl]

/-- Reading a tag name finds the name whose spelling is at the front, a
literal one up to the first character that is no name character. -/
theorem Name.read?_eq_some_iff {s r : Text} {n : Name} :
    Name.read? s = some (n, r)
      ↔ s = n.raw ++ r ∧ n.Writable ∧ n.EndsBefore r := by
  constructor
  · intro h
    unfold Name.read? at h
    split at h
    · split at h
      · next ident r' hw =>
        simp only [Option.some.injEq, Prod.mk.injEq] at h
        obtain ⟨rfl, rfl⟩ := h
        obtain ⟨rfl, hword, -⟩ := Text.word?_eq_some_iff.1 hw
        exact ⟨by simp [Name.raw], hword, trivial⟩
      · cases h
    · obtain ⟨⟨w, r'⟩, hw, he⟩ := Option.map_eq_some_iff.1 h
      simp only [Prod.mk.injEq] at he
      obtain ⟨rfl, rfl⟩ := he
      obtain ⟨rfl, hword, hstop⟩ := Text.word?_eq_some_iff.1 hw
      exact ⟨rfl, hword, hstop⟩
  · intro h
    obtain ⟨rfl, hn, hends⟩ := h
    cases n with
    | literal t =>
        obtain ⟨c, t', rfl, hc⟩ := Text.IsWord.exists_cons hn
        have hw : Text.word? isNameChar (c :: t' ++ r) = some (c :: t', r) :=
          Text.word?_eq_some_iff.2 ⟨rfl, hn, hends⟩
        have hbrace : c ≠ '{' := by
          intro hcb
          subst hcb
          cases hc
        simp only [Name.raw]
        unfold Name.read?
        split
        · next heq => exact absurd (List.cons.inj heq).1 hbrace
        · rw [hw]
          rfl
    | placeholder t =>
        have hw : Text.word? isIdentChar (t ++ '}' :: r) = some (t, '}' :: r) :=
          Text.word?_eq_some_iff.2 ⟨rfl, hn, by simp [isIdentChar]⟩
        simp [Name.raw, Name.read?, hw]
    | property t => exact hn.elim
    | fragment t => exact hn.elim

theorem Name.endsBefore_nil (n : Name) : n.EndsBefore [] := by
  cases n with
  | literal t => intro c hc; cases hc
  | placeholder t => trivial
  | property t => trivial
  | fragment t => trivial

/-- A name that ends before `s` ends there whatever follows `s`, unless `s`
is empty and a name character follows. -/
theorem Name.EndsBefore.append {n : Name} {s r : Text}
    (h : n.EndsBefore s) (hr : ∀ c ∈ r.head?, isNameChar c = false) :
    n.EndsBefore (s ++ r) := by
  cases n with
  | literal t =>
      cases s with
      | nil => exact hr
      | cons c s => exact h
  | placeholder t => trivial
  | property t => trivial
  | fragment t => trivial

theorem Name.EndsBefore.of_append {n : Name} {s r : Text}
    (h : n.EndsBefore (s ++ r)) : n.EndsBefore s := by
  cases n with
  | literal t =>
      cases s with
      | nil => intro c hc; cases hc
      | cons c s => exact h
  | placeholder t => trivial
  | property t => trivial
  | fragment t => trivial

-- ======================================================== attributes

/-- A value ends at the first mark of its kind. -/
theorem Attribute.readValue?_eq_some_iff {mark : Char} {s v r : Text} :
    Attribute.readValue? mark s = some (v, r)
      ↔ s = v ++ mark :: r ∧ mark ∉ v := by
  rw [← Text.scan_mark_iff]
  unfold Attribute.readValue?
  rcases Text.dropWhile_mark_cases mark s with hnil | ⟨r', hr'⟩
  · simp [hnil]
  · simp [hr']

/-- A quoted value has a mark of either kind on both sides. -/
theorem Attribute.readQuoted?_eq_some_iff {s v r : Text} :
    Attribute.readQuoted? s = some (v, r)
      ↔ ∃ mark, (mark = '"' ∨ mark = '\'') ∧ s = mark :: (v ++ mark :: r)
        ∧ mark ∉ v := by
  constructor
  · intro h
    unfold Attribute.readQuoted? at h
    split at h
    · obtain ⟨rfl, hv⟩ := Attribute.readValue?_eq_some_iff.1 h
      exact ⟨'"', Or.inl rfl, rfl, hv⟩
    · obtain ⟨rfl, hv⟩ := Attribute.readValue?_eq_some_iff.1 h
      exact ⟨'\'', Or.inr rfl, rfl, hv⟩
    · cases h
  · intro h
    obtain ⟨mark, rfl | rfl, rfl, hv⟩ := h
    · exact Attribute.readValue?_eq_some_iff.2 ⟨rfl, hv⟩
    · exact Attribute.readValue?_eq_some_iff.2 ⟨rfl, hv⟩

/-- An attribute reads as its space, its name and its value. -/
theorem Attribute.read?_eq_some_iff {sp : Spacing} (hsp : sp.Lawful)
    {s r : Text} {a : Attribute} :
    Attribute.read? sp s = some (a, r)
      ↔ ∃ p, s = p ++ r ∧ Attribute.Spells sp p a := by
  constructor
  · intro h
    unfold Attribute.read? at h
    split at h
    · cases h
    · next hsep =>
      split at h
      · next n v hw =>
        obtain ⟨⟨value, r'⟩, hq, he⟩ := Option.map_eq_some_iff.1 h
        simp only [Prod.mk.injEq] at he
        obtain ⟨rfl, rfl⟩ := he
        obtain ⟨hdrop, hname, -⟩ := Text.word?_eq_some_iff.1 hw
        obtain ⟨mark, hmark, rfl, hv⟩ := Attribute.readQuoted?_eq_some_iff.1 hq
        obtain ⟨hs, hspace, -⟩ :=
          (Text.scan_eq_iff sp.isSpace s _ _).1 ⟨rfl, hdrop⟩
        refine ⟨_, hs.trans ?_, .intro hspace ?_ hname hmark hv⟩
        · simp
        · -- a separated attribute starts with space, so the space is not empty
          intro hapart hnil
          rw [hnil, List.nil_append] at hs
          obtain ⟨c, t, rfl, hc⟩ := hname.exists_cons
          rw [hapart, hs] at hsep
          have hspc : sp.isSpace c = true := by simpa using hsep
          rw [hsp.notAlpha c hspc] at hc
          cases hc
      · cases h
  · intro h
    obtain ⟨p, rfl, @⟨w, n, v, mark, hspace, hapart, hname, hmark, hv⟩⟩ := h
    have hdrop : (w ++ (n ++ '=' :: mark :: (v ++ mark :: r))).dropWhile
        sp.isSpace
        = n ++ '=' :: mark :: (v ++ mark :: r) := by
      refine Text.dropWhile_append_stop hspace ?_
      obtain ⟨c, t, rfl, hc⟩ := hname.exists_cons
      intro d hd
      obtain rfl : c = d := by simpa using hd
      by_contra hspc
      rw [hsp.notAlpha c (by simpa using hspc)] at hc
      cases hc
    have hword : Text.word? isNameChar (n ++ '=' :: mark :: (v ++ mark :: r))
        = some (n, '=' :: mark :: (v ++ mark :: r)) :=
      Text.word?_eq_some_iff.2 ⟨rfl, hname, by simp [isNameChar]⟩
    have hquoted : Attribute.readQuoted? (mark :: (v ++ mark :: r))
        = some (v, r) :=
      Attribute.readQuoted?_eq_some_iff.2 ⟨mark, hmark, rfl, hv⟩
    have hsep : ¬ (sp.separated
        && !(w ++ (n ++ '=' :: mark :: (v ++ mark :: r))).head?.any sp.isSpace)
          = true := by
      cases w with
      | nil =>
          have : sp.separated ≠ true := fun h => hapart h rfl
          simp [this]
      | cons c w => simp [hspace c (by simp)]
    have hassoc : w ++ (n ++ '=' :: mark :: (v ++ [mark])) ++ r
        = w ++ (n ++ '=' :: mark :: (v ++ mark :: r)) := by simp
    rw [hassoc, Attribute.read?, if_neg hsep, hdrop, hword]
    simp [hquoted]

/-- No attribute starts at the end of a tag. -/
theorem Attribute.read?_eq_none {sp : Spacing} {w r : Text} {c : Char}
    (hw : ∀ d ∈ w, sp.isSpace d) (hc : sp.isSpace c = false)
    (halpha : c.isAlpha = false) :
    Attribute.read? sp (w ++ c :: r) = none := by
  have hdrop : (w ++ c :: r).dropWhile sp.isSpace = c :: r :=
    Text.dropWhile_append_stop hw (by simpa using hc)
  have hword : Text.word? isNameChar (c :: r) = none :=
    Text.word?_eq_none (by simpa using halpha)
  unfold Attribute.read?
  split
  · rfl
  · simp [hdrop, hword]

/-- The first attribute and the rest of them. -/
theorem Attribute.readAll_of_read? {sp : Spacing} {s r : Text} {a : Attribute}
    (h : Attribute.read? sp s = some (a, r)) :
    Attribute.readAll sp s
      = (a :: (Attribute.readAll sp r).1, (Attribute.readAll sp r).2) := by
  rw [Attribute.readAll]
  split
  · next hnone => rw [h] at hnone; cases hnone
  · next hsome =>
    rw [h] at hsome
    cases hsome
    rfl

/-- Attributes are read until none follows. -/
theorem Attribute.readAll_spells {sp : Spacing} (hsp : sp.Lawful) (s : Text) :
    ∃ p, s = p ++ (Attribute.readAll sp s).2
      ∧ Attribute.SpellsAll sp p (Attribute.readAll sp s).1 := by
  fun_induction Attribute.readAll sp s with
  | case1 s hnone => exact ⟨[], rfl, .nil⟩
  | case2 s a r h more ih =>
      obtain ⟨p, rfl, hp⟩ := (Attribute.read?_eq_some_iff hsp).1 h
      obtain ⟨q, hq, hq'⟩ := ih
      refine ⟨p ++ q, ?_, .cons hp hq'⟩
      rw [List.append_assoc, ← hq]

/-- Attributes that the grammar spells are read in full, up to a point
where no further one starts. -/
theorem Attribute.readAll_append {sp : Spacing} (hsp : sp.Lawful) {p r : Text}
    {as : List Attribute} (h : Attribute.SpellsAll sp p as)
    (hr : Attribute.read? sp r = none) :
    Attribute.readAll sp (p ++ r) = (as, r) := by
  induction h with
  | nil =>
      rw [List.nil_append, Attribute.readAll]
      split
      · rfl
      · next hsome => rw [hr] at hsome; cases hsome
  | @cons p s a as hfirst hmore ih =>
      have hread : Attribute.read? sp (p ++ (s ++ r)) = some (a, s ++ r) :=
        (Attribute.read?_eq_some_iff hsp).2 ⟨p, rfl, hfirst⟩
      rw [List.append_assoc, Attribute.readAll_of_read? hread, ih]

-- ========================================================== comments

/-- The body of a comment ends at the first `-->`. -/
theorem readComment?_eq_some_iff {s b r : Text} :
    readComment? s = some (b, r)
      ↔ s = b ++ ("-->".toList ++ r) ∧ IsCommentBody b := by
  constructor
  · intro h
    fun_induction readComment? s generalizing b with
    | case1 => cases h
    | case2 r' =>
        simp only [Option.some.injEq, Prod.mk.injEq] at h
        obtain ⟨rfl, rfl⟩ := h
        exact ⟨rfl, by simp [IsCommentBody]⟩
    | case3 c s hfirst ih =>
        obtain ⟨⟨b', r'⟩, hr, he⟩ := Option.map_eq_some_iff.1 h
        simp only [Prod.mk.injEq] at he
        obtain ⟨rfl, rfl⟩ := he
        obtain ⟨rfl, hbody⟩ := ih hr
        refine ⟨rfl, ?_⟩
        intro hinfix
        rcases List.infix_cons_iff.1 hinfix with hprefix | hinfix
        · obtain ⟨t, ht⟩ := hprefix
          obtain ⟨rfl, rfl⟩ := List.cons.inj ht
          exact hfirst _ rfl rfl
        · exact hbody hinfix
  · intro h
    obtain ⟨rfl, hbody⟩ := h
    induction b with
    | nil => rfl
    | cons c b ih =>
        have hb : IsCommentBody b := fun hinfix =>
          hbody (List.infix_cons_iff.2 (Or.inr hinfix))
        rw [List.cons_append, readComment?, ih hb]
        · rfl
        · -- a `-->` at the front would lie in the body, since the end of a
          -- comment does not overlap itself
          intro r' hc heq
          subst hc
          match b, hbody, heq with
          | [], _, heq => simp at heq
          | [d], _, heq => simp at heq
          | d :: e :: b, hbody, heq =>
              simp only [List.cons_append, List.cons.injEq] at heq
              obtain ⟨rfl, rfl, -⟩ := heq
              exact hbody ⟨[], b, rfl⟩

-- ============================================================ tokens

/-- The texts that spell a token. -/
inductive Token.Spells (sp : Spacing) : Text → Token → Prop
  | text {t : Text} (nonempty : t ≠ []) (plain : '<' ∉ t) :
      Token.Spells sp t (.text t)
  | comment {b : Text} (body : IsCommentBody b) :
      Token.Spells sp ("<!--".toList ++ (b ++ "-->".toList)) (.comment b)
  | opening {h : Text} {n : Name} {as : List Attribute}
      (head : TagHead sp h n as) :
      Token.Spells sp ('<' :: (h ++ ['>'])) (.opening n as)
  | selfClosing {h : Text} {n : Name} {as : List Attribute}
      (head : TagHead sp h n as) :
      Token.Spells sp ('<' :: (h ++ "/>".toList)) (.selfClosing n as)
  | closing {n : Name} (name : n.Writable) :
      Token.Spells sp (closingTag n.raw) (.closing n)

/-- The text from a tag on, or the empty one: a text token ends there. -/
def Text.AtTag (r : Text) : Prop := ∀ c ∈ r.head?, c = '<'

/-- Where a token can end: a text only at a tag, any other token anywhere. -/
def Token.EndsBefore : Token → Text → Prop
  | .text _, r => r.AtTag
  | _, _ => True

/-- The head of a tag reads up to its end. -/
theorem TagHead.read {sp : Spacing} (hsp : sp.Lawful) {h r : Text} {n : Name}
    {as : List Attribute} (hh : TagHead sp h n as) {c : Char}
    (hend : c = '>' ∨ c = '/') :
    ∃ r₁ r₂, Name.read? (h ++ c :: r) = some (n, r₁)
      ∧ Attribute.readAll sp r₁ = (as, r₂)
      ∧ r₂.dropWhile sp.isSpace = c :: r := by
  obtain @⟨s, w, _, _, hname, hattrs, hspace, hends⟩ := hh
  have hspc : sp.isSpace c = false := by
    rcases hend with rfl | rfl
    · exact hsp.notGreater
    · exact hsp.notSlash
  have halpha : c.isAlpha = false ∧ isNameChar c = false := by
    rcases hend with rfl | rfl <;> decide
  refine ⟨s ++ (w ++ c :: r), w ++ c :: r, ?_, ?_, ?_⟩
  · refine Name.read?_eq_some_iff.2 ⟨by simp, hname, ?_⟩
    rw [← List.append_assoc]
    exact hends.append (by simpa using halpha.2)
  · exact Attribute.readAll_append hsp hattrs
      (Attribute.read?_eq_none hspace hspc halpha.1)
  · exact Text.dropWhile_append_stop hspace (by simpa using hspc)

/-- What a reader of a tag has read before its end is the head of a tag. -/
theorem TagHead.of_read {sp : Spacing} (hsp : sp.Lawful) {s r₁ e : Text}
    {n : Name} (hn : Name.read? s = some (n, r₁))
    (he : (Attribute.readAll sp r₁).2.dropWhile sp.isSpace = e) :
    ∃ h, s = h ++ e ∧ TagHead sp h n (Attribute.readAll sp r₁).1 := by
  obtain ⟨hs, hname, hends⟩ := Name.read?_eq_some_iff.1 hn
  obtain ⟨p, hp, hattrs⟩ := Attribute.readAll_spells hsp r₁
  obtain ⟨hw, hspace, -⟩ := (Text.scan_eq_iff sp.isSpace _ _ e).1 ⟨rfl, he⟩
  have hr₁ : r₁ = (p ++ (Attribute.readAll sp r₁).2.takeWhile sp.isSpace)
      ++ e := by
    rw [List.append_assoc, ← hw]
    exact hp
  refine ⟨_, ?_, .intro hname hattrs hspace ?_⟩
  · rw [List.append_assoc, ← hr₁]
    exact hs
  · rw [hr₁] at hends
    exact hends.of_append

/-- An opening or self-closing tag reads as its head and its end. -/
theorem Token.readTag?_eq_some_iff {sp : Spacing} (hsp : sp.Lawful) {s r : Text}
    {t : Token} :
    Token.readTag? sp s = some (t, r)
      ↔ ∃ h n as, TagHead sp h n as
          ∧ (s = h ++ '>' :: r ∧ t = .opening n as
            ∨ s = h ++ '/' :: '>' :: r ∧ t = .selfClosing n as) := by
  constructor
  · intro h
    unfold Token.readTag? at h
    split at h
    · cases h
    · next n r₁ hn =>
      dsimp only at h
      split at h
      · next rest he =>
        simp only [Option.some.injEq, Prod.mk.injEq] at h
        obtain ⟨rfl, rfl⟩ := h
        obtain ⟨h, hs, hh⟩ := TagHead.of_read hsp hn he
        exact ⟨h, n, _, hh, Or.inl ⟨hs, rfl⟩⟩
      · next rest he =>
        simp only [Option.some.injEq, Prod.mk.injEq] at h
        obtain ⟨rfl, rfl⟩ := h
        obtain ⟨h, hs, hh⟩ := TagHead.of_read hsp hn he
        exact ⟨h, n, _, hh, Or.inr ⟨hs, rfl⟩⟩
      · cases h
  · intro htag
    obtain ⟨h, n, as, hh, ⟨rfl, rfl⟩ | ⟨rfl, rfl⟩⟩ := htag
    · obtain ⟨r₁, r₂, hn, has, he⟩ := hh.read hsp (r := r) (Or.inl rfl)
      simp [Token.readTag?, hn, has, he]
    · obtain ⟨r₁, r₂, hn, has, he⟩ := hh.read hsp (r := '>' :: r) (Or.inr rfl)
      simp [Token.readTag?, hn, has, he]

/-- A closing tag reads as its name between its marks. -/
theorem Token.readClosing?_eq_some_iff {s r : Text} {t : Token} :
    Token.readClosing? s = some (t, r)
      ↔ ∃ n : Name, n.Writable ∧ s = n.raw ++ '>' :: r ∧ t = .closing n := by
  constructor
  · intro h
    unfold Token.readClosing? at h
    split at h
    · next n rest hn =>
      simp only [Option.some.injEq, Prod.mk.injEq] at h
      obtain ⟨rfl, rfl⟩ := h
      obtain ⟨hs, hname, -⟩ := Name.read?_eq_some_iff.1 hn
      exact ⟨n, hname, hs, rfl⟩
    · cases h
  · intro h
    obtain ⟨n, hname, rfl, rfl⟩ := h
    have hends : n.EndsBefore ('>' :: r) :=
      (Name.endsBefore_nil n).append (by simp [isNameChar])
    have hn : Name.read? (n.raw ++ '>' :: r) = some (n, '>' :: r) :=
      Name.read?_eq_some_iff.2 ⟨rfl, hname, hends⟩
    simp [Token.readClosing?, hn]

/-- The spelling of a name starts with a letter or a brace. -/
theorem Name.Writable.exists_cons {n : Name} (h : n.Writable) :
    ∃ c t, n.raw = c :: t ∧ (c.isAlpha = true ∨ c = '{') := by
  cases n with
  | literal t =>
      obtain ⟨c, t', rfl, hc⟩ := Text.IsWord.exists_cons h
      exact ⟨c, t', rfl, Or.inl hc⟩
  | placeholder t => exact ⟨'{', t ++ ['}'], rfl, Or.inr rfl⟩
  | property t => exact h.elim
  | fragment t => exact h.elim

/-- After the `<` of a tag stands neither the `!` of a comment nor the `/`
of a closing tag, so the reader of tags is the one that is tried. -/
theorem Token.read?_tag {sp : Spacing} {h s : Text} {n : Name}
    {as : List Attribute} (hh : TagHead sp h n as) :
    Token.read? sp ('<' :: (h ++ s)) = Token.readTag? sp (h ++ s) := by
  obtain @⟨_, _, _, _, hname, -, -, -⟩ := hh
  obtain ⟨c, t, hraw, hc⟩ := hname.exists_cons
  rw [Token.read?]
  · intro s' heq
    rw [hraw] at heq
    obtain ⟨rfl, -⟩ := List.cons.inj heq
    rcases hc with hc | hc <;> cases hc
  · intro s' heq
    rw [hraw] at heq
    obtain ⟨rfl, -⟩ := List.cons.inj heq
    rcases hc with hc | hc <;> cases hc

/-- A token reads exactly where the grammar spells it. -/
theorem Token.read?_eq_some_iff {sp : Spacing} (hsp : sp.Lawful) {s r : Text}
    {t : Token} :
    Token.read? sp s = some (t, r)
      ↔ ∃ p, s = p ++ r ∧ Token.Spells sp p t ∧ t.EndsBefore r := by
  constructor
  · intro h
    unfold Token.read? at h
    split at h
    · cases h
    · obtain ⟨⟨b, r'⟩, hr, he⟩ := Option.map_eq_some_iff.1 h
      simp only [Prod.mk.injEq] at he
      obtain ⟨rfl, rfl⟩ := he
      obtain ⟨rfl, hbody⟩ := readComment?_eq_some_iff.1 hr
      exact ⟨_, by simp, .comment hbody, trivial⟩
    · obtain ⟨n, hname, rfl, rfl⟩ := Token.readClosing?_eq_some_iff.1 h
      exact ⟨_, by simp [closingTag], .closing hname, trivial⟩
    · obtain ⟨h, n, as, hh, ⟨rfl, rfl⟩ | ⟨rfl, rfl⟩⟩ :=
        (Token.readTag?_eq_some_iff hsp).1 h
      · exact ⟨_, by simp, .opening hh, trivial⟩
      · exact ⟨_, by simp, .selfClosing hh, trivial⟩
    · next c s' _ _ hc =>
      simp only [Option.some.injEq, Prod.mk.injEq] at h
      obtain ⟨rfl, hr⟩ := h
      obtain ⟨hs, hin, hout⟩ := (Text.scan_eq_iff _ s' _ r).1 ⟨rfl, hr⟩
      refine ⟨_, congrArg (c :: ·) hs, .text (by simp) ?_, ?_⟩
      · intro hmem
        rcases List.mem_cons.1 hmem with rfl | hmem
        · exact hc rfl
        · simpa using hin '<' hmem
      · intro d hd
        simpa using hout d hd
  · intro h
    obtain ⟨p, rfl, hp, hends⟩ := h
    cases hp with
    | text hne hplain =>
        obtain ⟨c, t, rfl⟩ := List.exists_cons_of_ne_nil hne
        have hc : c ≠ '<' := fun hc => hplain (hc ▸ List.mem_cons_self ..)
        have hcut : (t ++ r).takeWhile (· != '<') = t
            ∧ (t ++ r).dropWhile (· != '<') = r := by
          refine (Text.scan_eq_iff _ _ t r).2 ⟨rfl, ?_, ?_⟩
          · intro d hd
            rw [bne_iff_ne]
            intro hdc
            subst hdc
            exact hplain (List.mem_cons_of_mem _ hd)
          · intro d hd
            simpa using hends d hd
        rw [List.cons_append, Token.read?]
        · rw [hcut.1, hcut.2]
        · intro s' hs
          exact absurd hs hc
        · intro s' hs
          exact absurd hs hc
        · intro hs
          exact absurd hs hc
    | @comment b hbody =>
        have hr : readComment? (b ++ ("-->".toList ++ r)) = some (b, r) :=
          readComment?_eq_some_iff.2 ⟨rfl, hbody⟩
        simpa [Token.read?] using hr
    | opening hh =>
        rw [List.cons_append, List.append_assoc, Token.read?_tag hh]
        exact (Token.readTag?_eq_some_iff hsp).2 ⟨_, _, _, hh,
          Or.inl ⟨rfl, rfl⟩⟩
    | selfClosing hh =>
        rw [List.cons_append, List.append_assoc, Token.read?_tag hh]
        exact (Token.readTag?_eq_some_iff hsp).2 ⟨_, _, _, hh,
          Or.inr ⟨rfl, rfl⟩⟩
    | @closing n hname =>
        have hr : Token.readClosing? (n.raw ++ '>' :: r)
            = some (.closing n, r) :=
          Token.readClosing?_eq_some_iff.2 ⟨n, hname, rfl, rfl⟩
        simpa [Token.read?, closingTag] using hr

end Stencil
