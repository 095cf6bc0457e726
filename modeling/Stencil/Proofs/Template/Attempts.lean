/-
The grammar of templates as it is tried. `templateGrammar` has the rules of
the grammar with their ordered choices, and `Tries` is a run of it, with
every attempt at a rule that has failed on the way.

The readers of tokens never go back. They read a piece once, and where it
cannot be read they compute what the furthest attempt at it would have been
(`Name.furthest?`, `Attribute.furthest`). For each piece of a tag, for texts
and for comments one lemma says that a run of the rules leaves what the
reader of the piece leaves, and that the furthest attempt is the one
computed.
-/
import Stencil.Proofs.Peg
import Stencil.Proofs.Template.Tokens
import Stencil.Template.Fault

namespace Stencil

open Peg (Runs)

-- ======================================================== the grammar

/-- The rules of the grammar at which an attempt counts. -/
inductive Rule where
  | template | document | tag | closeTag | selfClosingTag
  | literalName | placeholder | identifier
  | attribute | attrName | doubleQuoted | doubleInner | singleQuoted
  | singleInner
  | text | comment | commentBody | endOfInput
  deriving DecidableEq, Repr

/-- The name of a tag. -/
def Rule.tagName : Peg Rule := .alt (.rule .literalName) (.rule .placeholder)

/-- Space inside a tag. -/
def Rule.space : Peg Rule := .star (.char Spacing.grammar.isSpace)

/-- A tag up to its end. -/
def Rule.tagStart : Peg Rule :=
  .seq (.str "<".toList) (.seq tagName (.seq (.star (.rule .attribute)) space))

/-- A tag or a text. -/
def Rule.node : Peg Rule :=
  .alt (.rule .tag) (.alt (.rule .selfClosingTag) (.rule .text))

/-- What content is made of. -/
def Rule.item : Peg Rule := .alt node (.rule .comment)

/-- The bodies of the rules. -/
def templateGrammar : Rule → Peg Rule
  | .template => .seq (.rule .document) (.rule .endOfInput)
  | .document => .star Rule.item
  | .tag =>
    .seq Rule.tagStart (.seq (.str ">".toList)
      (.seq (.rule .document) (.rule .closeTag)))
  | .closeTag => .seq (.str "</".toList) (.seq Rule.tagName (.str ">".toList))
  | .selfClosingTag => .seq Rule.tagStart (.str "/>".toList)
  | .literalName => .word isNameChar
  | .placeholder =>
    .seq (.str "\x7b".toList) (.seq (.rule .identifier) (.str "\x7d".toList))
  | .identifier => .word isIdentChar
  | .attribute =>
    .seq Rule.space (.seq (.rule .attrName)
      (.seq (.str "=".toList)
        (.alt (.rule .doubleQuoted) (.rule .singleQuoted))))
  | .attrName => .word isNameChar
  | .doubleQuoted =>
    .seq (.str "\"".toList) (.seq (.rule .doubleInner) (.str "\"".toList))
  | .doubleInner => .star (.except "\"".toList)
  | .singleQuoted =>
    .seq (.str "'".toList) (.seq (.rule .singleInner) (.str "'".toList))
  | .singleInner => .star (.except "'".toList)
  | .text => .seq (.except "<".toList) (.star (.except "<".toList))
  | .comment =>
    .seq (.str "<!--".toList) (.seq (.rule .commentBody) (.str "-->".toList))
  | .commentBody => .star (.except "-->".toList)
  | .endOfInput => .not .any

/-- A run of an expression of the grammar. -/
abbrev Tries (e : Peg Rule) (s : Text) (res : Option Text)
    (failed : List Text) : Prop :=
  Runs templateGrammar e s res failed

-- ============================================================== names

theorem tries_char_miss {c : Char} {s : Text} (h : s.head? ≠ some c) :
    Tries (.str [c]) s none [] := by
  refine .strMiss ?_
  rintro ⟨r, rfl⟩
  exact h rfl

theorem tries_identifier (s : Text) :
    ∃ f, Tries (.rule .identifier) s ((Text.word? isIdentChar s).map Prod.snd) f
      ∧ Furthest f (if (Text.word? isIdentChar s).isSome then none
        else some s) := by
  have hword : Tries (templateGrammar .identifier) s _ [] :=
    Peg.runs_word isIdentChar s
  cases hread : Text.word? isIdentChar s with
  | none =>
      rw [hread] at hword
      exact ⟨[s], .ruleMiss hword, .single s⟩
  | some x =>
      rw [hread] at hword
      exact ⟨[], .ruleHit hword, rfl⟩

/-- An identifier in braces. -/
theorem tries_placeholder (s : Text) :
    ∃ f, Tries (.rule .placeholder) ('{' :: s)
      ((Name.read? ('{' :: s)).map Prod.snd) f
      ∧ Furthest (('{' :: s) :: f) (Name.furthest? ('{' :: s)) := by
  obtain ⟨f, hident, hfar⟩ := tries_identifier s
  rw [Name.furthest?]
  cases hread : Text.word? isIdentChar s with
  | none =>
      rw [hread] at hident hfar
      have hname : Name.read? ('{' :: s) = none := by
        simp only [Name.read?, hread]
      rw [hname]
      exact ⟨_,
        .ruleMiss (.seq (.strHit (t := "\x7b".toList)) (.seqMiss hident)),
        (hfar.cons (Nat.le_succ _)).cons (Nat.le_succ _)⟩
  | some x =>
      obtain ⟨ident, r⟩ := x
      rw [hread] at hident hfar
      obtain rfl : f = [] := hfar
      by_cases hclose : r.head? = some '}'
      · obtain ⟨r, rfl⟩ := List.head?_eq_some_iff.1 hclose
        have hname : Name.read? ('{' :: s) = some (.placeholder ident, r) := by
          simp only [Name.read?, hread]
        rw [hname]
        exact ⟨[] ++ ([] ++ []), .ruleHit (.seq (.strHit (t := "\x7b".toList))
          (.seq hident (.strHit (t := "\x7d".toList)))), .single _⟩
      · have hname : Name.read? ('{' :: s) = none := by
          simp only [Name.read?, hread]
          split
          · next heq =>
            cases heq
            exact absurd rfl hclose
          · rfl
        rw [hname]
        exact ⟨_, .ruleMiss (.seq (.strHit (t := "\x7b".toList))
          (.seq hident (tries_char_miss hclose))),
            Furthest.cons (.single _) (Nat.le_refl _)⟩

/-- A tag name is tried as the reader reads it. -/
theorem tries_tagName (s : Text) :
    ∃ f, Tries Rule.tagName s ((Name.read? s).map Prod.snd) f
      ∧ Furthest f (Name.furthest? s) := by
  have hword : Tries (templateGrammar .literalName) s _ [] :=
    Peg.runs_word isNameChar s
  by_cases hbrace : s.head? = some '{'
  · -- a brace is no letter: the literal name fails, the placeholder decides
    obtain ⟨s, rfl⟩ := List.head?_eq_some_iff.1 hbrace
    obtain ⟨f, hplaceholder, hfar⟩ := tries_placeholder s
    exact ⟨_, .alt (.ruleMiss hword) hplaceholder, hfar⟩
  · have hread : (Name.read? s).map Prod.snd
        = (Text.word? isNameChar s).map Prod.snd := by
      unfold Name.read?
      split
      · exact absurd rfl hbrace
      · rw [Option.map_map]
        rfl
    have hfar : Name.furthest? s
        = if (Text.word? isNameChar s).isSome then none else some s := by
      unfold Name.furthest?
      split
      · exact absurd rfl hbrace
      · rfl
    rw [hread, hfar]
    cases hsome : Text.word? isNameChar s with
    | some x =>
        rw [hsome] at hword
        exact ⟨_, .altHit (.ruleHit hword), rfl⟩
    | none =>
        rw [hsome] at hword
        have hplaceholder : Tries (.rule .placeholder) s none [s] :=
          .ruleMiss (.seqMiss (tries_char_miss hbrace))
        exact ⟨_, .alt (.ruleMiss hword) hplaceholder,
          Furthest.cons (.single s) (Nat.le_refl _)⟩

/-- A name that is read has failed attempts at its start only, if at all. -/
theorem Name.furthest?_of_read? {s r : Text} {n : Name}
    (h : Name.read? s = some (n, r)) :
    ∀ far ∈ Name.furthest? s, far = s := by
  intro far hfar
  unfold Name.read? at h
  unfold Name.furthest? at hfar
  split at h
  · split at h
    · next hword => simpa [hword] using hfar.symm
    · cases h
  · next hbrace =>
    obtain ⟨x, hword, -⟩ := Option.map_eq_some_iff.1 h
    split at hfar
    · next s => exact absurd rfl (hbrace s)
    · simp [hword] at hfar

/-- Where no name is read, an attempt has failed. -/
theorem Name.furthest?_of_none {s : Text} (h : Name.read? s = none) :
    ∃ far, Name.furthest? s = some far := by
  unfold Name.read? at h
  unfold Name.furthest?
  split
  · split
    · exact ⟨_, rfl⟩
    · exact ⟨_, rfl⟩
  · next hbrace =>
    split at h
    · next s => exact absurd rfl (hbrace s)
    · simp [Option.map_eq_none_iff.1 h]

-- ========================================================= attributes

/-- A value between two marks that it does not hold. -/
theorem tries_delimited (quoted inner : Rule) (mark : Char)
    (hquoted : templateGrammar quoted
      = .seq (.str [mark]) (.seq (.rule inner) (.str [mark])))
    (hinner : templateGrammar inner = .star (.except [mark])) (s : Text) :
    Tries (.rule quoted) (mark :: s)
      ((Attribute.readValue? mark s).map Prod.snd)
      (if (Attribute.readValue? mark s).isSome then [] else [mark :: s]) := by
  have hbody : Tries (.rule inner) s (some (s.dropWhile (· != mark))) [] :=
    .ruleHit (hinner ▸ Peg.runs_star_except mark s)
  rw [Attribute.readValue?]
  rcases Text.dropWhile_mark_cases mark s with hnil | ⟨r, hr⟩
  · rw [hnil] at hbody ⊢
    refine .ruleMiss ?_
    rw [hquoted]
    exact .seq (.strHit (t := [mark])) (.seq hbody (tries_char_miss (by simp)))
  · rw [hr] at hbody ⊢
    refine .ruleHit ?_
    rw [hquoted]
    exact .seq (.strHit (t := [mark])) (.seq hbody (.strHit (t := [mark])))

/-- No value starts here. -/
theorem tries_delimited_miss (quoted inner : Rule) (mark : Char)
    (hquoted : templateGrammar quoted
      = .seq (.str [mark]) (.seq (.rule inner) (.str [mark])))
    {s : Text} (h : s.head? ≠ some mark) : Tries (.rule quoted) s none [s] := by
  refine .ruleMiss ?_
  rw [hquoted]
  exact .seqMiss (tries_char_miss h)

/-- A quoted value is tried as the reader reads it, both times where it
starts. -/
theorem tries_quoted (s : Text) :
    ∃ f, Tries (.alt (.rule .doubleQuoted) (.rule .singleQuoted)) s
        ((Attribute.readQuoted? s).map Prod.snd) f
      ∧ (∀ u ∈ f, u = s) ∧ (Attribute.readQuoted? s = none → s ∈ f) := by
  by_cases hdouble : s.head? = some '"'
  · obtain ⟨s, rfl⟩ := List.head?_eq_some_iff.1 hdouble
    have hread := tries_delimited .doubleQuoted .doubleInner '"' rfl rfl s
    have hother : Tries (.rule .singleQuoted) ('"' :: s) none ['"' :: s] :=
      tries_delimited_miss .singleQuoted .singleInner '\'' rfl (by simp)
    rw [Attribute.readQuoted?]
    cases hvalue : Attribute.readValue? '"' s with
    | none =>
        rw [hvalue] at hread
        exact ⟨_, .alt hread hother, by simp, by simp⟩
    | some x =>
        rw [hvalue] at hread
        exact ⟨_, .altHit hread, by simp, by simp⟩
  · have hother : Tries (.rule .doubleQuoted) s none [s] :=
      tries_delimited_miss .doubleQuoted .doubleInner '"' rfl hdouble
    by_cases hsingle : s.head? = some '\''
    · obtain ⟨s, rfl⟩ := List.head?_eq_some_iff.1 hsingle
      have hread := tries_delimited .singleQuoted .singleInner '\'' rfl rfl s
      rw [Attribute.readQuoted?]
      cases hvalue : Attribute.readValue? '\'' s with
      | none =>
          rw [hvalue] at hread
          exact ⟨_, .alt hother hread, by simp, by simp⟩
      | some x =>
          rw [hvalue] at hread
          exact ⟨_, .alt hother hread, by simp, by simp⟩
    · have hnone : Attribute.readQuoted? s = none := by
        unfold Attribute.readQuoted?
        split
        · exact absurd rfl hdouble
        · exact absurd rfl hsingle
        · rfl
      rw [hnone]
      exact ⟨_, .alt hother (tries_delimited_miss .singleQuoted .singleInner
        '\'' rfl hsingle), by simp, by simp⟩

/-- What is read and what has failed where an attribute has no name. -/
theorem Attribute.read?_of_no_name {s : Text}
    (h : Text.word? isNameChar (s.dropWhile Spacing.grammar.isSpace) = none) :
    Attribute.read? .grammar s = none
      ∧ Attribute.furthest s = s.dropWhile Spacing.grammar.isSpace := by
  have hsep : ¬ (Spacing.grammar.separated
      && !s.head?.any Spacing.grammar.isSpace) = true := by
    simp [Spacing.grammar]
  simp only [Attribute.read?, Attribute.furthest, if_neg hsep, h, and_self]

/-- What is read and what has failed behind the `=` of an attribute. -/
theorem Attribute.read?_of_value {s n v : Text}
    (h : Text.word? isNameChar (s.dropWhile Spacing.grammar.isSpace)
      = some (n, '=' :: v)) :
    Attribute.read? .grammar s
        = (Attribute.readQuoted? v).map (fun (value, r) => (⟨n, value⟩, r))
      ∧ Attribute.furthest s = v := by
  have hsep : ¬ (Spacing.grammar.separated
      && !s.head?.any Spacing.grammar.isSpace) = true := by
    simp [Spacing.grammar]
  simp only [Attribute.read?, Attribute.furthest, if_neg hsep, h, and_self]

/-- What is read and what has failed where a name has no `=` behind it. -/
theorem Attribute.read?_of_no_value {s n w : Text}
    (h : Text.word? isNameChar (s.dropWhile Spacing.grammar.isSpace)
      = some (n, w))
    (hw : w.head? ≠ some '=') :
    Attribute.read? .grammar s = none ∧ Attribute.furthest s = s := by
  have hsep : ¬ (Spacing.grammar.separated
      && !s.head?.any Spacing.grammar.isSpace) = true := by
    simp [Spacing.grammar]
  simp only [Attribute.read?, Attribute.furthest, if_neg hsep, h]
  constructor
  · split
    · next heq =>
      cases heq
      exact absurd rfl hw
    · rfl
  · split
    · next heq => cases heq
    · next heq =>
      cases heq
      exact absurd rfl hw
    · rfl

theorem Attribute.length_furthest_le (s : Text) :
    (Attribute.furthest s).length ≤ s.length := by
  have hle := Text.length_dropWhile_le Spacing.grammar.isSpace s
  unfold Attribute.furthest
  dsimp only
  split
  · exact hle
  · next hword =>
    have hlt := Text.length_lt_of_word? hword
    rw [List.length_cons] at hlt
    omega
  · exact Nat.le_refl _

/-- An attribute is tried as the reader reads it. -/
theorem tries_attribute (s : Text) :
    ∃ f, Tries (.rule .attribute) s
      ((Attribute.read? .grammar s).map Prod.snd) f
      ∧ (Attribute.read? .grammar s = none
        → Furthest f (some (Attribute.furthest s)))
      ∧ ∀ a r, Attribute.read? .grammar s = some (a, r) → ∀ u ∈ f,
        r.length < u.length := by
  have hspace : Tries Rule.space s
      (some (s.dropWhile Spacing.grammar.isSpace)) [] :=
    Peg.runs_star_char ..
  have hword : Tries (templateGrammar .attrName)
      (s.dropWhile Spacing.grammar.isSpace) _ [] :=
    Peg.runs_word isNameChar _
  have hle := Attribute.length_furthest_le s
  cases hname : Text.word? isNameChar (s.dropWhile Spacing.grammar.isSpace) with
  | none =>
      rw [hname] at hword
      obtain ⟨hread, hfar⟩ := Attribute.read?_of_no_name hname
      rw [hread, hfar]
      rw [hfar] at hle
      exact ⟨_, .ruleMiss (.seq hspace (.seqMiss (.ruleMiss hword))),
        fun _ => Furthest.cons (.single _) hle, by simp⟩
  | some x =>
      obtain ⟨name, w⟩ := x
      rw [hname] at hword
      by_cases heq : w.head? = some '='
      · obtain ⟨v, rfl⟩ := List.head?_eq_some_iff.1 heq
        obtain ⟨hread, hfar⟩ := Attribute.read?_of_value hname
        obtain ⟨f, hquoted, hat, hsome⟩ := tries_quoted v
        have hbody : Tries (templateGrammar .attribute) s _
            ([] ++ ([] ++ ([] ++ f))) :=
          .seq hspace (.seq (.ruleHit hword)
            (.seq (.strHit (t := "=".toList)) hquoted))
        rw [hread, hfar]
        rw [hfar] at hle
        cases hvalue : Attribute.readQuoted? v with
        | none =>
            rw [hvalue] at hbody
            have hlast : Furthest f (some v) :=
              ⟨hsome hvalue, fun u hu => by rw [hat u hu]⟩
            exact ⟨_, .ruleMiss hbody, fun _ => hlast.cons hle, by simp⟩
        | some y =>
            obtain ⟨value, r⟩ := y
            rw [hvalue] at hbody
            refine ⟨_, .ruleHit hbody, by simp, ?_⟩
            intro a r' hr' u hu
            cases hr'
            rw [hat u hu]
            exact Attribute.length_lt_of_readQuoted? hvalue
      · obtain ⟨hread, hfar⟩ := Attribute.read?_of_no_value hname heq
        rw [hread, hfar]
        exact ⟨_, .ruleMiss (.seq hspace
          (.seq (.ruleHit hword) (.seqMiss (tries_char_miss heq)))),
            fun _ => .single s, by simp⟩

/-- Attributes are tried until one cannot be read. -/
theorem tries_attributes (s : Text) :
    ∃ f, Tries (.star (.rule .attribute)) s
      (some (Attribute.readAll .grammar s).2) f
      ∧ Furthest f
        (some (Attribute.furthest (Attribute.readAll .grammar s).2)) := by
  fun_induction Attribute.readAll .grammar s with
  | case1 s hnone =>
      obtain ⟨f, hread, hfar, -⟩ := tries_attribute s
      rw [hnone] at hread
      exact ⟨f, .starMiss hread, hfar hnone⟩
  | case2 s a r hsome more ih =>
      obtain ⟨f, hread, -, hbefore⟩ := tries_attribute s
      obtain ⟨f', hmore, hfar⟩ := ih
      rw [hsome] at hread
      refine ⟨f ++ f', .star hread hmore, hfar.append fun u hu => ?_⟩
      have hlt := hbefore a r hsome u hu
      have hle := Attribute.length_furthest_le (Attribute.readAll .grammar r).2
      have hall := Attribute.length_readAll_le .grammar r
      omega

-- ========================================================== tag heads

/-- Attempts that are all at or before a point. -/
theorem Furthest.forall_le {f : List Text} {far : Option Text} {n : Nat}
    (h : Furthest f far) (hfar : ∀ u ∈ far, n ≤ u.length) :
    ∀ u ∈ f, n ≤ u.length := by
  intro u hu
  cases far with
  | none =>
      obtain rfl : f = [] := h
      cases hu
  | some w => exact Nat.le_trans (hfar w rfl) (h.2 u hu)

theorem tries_tagStart_of_head {s : Text} (h : s.head? ≠ some '<') :
    Tries Rule.tagStart s none [] :=
  .seqMiss (tries_char_miss h)

theorem tries_tagStart_of_none {u : Text} (h : Name.read? u = none) :
    ∃ f, Tries Rule.tagStart ('<' :: u) none f
      ∧ Furthest f (Name.furthest? u) := by
  obtain ⟨f, hname, hfar⟩ := tries_tagName u
  rw [h] at hname
  exact ⟨_, .seq (.strHit (t := "<".toList)) (.seqMiss hname), hfar⟩

theorem tries_tagStart_of_some {u r : Text} {n : Name}
    (h : Name.read? u = some (n, r)) :
    ∃ f, Tries Rule.tagStart ('<' :: u)
        (some ((Attribute.readAll .grammar r).2.dropWhile
          Spacing.grammar.isSpace)) f
      ∧ Furthest f
        (some (Attribute.furthest (Attribute.readAll .grammar r).2)) := by
  obtain ⟨f, hname, hfirst⟩ := tries_tagName u
  obtain ⟨f', hattributes, hfar⟩ := tries_attributes r
  rw [h] at hname
  refine ⟨[] ++ (f ++ (f' ++ [])), .seq (.strHit (t := "<".toList))
    (.seq hname (.seq hattributes (Peg.runs_star_char ..))), ?_⟩
  rw [List.append_nil]
  refine hfar.append (hfirst.forall_le fun w hw => ?_)
  obtain rfl := Name.furthest?_of_read? h w hw
  have hlt := Name.length_lt_of_read? h
  have hle := Attribute.length_furthest_le (Attribute.readAll .grammar r).2
  have hall := Attribute.length_readAll_le .grammar r
  omega

-- ================================================= texts and comments

theorem tries_text {c : Char} (hc : c ≠ '<') (s : Text) :
    Tries (.rule .text) (c :: s) (some (s.dropWhile (· != '<'))) [] := by
  have hmiss : ¬ ['<'] <+: c :: s := by
    rw [List.cons_prefix_cons]
    exact fun h => hc h.1.symm
  exact .ruleHit (.seq (Peg.runs_except_hit hmiss) (Peg.runs_star_except '<' s))

theorem tries_text_miss {s : Text} (h : s.AtTag) :
    Tries (.rule .text) s none [s] := by
  refine .ruleMiss (.seqMiss ?_)
  cases s with
  | nil => exact Peg.runs_except_end (by decide)
  | cons c s =>
      obtain rfl : c = '<' := h c rfl
      exact Peg.runs_except_miss ⟨s, rfl⟩

/-- The body of a comment is tried up to its end, or to that of the text. -/
theorem tries_commentBody (s : Text) :
    ∃ r, Tries (.star (.except "-->".toList)) s (some r) []
      ∧ Tries (.str "-->".toList) r ((readComment? s).map Prod.snd) [] := by
  fun_induction readComment? s with
  | case1 =>
      exact ⟨[], .starMiss (Peg.runs_except_end (by decide)),
        .strMiss (by decide)⟩
  | case2 r =>
      exact ⟨_, .starMiss (Peg.runs_except_miss ⟨r, rfl⟩),
        .strHit (t := "-->".toList)⟩
  | case3 c s hfirst ih =>
      have hmiss : ¬ "-->".toList <+: c :: s := by
        rintro ⟨r, hr⟩
        obtain ⟨rfl, rfl⟩ := List.cons.inj hr
        exact hfirst r rfl rfl
      obtain ⟨r, hbody, hend⟩ := ih
      refine ⟨r, .star (Peg.runs_except_hit hmiss) hbody, ?_⟩
      rw [Option.map_map]
      exact hend

theorem tries_comment (s : Text) :
    Tries (.rule .comment) ("<!--".toList ++ s) ((readComment? s).map Prod.snd)
      (if (readComment? s).isSome then [] else ["<!--".toList ++ s]) := by
  obtain ⟨r, hbody, hend⟩ := tries_commentBody s
  have hcomment : Tries (templateGrammar .comment) ("<!--".toList ++ s) _
      ([] ++ ([] ++ [])) :=
    .seq .strHit (.seq (.ruleHit hbody) hend)
  cases hread : readComment? s with
  | none =>
      rw [hread] at hcomment
      exact .ruleMiss hcomment
  | some x =>
      rw [hread] at hcomment
      exact .ruleHit hcomment

theorem tries_comment_miss {s : Text} (h : ¬ "<!--".toList <+: s) :
    Tries (.rule .comment) s none [s] :=
  .ruleMiss (.seqMiss (.strMiss h))

end Stencil
