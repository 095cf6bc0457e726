/-
Diagnostics show the right place. Whatever is wrong with a template, its
error is at a character or at the end of the template, and the excerpt is
five lines, of which the fourth repeats the line of the template as it is
before the place, and the fifth has its caret behind as many spaces.

# No place inside a line end

The excerpt takes its line from the lines of the template, which end before
a carriage return and line feed, while the column counts every character.
So all depends on no error being between these two (`CaretPlace`). A wrong
closing tag starts with `<` and a name with a letter, which leaves the
furthest attempt of the grammar. It is at a character that is no space, or
right behind the `=` of an attribute, a quote, a brace or a character of a
name, and so is never behind a carriage return and before a line feed:
space is gone past as a whole, and a text is read up to the next tag
(`place_of_stuckAt`).

# Five lines

No name that a template can spell holds a line feed, a character that is
shown is shown without one, and neither do the lines of a template.
-/
import Stencil.Proofs.Text.Position
import Stencil.Proofs.Template.Misnaming
import Stencil.Proofs.Template.Rejection
import Stencil.Proofs.Text.Quoted

namespace Stencil

-- ============================================================= places

/-- A place in a text, given by what is left of the text there: any but one
between a carriage return and its line feed. -/
structure CaretPlace (s rest : Text) : Prop where
  suffix : rest <:+ s
  whole : '\r' :: rest <:+ s → rest.head? ≠ some '\n'

theorem CaretPlace.of_head {s rest : Text} (h : rest <:+ s)
    (hrest : rest.head? ≠ some '\n') :
    CaretPlace s rest :=
  ⟨h, fun _ => hrest⟩

theorem CaretPlace.behind {s rest : Text} {c : Char} (h : c :: rest <:+ s)
    (hc : c ≠ '\r') :
    CaretPlace s rest := by
  refine ⟨(List.suffix_cons c rest).trans h, fun hreturn => ?_⟩
  have hsame :=
    (List.suffix_of_suffix_length_le h hreturn (by simp)).eq_of_length (by simp)
  exact absurd (List.cons.inj hsame).1 hc

/-- What stands before a place, for the lines of the text. -/
theorem CaretPlace.exists_cut {s rest : Text} (h : CaretPlace s rest) :
    ∃ before, s = before ++ rest
      ∧ ¬ (before.getLast? = some '\r' ∧ rest.head? = some '\n') := by
  obtain ⟨before, rfl⟩ := h.suffix
  refine ⟨before, rfl, ?_⟩
  rintro ⟨hlast, hhead⟩
  obtain ⟨u, rfl⟩ := List.getLast?_eq_some_iff.1 hlast
  exact h.whole ⟨u, by simp⟩ hhead

-- ============================================ where an attempt can fail

/-- Names are spelled without control characters. -/
theorem Name.Writable.le_toNat {n : Name} (h : n.Writable) :
    ∀ c ∈ n.raw, 0x20 ≤ c.toNat := by
  have hname : ∀ c, isNameChar c → 0x20 ≤ c.toNat := by
    intro c hc
    rw [isNameChar, Bool.or_eq_true, Bool.or_eq_true, decide_eq_true_eq,
      decide_eq_true_eq] at hc
    rcases hc with (halnum | rfl) | rfl
    · exact Text.le_toNat_of_isAlphanum halnum
    · decide
    · decide
  have hident : ∀ c, isIdentChar c → isNameChar c := by
    intro c hc
    rw [isNameChar, ← isIdentChar, hc, Bool.true_or]
  have hword : ∀ {more : Char → Bool} {w : Text}, (∀ c, more c → isNameChar c) →
      w.IsWord more → ∀ c ∈ w, 0x20 ≤ c.toNat := by
    intro more w hmore hw c hc
    cases w with
    | nil => cases hc
    | cons d w =>
        rcases List.mem_cons.1 hc with rfl | hc
        · exact Text.le_toNat_of_isAlphanum (by simp [Char.isAlphanum, hw.1])
        · exact hname c (hmore c (hw.2 c hc))
  cases n with
  | literal t => exact hword (fun _ hc => hc) h
  | placeholder t =>
      intro c hc
      rw [Name.raw, List.mem_cons, List.mem_append, List.mem_singleton] at hc
      rcases hc with rfl | hc | rfl
      · decide
      · exact hword hident h c hc
      · decide
  | property t => cases h
  | fragment t => cases h

theorem Name.place_furthest? {s u far : Text} {c : Char} (hu : c :: u <:+ s)
    (hc : c ≠ '\r') (h : Name.furthest? u = some far) : CaretPlace s far := by
  unfold Name.furthest? at h
  split at h
  · next v =>
    split at h
    · cases h
      exact .behind hu hc
    · cases h
      exact .behind ((List.suffix_cons c _).trans hu) (by decide)
  · split at h
    · cases h
    · cases h
      exact .behind hu hc

theorem Attribute.place_furthest {s u : Text} {c : Char} (hu : c :: u <:+ s)
    (hc : c ≠ '\r') :
    CaretPlace s (Attribute.furthest u) := by
  have hspace : u.dropWhile Spacing.grammar.isSpace <:+ s :=
    (List.dropWhile_suffix _).trans ((List.suffix_cons c u).trans hu)
  cases hname : Text.word? isNameChar (u.dropWhile Spacing.grammar.isSpace) with
  | none =>
      rw [(Attribute.read?_of_no_name hname).2]
      refine .of_head hspace fun hbreak => ?_
      have hstop :=
        ((Text.scan_eq_iff Spacing.grammar.isSpace u _ _).1 ⟨rfl, rfl⟩).2.2
          '\n' hbreak
      cases hstop
  | some found =>
      obtain ⟨name, r⟩ := found
      by_cases heq : r.head? = some '='
      · obtain ⟨v, rfl⟩ := List.head?_eq_some_iff.1 heq
        rw [(Attribute.read?_of_value hname).2]
        refine .behind (c := '=') ?_ (by decide)
        rw [(Text.word?_eq_some_iff.1 hname).1] at hspace
        exact (List.suffix_append name ('=' :: v)).trans hspace
      · rw [(Attribute.read?_of_no_value hname heq).2]
        exact .behind hu hc

/-- Attributes end with a quote. -/
theorem Attribute.SpellsAll.getLast? {sp : Spacing} {p : Text}
    {as : List Attribute} (h : Attribute.SpellsAll sp p as) :
    ∀ c ∈ p.getLast?, c = '"' ∨ c = '\'' := by
  induction h with
  | nil => simp
  | @cons p s a as hfirst _ ih =>
      intro c hc
      rw [List.getLast?_append] at hc
      cases hs : s.getLast? with
      | some d =>
          rw [hs] at hc ih
          exact ih c hc
      | none =>
          obtain @⟨w, n, v, mark, -, -, -, hquote, -⟩ := hfirst
          obtain rfl : mark = c := by simpa [hs, List.getLast?_cons] using hc
          exact hquote

/-- What follows the name and the attributes of a tag is behind a character
of one of them. -/
theorem exists_behind_attributes {s u r : Text} {n : Name} (hu : u <:+ s)
    (h : Name.read? u = some (n, r)) :
    ∃ c, c ≠ '\r' ∧ c :: (Attribute.readAll .grammar r).2 <:+ s := by
  obtain ⟨rfl, hwritable, -⟩ := Name.read?_eq_some_iff.1 h
  obtain ⟨p, hp, hattributes⟩ :=
    Attribute.readAll_spells Spacing.grammar_lawful r
  obtain ⟨d, t, hraw, -⟩ := hwritable.exists_cons
  have hne : n.raw ++ p ≠ [] := by simp [hraw]
  obtain ⟨c, hc⟩ :=
    Option.ne_none_iff_exists'.1 (mt List.getLast?_eq_none_iff.1 hne)
  obtain ⟨front, hfront⟩ := List.getLast?_eq_some_iff.1 hc
  refine ⟨c, ?_, ?_⟩
  · rintro rfl
    rw [List.getLast?_append] at hc
    cases hlast : p.getLast? with
    | some e =>
        obtain rfl : e = '\r' := by simpa [hlast] using hc
        rcases hattributes.getLast? _ hlast with hmark | hmark <;> cases hmark
    | none =>
        rw [hlast, Option.none_or] at hc
        have hshown := hwritable.le_toNat '\r' (List.mem_of_getLast? hc)
        exact absurd hshown (by decide)
  · refine List.IsSuffix.trans ⟨front, ?_⟩ hu
    rw [List.append_cons, ← hfront, List.append_assoc, ← hp]

/-- Where no token can be read, or a closing tag closes nothing, the
furthest attempt has failed at a place. -/
theorem place_furthest {s u : Text} (inside : Bool) (hu : u <:+ s)
    (hat : u.AtTag) :
    CaretPlace s (furthest inside u) := by
  unfold furthest
  split
  · next v =>
    have hslash : '/' :: v <:+ s := (List.suffix_cons ..).trans hu
    split
    · cases hfar : Name.furthest? v with
      | none => exact .of_head hslash (by simp)
      | some far => exact Name.place_furthest? hslash (by decide) hfar
    · exact .of_head hslash (by simp)
  · next v _ =>
    split
    · next n r hread =>
      obtain ⟨c, hc, hbehind⟩ :=
        exists_behind_attributes ((List.suffix_cons ..).trans hu) hread
      exact Attribute.place_furthest hbehind hc
    · next hread =>
      obtain ⟨far, hfar⟩ := Name.furthest?_of_none hread
      rw [hfar]
      exact Name.place_furthest? hu (by decide) hfar
  · next hother =>
    refine .of_head hu fun hbreak => ?_
    cases hat _ hbreak

theorem atTag_of_read?_eq_none {s : Text} (h : Token.read? .grammar s = none) :
    s.AtTag := by
  intro c hc
  obtain ⟨t, rfl⟩ := List.head?_eq_some_iff.1 hc
  by_contra hne
  rw [Token.read?_text .grammar hne] at h
  cases h

/-- A template that the grammar rejects is rejected at a place. -/
theorem place_of_stuckAt (s : Text) :
    ∀ (whole : Text) (depth : Nat) (far : Text),
    s <:+ whole → stuckAt s depth = some far → CaretPlace whole far := by
  fun_induction Token.readAll .grammar s with
  | case1 s hread =>
      intro whole depth far hs hstuck
      rw [stuckAt_none hread] at hstuck
      split at hstuck
      · cases hstuck
      · cases hstuck
        exact place_furthest _ hs (atTag_of_read?_eq_none hread)
  | case2 s t r hread more ih =>
      intro whole depth far hs hstuck
      obtain ⟨p, rfl, hspells, -⟩ :=
        (Token.read?_eq_some_iff Spacing.grammar_lawful).1 hread
      have hr : r <:+ whole := (List.suffix_append p r).trans hs
      cases hspells with
      | text =>
          exact ih whole depth far hr
            ((stuckAt_leaf hread trivial depth).symm.trans hstuck)
      | comment =>
          exact ih whole depth far hr
            ((stuckAt_leaf hread trivial depth).symm.trans hstuck)
      | selfClosing =>
          exact ih whole depth far hr
            ((stuckAt_leaf hread trivial depth).symm.trans hstuck)
      | opening =>
          exact ih whole (depth + 1) far hr
            ((stuckAt_opening hread depth).symm.trans hstuck)
      | closing =>
          cases depth with
          | succ depth =>
              exact ih whole depth far hr
                ((stuckAt_closing hread depth).symm.trans hstuck)
          | zero =>
              rw [stuckAt_closing_zero hread] at hstuck
              cases hstuck
              exact place_furthest false hs (by simp [Text.AtTag, closingTag])

-- ============================================================= faults

/-- The faults that name tags, by names that a template can spell. -/
inductive Fault.Names : Fault → Prop
  | mismatched {n m : Name} (opened : n.Writable) (closed : m.Writable) :
      Fault.Names (.mismatched n.raw m.raw)
  | uppercase {t : Text} (name : (Name.literal t).Writable) :
      Fault.Names (.uppercase t)

/-- The culprit of such a fault does not start with a line feed. -/
theorem Fault.Names.head?_culprit {fault : Fault} (h : fault.Names)
    (after : Text) :
    (fault.culprit ++ after).head? ≠ some '\n' := by
  cases h with
  | mismatched _ _ => simp [Fault.culprit, closingTag]
  | uppercase hname =>
      obtain ⟨c, t, rfl, hc⟩ := Text.IsWord.exists_cons hname
      intro hbreak
      obtain rfl : c = '\n' := by simpa [Fault.culprit] using hbreak
      cases hc

/-- The rules on names are broken by names that a template can spell. -/
theorem RawDocument.names {s : Text} {ns : List RawNode}
    (h : RawDocument s ns) :
    ∀ start, ∀ v ∈ RawNode.violationsList start ns, v.fault.Names := by
  have hcapitals : ∀ {h : Text} {n : Name} {as : List Attribute} {offset : Nat}
      {v : Violation}, TagHead .grammar h n as → v ∈ n.capitals offset
        → v.fault.Names := by
    intro h n as offset v head hv
    obtain ⟨t, rfl, rfl⟩ := Name.eq_of_mem_capitals hv
    obtain ⟨hname, -, -, -⟩ := head
    exact .uppercase hname
  induction h with
  | nil =>
      intro start v hv
      cases hv
  | text _ _ _ _ ih => exact fun start v hv => ih _ v hv
  | comment _ _ ih => exact fun start v hv => ih _ v hv
  | selfClosing head _ ih =>
      intro start v hv
      rw [RawNode.violationsList, RawNode.violations] at hv
      rcases List.mem_append.1 hv with hv | hv
      · exact hcapitals head hv
      · exact ih _ v hv
  | element head _ hclosed _ ihcontent ih =>
      intro start v hv
      rw [RawNode.violationsList, RawNode.violations] at hv
      rcases List.mem_append.1 hv with hv | hv
      · rcases List.mem_append.1 hv with hv | hv
        · rcases List.mem_append.1 hv with hv | hv
          · exact hcapitals head hv
          · exact ihcontent _ v hv
        · obtain rfl := Name.eq_of_mem_misclosed hv
          obtain ⟨hname, -, -, -⟩ := head
          exact .mismatched hname hclosed
      · exact ih _ v hv

theorem Scan.writable {sp : Spacing} {s rest : Text} {ts : List Token}
    (h : Scan sp s ts rest) {n : Name} {as : List Attribute}
    (hmem : .opening n as ∈ ts) : n.Writable := by
  induction h with
  | nil => cases hmem
  | cons htoken _ _ ih =>
      rcases List.mem_cons.1 hmem with rfl | hmem
      · cases htoken with
        | opening head =>
            obtain ⟨hname, -, -, -⟩ := head
            exact hname
      · exact ih hmem

/-- The tags that are open behind some tokens were opened among them. -/
theorem Nested.exists_opening {opened : List Text} {ts : List Token}
    (h : Nested opened ts) :
    ∀ x ∈ opened, ∃ n as, x = Name.raw n ∧ .opening n as ∈ ts := by
  induction h with
  | root _ => simp
  | @inner n as outer before ts _ _ ih =>
      intro x hx
      rcases List.mem_cons.1 hx with rfl | hx
      · exact ⟨n, as, rfl, by simp⟩
      · obtain ⟨m, bs, rfl, hmem⟩ := ih x hx
        exact ⟨m, bs, rfl, List.mem_append_left _ hmem⟩

theorem FirstMisclosed.names {s x y : Text} {o : Nat}
    (h : FirstMisclosed s x y o) :
    (Fault.mismatched x y).Names
      ∧ ∃ before after, s = before ++ (closingTag y ++ after)
      ∧ o = before.byteSize := by
  obtain @⟨before, after, x, ts, outer, m, hscan, hnested, hname, -⟩ := h
  obtain ⟨n, as, rfl, hmem⟩ := hnested.exists_opening x (List.mem_cons_self ..)
  exact ⟨.mismatched (hscan.writable hmem) hname, before, after, rfl, rfl⟩

-- ============================================================ messages

theorem Text.break_notMem_ofNat (n : Nat) : '\n' ∉ Text.ofNat n := by
  intro hmem
  cases Nat.isDigit_of_mem_toDigits (by decide) (by decide) hmem

theorem Text.break_notMem_hex (n : Nat) : '\n' ∉ Text.hex n := by
  have hdigit : ∀ k < 16, Nat.digitChar k ≠ '\n' := by decide
  induction n using Nat.strongRecOn with
  | _ n ih =>
      unfold Text.hex at ih ⊢
      rw [Nat.toDigits_eq_if (by decide)]
      split
      · next hlt => simp [(hdigit n hlt).symm]
      · next hge =>
        have hquotient := ih (n / 16) (by omega)
        have hremainder := hdigit (n % 16) (Nat.mod_lt _ (by decide))
        simp [hquotient, hremainder.symm]

/-- A character is shown on one line. -/
theorem Text.break_notMem_showChar (c : Char) : '\n' ∉ Text.showChar c := by
  have hshown : '\n' ∉ Text.showIn '\'' c := by
    unfold Text.showIn
    iterate 4
      split
      · decide
    next hc =>
    have hc : '\n' ≠ c := Ne.symm hc
    split
    · simp [hc]
    · split
      · exact List.not_mem_append
          (List.not_mem_append (by decide) (Text.break_notMem_hex _))
          (by decide)
      · simpa using hc
  simp [Text.showChar, hshown]

theorem Fault.Names.break_notMem_message {fault : Fault} (h : fault.Names) :
    '\n' ∉ fault.message := by
  cases h with
  | mismatched hopened hclosed =>
      have hopened := Text.break_notMem_of_le hopened.le_toNat
      have hclosed := Text.break_notMem_of_le hclosed.le_toNat
      have hstart :=
        List.not_mem_append (s := "expected </".toList) (by decide) hopened
      have hmiddle :=
        List.not_mem_append hstart (t := "> but found </".toList) (by decide)
      exact List.not_mem_append (List.not_mem_append hmiddle hclosed)
        (by decide)
  | @uppercase t hname =>
      have hname : '\n' ∉ t := Text.break_notMem_of_le hname.le_toNat
      have hstart :=
        List.not_mem_append (s := "tag name `".toList) (by decide) hname
      exact List.not_mem_append hstart (by decide)

theorem Fault.break_notMem_message_unexpected (found : Option Char) :
    '\n' ∉ (Fault.unexpected found).message := by
  cases found with
  | none =>
      show '\n' ∉ "unexpected end of template".toList
      decide
  | some c =>
      exact List.not_mem_append (by decide) (Text.break_notMem_showChar c)

-- ============================================================= errors

/-- Every error is at a place of the template, with a message of one line. -/
theorem exists_place_of_parse_error {s : Text} {e : TemplateError}
    (h : parse s = .error e) :
    ∃ rest, CaretPlace s rest ∧ e.position = .ofRest s rest
      ∧ '\n' ∉ e.fault.message := by
  have hculprit : ∀ {fault : Fault} {before after : Text}, fault.Names →
      s = before ++ (fault.culprit ++ after) →
      e = ⟨fault, .ofOffset s before.byteSize⟩ →
      ∃ rest, CaretPlace s rest ∧ e.position = .ofRest s rest
        ∧ '\n' ∉ e.fault.message := by
    rintro fault before after hnames rfl rfl
    exact ⟨_, .of_head (List.suffix_append ..) (hnames.head?_culprit after),
      (Position.ofRest_append ..).symm, hnames.break_notMem_message⟩
  rcases runs_template s with ⟨-, hnone⟩ | ⟨far, hrejected, hstuck⟩
  · obtain ⟨ns, hraw⟩ := (rawDocument_iff s).2 hnone
    cases hvs : RawNode.violationsList 0 ns with
    | nil =>
        obtain ⟨tree, hok⟩ := hraw.parse_eq_ok hvs
        rw [hok] at h
        cases h
    | cons v vs =>
        have hmem : v ∈ RawNode.violationsList 0 ns := by
          rw [hvs]; exact List.mem_cons_self ..
        rw [hraw.parse_eq_error hvs] at h
        obtain ⟨before, after, hs, hoffset⟩ := hraw.standsIn [] [] v hmem
        rw [List.nil_append, List.append_nil] at hs
        rw [hoffset] at h
        exact hculprit (hraw.names 0 v hmem) hs (Except.error.inj h).symm
  · rcases parse_of_rejectedAt hrejected with ⟨x, y, o, hfirst, hparse⟩
      | ⟨-, hparse⟩
    · rw [hparse] at h
      obtain ⟨hnames, before, after, hs, rfl⟩ := hfirst.names
      exact hculprit hnames hs (Except.error.inj h).symm
    · rw [hparse] at h
      cases h
      exact ⟨far, place_of_stuckAt s s 0 far List.suffix_rfl hstuck, rfl,
        Fault.break_notMem_message_unexpected _⟩

-- =========================================================== excerpts

/-- The lines of an excerpt. -/
def Diagnostic.excerptLines (d : Diagnostic) (source : Text) : List Text :=
  ["SyntaxError: ".toList ++ d.message,
    " --> ".toList ++ Text.ofNat d.position.line ++ [':']
      ++ Text.ofNat d.position.column,
    "  |".toList,
    Diagnostic.gutter d.position.line ++ " | ".toList
      ++ source.line d.position.line,
    "    | ".toList ++ Text.spaces (d.position.column - 1) ++ ['^']]

theorem Diagnostic.excerpt_eq (d : Diagnostic) (source : Text) :
    d.excerpt source = ['\n'].intercalate (d.excerptLines source) := by
  have harrow : "\n --> ".toList = '\n' :: " --> ".toList := rfl
  have hbar : "\n  |\n".toList = '\n' :: ("  |".toList ++ ['\n']) := rfl
  have hcaret : "\n    | ".toList = '\n' :: "    | ".toList := rfl
  unfold Diagnostic.excerpt Diagnostic.excerptLines
  simp only [harrow, hbar, hcaret, List.intercalate_cons_cons,
    List.intercalate_singleton, List.append_assoc, List.cons_append,
    List.nil_append]

/-- A diagnostic with a message of one line has an excerpt of five. -/
theorem Diagnostic.splitOn_excerpt {d : Diagnostic} (h : '\n' ∉ d.message)
    (source : Text) :
    (d.excerpt source).splitOn '\n' = d.excerptLines source := by
  have hspaces : ∀ n, '\n' ∉ Text.spaces n := by
    intro n hmem
    cases (List.mem_replicate.1 hmem).2
  have hnumber := Text.break_notMem_ofNat
  have hline := Text.break_notMem_line source d.position.line
  rw [Diagnostic.excerpt_eq]
  refine List.splitOn_intercalate '\n' ?_ (List.cons_ne_nil _ _)
  intro l hl
  simp only [Diagnostic.excerptLines, List.mem_cons, List.not_mem_nil,
    or_false] at hl
  rcases hl with rfl | rfl | rfl | rfl | rfl
  · exact List.not_mem_append (by decide) h
  · exact List.not_mem_append
      (List.not_mem_append (List.not_mem_append (by decide) (hnumber _))
      (by decide)) (hnumber _)
  · decide
  · exact List.not_mem_append (List.not_mem_append
      (List.not_mem_append (hspaces _) (hnumber _)) (by decide)) hline
  · exact List.not_mem_append (List.not_mem_append (by decide) (hspaces _))
      (by decide)

/-- An error has its place at a character of the template or at its end, and
the line and the column of that place. Its excerpt has five lines. The
fourth ends in the line of the template, which up to the column is what
stands before the place behind the last line feed; the fifth ends in a caret
behind as many spaces. -/
theorem parse_error_excerpt {s : Text} {e : TemplateError}
    (h : parse s = .error e) :
    ∃ before rest, s = before ++ rest
      ∧ e.position = .ofOffset s before.byteSize
      ∧ e.position.offset = before.byteSize ∧ before.byteSize ≤ s.byteSize
      ∧ e.position.line = before.count '\n' + 1
      ∧ e.position.column = before.lastLine.length + 1
      ∧ (e.diagnostic.excerpt s).splitOn '\n'
        = ["SyntaxError: ".toList ++ e.fault.message,
          " --> ".toList ++ Text.ofNat e.position.line ++ [':']
            ++ Text.ofNat e.position.column,
          "  |".toList,
          Diagnostic.gutter e.position.line ++ " | ".toList
            ++ s.line e.position.line,
          "    | ".toList ++ Text.spaces (e.position.column - 1) ++ ['^']]
      ∧ (s.line e.position.line).take (e.position.column - 1)
        = before.lastLine := by
  obtain ⟨rest, hplace, hposition, hmessage⟩ := exists_place_of_parse_error h
  obtain ⟨before, rfl, hpair⟩ := hplace.exists_cut
  rw [Position.ofRest_append] at hposition
  obtain ⟨tail, hline⟩ := Text.exists_line_eq hpair
  have hplace := hposition.trans (Position.ofOffset_append before rest)
  refine ⟨before, rest, rfl, hposition, ?_, ?_, ?_, ?_, ?_, ?_⟩
  · rw [hplace]
  · rw [Text.byteSize_append]
    exact Nat.le_add_right ..
  · rw [hplace]
  · rw [hplace]
  · exact Diagnostic.splitOn_excerpt hmessage (before ++ rest)
  · rw [hplace]
    simp only [hline, Nat.add_sub_cancel, List.take_left]

/-- A wrong closing tag on the second line of three that end in a carriage
return and line feed, behind characters of two bytes. -/
theorem parse_error_excerpt_second_line :
    ∃ e, parse "<p>\r\né<b>é</p>\r\n".toList = .error e
      ∧ e.position = ⟨12, 2, 6⟩
      ∧ (e.diagnostic.excerpt "<p>\r\né<b>é</p>\r\n".toList).splitOn '\n'
        = ["SyntaxError: expected </b> but found </p>".toList,
          " --> 2:6".toList, "  |".toList, "  2 | é<b>é</p>".toList,
          "    |      ^".toList] := by
  have hstuck : stuckAt "<p>\r\né<b>é</p>\r\n".toList 0 = some [] := by
    decide +kernel
  have hparse : parse "<p>\r\né<b>é</p>\r\n".toList
      = .error ⟨.mismatched "b".toList "p".toList, ⟨12, 2, 6⟩⟩ := by
    rw [parse_of_stuck hstuck]
    exact congrArg Except.error (by decide +kernel)
  obtain ⟨before, rest, -, -, -, -, -, -, hlines, -⟩ :=
    parse_error_excerpt hparse
  refine ⟨_, hparse, rfl, ?_⟩
  rw [hlines]
  decide +kernel

end Stencil
