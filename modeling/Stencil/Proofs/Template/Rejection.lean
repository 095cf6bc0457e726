/-
The report on a template that the grammar rejects. The search for a wrongly
closed tag walks over the template from token to token, with the names of
the open tags on a stack, and reports the first closing tag that does not
close the innermost one.

What has been read of the template at some point is said without a stack.
`Scan` cuts it into tokens as the search reads them, and `Nested` says how
these are nested: around the point stand the tags that are still open, and
between any two of them only tags that are each closed by their own name
(`Paired`). The stack is the list of open tags in this sense
(`nested_iff`): a token keeps that, and so a walk of any length does.

So the report on a rejected template is a wrong closing tag exactly if one
stands behind tokens that are nested well, and otherwise it is the report
of the grammar (`parse_of_rejected`).
-/
import Stencil.Proofs.Template.Backtracking

namespace Stencil

-- ============================================================ nesting

/-- Tokens among which every tag is closed, by its own name. -/
inductive Paired : List Token → Prop
  | nil : Paired []
  | leaf {t : Token} {ts : List Token} (leaf : t.IsLeaf)
      (rest : Paired ts) : Paired (t :: ts)
  | element {n m : Name} {as : List Attribute} {inner ts : List Token}
      (content : Paired inner) (same : n.raw = m.raw) (rest : Paired ts) :
      Paired (.opening n as :: (inner ++ .closing m :: ts))

/-- Tokens behind which the tags of the names given are open, innermost
first, while every closing tag has closed the innermost open tag before
it. -/
inductive Nested : List Text → List Token → Prop
  | root {ts : List Token} (content : Paired ts) : Nested [] ts
  | inner {n : Name} {as : List Attribute} {outer : List Text}
      {before ts : List Token}
      (around : Nested outer before) (content : Paired ts) :
      Nested (n.raw :: outer) (before ++ .opening n as :: ts)

theorem Paired.append {ts ts' : List Token} (h : Paired ts) (h' : Paired ts') :
    Paired (ts ++ ts') := by
  induction h with
  | nil => exact h'
  | leaf hleaf _ ih => exact .leaf hleaf ih
  | element hcontent hsame _ _ ih =>
      rw [List.cons_append, List.append_assoc, List.cons_append]
      exact .element hcontent hsame ih

theorem Nested.append {opened : List Text} {ts ts' : List Token}
    (h : Nested opened ts) (h' : Paired ts') : Nested opened (ts ++ ts') := by
  cases h with
  | root hcontent => exact .root (hcontent.append h')
  | inner haround hcontent =>
      rw [List.append_assoc, List.cons_append]
      exact .inner haround (hcontent.append h')

/-- A token that may follow keeps the nesting. -/
theorem Nested.step {opened next : List Text} {ts : List Token} {t : Token}
    (h : Nested opened ts) (hstep : t.step opened = some next) :
    Nested next (ts ++ [t]) := by
  cases t with
  | text value =>
      cases hstep
      exact h.append (.leaf trivial .nil)
  | comment body =>
      cases hstep
      exact h.append (.leaf trivial .nil)
  | selfClosing n as =>
      cases hstep
      exact h.append (.leaf trivial .nil)
  | opening n as =>
      cases hstep
      exact .inner h .nil
  | closing m =>
      cases h with
      | root => cases hstep
      | @inner n as outer before ts haround hcontent =>
          rw [Token.step] at hstep
          split at hstep
          · next hsame =>
            cases hstep
            -- the tag is done, so it belongs to what stands around it
            rw [List.append_assoc, List.cons_append]
            exact haround.append (.element hcontent hsame .nil)
          · cases hstep

theorem Token.IsLeaf.step_eq {t : Token} (h : t.IsLeaf) (opened : List Text) :
    t.step opened = some opened := by
  cases t with
  | text value => rfl
  | comment body => rfl
  | selfClosing n as => rfl
  | opening n as => exact h.elim
  | closing n => exact h.elim

/-- Tokens that pair up leave the stack as it was. -/
theorem Paired.foldlM_step {ts : List Token} (h : Paired ts) :
    ∀ opened : List Text, ts.foldlM Token.step opened = some opened := by
  induction h with
  | nil =>
      intro opened
      rfl
  | leaf hleaf _ ih =>
      intro opened
      rw [List.foldlM_cons, hleaf.step_eq]
      exact ih opened
  | @element n m as inner ts _ hsame _ ihcontent ih =>
      intro opened
      have hopening : Token.step opened (.opening n as)
          = some (n.raw :: opened) := rfl
      have hclosing : Token.step (n.raw :: opened) (.closing m)
          = some opened := by
        rw [Token.step, if_pos hsame]
      rw [List.foldlM_cons, hopening]
      show List.foldlM Token.step (n.raw :: opened) (inner ++ .closing m :: ts)
        = some opened
      rw [List.foldlM_append, ihcontent]
      show List.foldlM Token.step (n.raw :: opened) (.closing m :: ts)
        = some opened
      rw [List.foldlM_cons, hclosing]
      exact ih opened

/-- The stack of a walk over tokens holds the tags that are open behind
them. -/
theorem nested_iff {opened : List Text} {ts : List Token} :
    Nested opened ts ↔ ts.foldlM Token.step [] = some opened := by
  constructor
  · intro h
    induction h with
    | root hcontent => exact hcontent.foldlM_step []
    | @inner n as outer before ts _ hcontent ih =>
        rw [List.foldlM_append, ih]
        exact hcontent.foldlM_step (n.raw :: outer)
  · intro h
    induction ts using List.reverseRecOn generalizing opened with
    | nil =>
        cases h
        exact .root .nil
    | append_singleton ts t ih =>
        rw [List.foldlM_append] at h
        obtain ⟨between, hbefore, hstep⟩ := Option.bind_eq_some_iff.1 h
        rw [List.foldlM_cons] at hstep
        obtain ⟨next, hstep, hdone⟩ := Option.bind_eq_some_iff.1 hstep
        cases hdone
        exact (ih hbefore).step hstep

/-- Among tokens, a closing tag that does not close the innermost of the
tags open there, behind tokens that all may stand where they do. -/
inductive ClosesWrong (opened : List Text) : List Located → Fault → Text → Prop
  | intro {before after : List Located} {x rest : Text} {outer : List Text}
      {n : Name}
      (steps : (before.map Located.token).foldlM Token.step opened
        = some (x :: outer))
      (wrong : x ≠ n.raw) :
      ClosesWrong opened (before ++ ⟨.closing n, rest⟩ :: after)
        (.mismatched x n.raw) rest

/-- A token in front of a wrong closing tag. -/
theorem ClosesWrong.cons {opened next : List Text} {t : Token}
    {ts : List Located} {fault : Fault} {rest : Text}
    (h : ClosesWrong next ts fault rest) (hstep : t.step opened = some next)
    (start : Text) :
    ClosesWrong opened (⟨t, start⟩ :: ts) fault rest := by
  obtain @⟨before, after, x, _, outer, n, hsteps, hwrong⟩ := h
  have hall : ((⟨t, start⟩ :: before).map Located.token).foldlM
      Token.step opened
      = some (x :: outer) := by
    rw [List.map_cons, List.foldlM_cons, hstep]
    exact hsteps
  exact .intro hall hwrong

/-- The walk over tokens stops at the first that closes a wrong tag. -/
theorem mismatch?_iff_closesWrong (ts : List Located) :
    ∀ (opened : List Text) (fault : Fault) (rest : Text),
      mismatch? opened ts = some (fault, rest)
        ↔ ClosesWrong opened ts fault rest := by
  intro opened fault rest
  constructor
  · intro h
    induction ts generalizing opened with
    | nil => cases h
    | cons located ts ih =>
        obtain ⟨t, start⟩ := located
        cases hstep : t.step opened with
        | some next =>
            rw [mismatch?_of_step hstep] at h
            exact (ih next h).cons hstep start
        | none =>
            -- only a closing tag is no step
            cases t with
            | text value => cases hstep
            | comment body => cases hstep
            | opening n as => cases hstep
            | selfClosing n as => cases hstep
            | closing n =>
                cases opened with
                | nil => cases h
                | cons x outer =>
                    rw [mismatch?] at h
                    split at h
                    · next hsame => simp [Token.step, hsame] at hstep
                    · next hwrong =>
                      cases h
                      show ClosesWrong (x :: outer)
                        ([] ++ ⟨.closing n, rest⟩ :: ts) _ rest
                      exact .intro rfl hwrong
  · rintro @⟨before, after, x, rest, outer, n, hsteps, hwrong⟩
    induction before generalizing opened with
    | nil =>
        cases hsteps
        rw [List.nil_append, mismatch?, if_neg hwrong]
    | cons located before ih =>
        obtain ⟨t, start⟩ := located
        rw [List.map_cons, List.foldlM_cons] at hsteps
        obtain ⟨next, hstep, hsteps⟩ := Option.bind_eq_some_iff.1 hsteps
        rw [List.cons_append, mismatch?_of_step hstep]
        exact ih next hsteps

-- ============================================================ the scan

/-- From a text, tokens in the spacing given lead on to another text. -/
inductive Scan (sp : Spacing) : Text → List Token → Text → Prop
  | nil {s : Text} : Scan sp s [] s
  | cons {p s rest : Text} {t : Token} {ts : List Token} (token : t.Spells sp p)
      (ends : t.EndsBefore s) (more : Scan sp s ts rest) :
      Scan sp (p ++ s) (t :: ts) rest

theorem Scan.suffix {sp : Spacing} {s rest : Text} {ts : List Token}
    (h : Scan sp s ts rest) :
    rest <:+ s := by
  induction h with
  | nil => exact List.suffix_refl _
  | cons _ _ _ ih => exact ih.trans (List.suffix_append ..)

section Reading

variable {sp : Spacing} (hsp : sp.Lawful) {s rest : Text}

include hsp

/-- What a scan goes past, reading reads. -/
theorem Scan.readAll {ts : List Token} (h : Scan sp s ts rest) :
    ∃ before : List Located, before.map Located.token = ts
      ∧ (Token.readAll sp s).1 = before ++ (Token.readAll sp rest).1 := by
  induction h with
  | nil => exact ⟨[], rfl, rfl⟩
  | @cons p s rest t ts htoken hends _ ih =>
      obtain ⟨before, hts, hread⟩ := ih
      have hfirst := (Token.read?_eq_some_iff hsp).2 ⟨p, rfl, htoken, hends⟩
      refine ⟨⟨t, p ++ s⟩ :: before, by rw [List.map_cons, hts], ?_⟩
      rw [Token.readAll_of_read? hfirst, hread, List.cons_append]

/-- What is read before a token is a scan up to it. -/
theorem scan_of_readAll {t : Token} {before after : List Located}
    (h : (Token.readAll sp s).1 = before ++ ⟨t, rest⟩ :: after) :
    Scan sp s (before.map Located.token) rest ∧ ∃ r,
      Token.read? sp rest = some (t, r) := by
  induction before generalizing s with
  | nil =>
      cases hread : Token.read? sp s with
      | none =>
          rw [Token.readAll_of_none hread] at h
          cases h
      | some x =>
          rw [Token.readAll_of_read? hread] at h
          cases h
          exact ⟨.nil, x.2, hread⟩
  | cons located before ih =>
      cases hread : Token.read? sp s with
      | none =>
          rw [Token.readAll_of_none hread] at h
          cases h
      | some x =>
          rw [Token.readAll_of_read? hread] at h
          obtain ⟨rfl, hmore⟩ := List.cons.inj h
          obtain ⟨hscan, hrest⟩ := ih hmore
          obtain ⟨p, rfl, htoken, hends⟩ :=
            (Token.read?_eq_some_iff hsp).1 hread
          exact ⟨.cons htoken hends hscan, hrest⟩

end Reading

-- ========================================================= the report

/-- The template has at the byte offset given the first closing tag that
does not close the innermost open tag, which is `x`, but is that of `y`. -/
inductive FirstMisclosed : Text → Text → Text → Nat → Prop
  | intro {before after x : Text} {ts : List Token} {outer : List Text}
      {n : Name}
      (scan : Scan .search (before ++ (closingTag n.raw ++ after)) ts
        (closingTag n.raw ++ after))
      (nested : Nested (x :: outer) ts) (name : n.Writable)
      (wrong : x ≠ n.raw) :
      FirstMisclosed (before ++ (closingTag n.raw ++ after))
        x n.raw before.byteSize

theorem Position.ofRest_append (before rest : Text) :
    Position.ofRest (before ++ rest) rest
      = .ofOffset (before ++ rest) before.byteSize := by
  rw [Position.ofRest, Text.byteSize_append, Nat.add_sub_cancel]

/-- The search finds the first wrong closing tag, where it stands. -/
theorem mismatch?_iff_firstMisclosed (s : Text) (e : TemplateError) :
    (∃ fault rest, mismatch? [] (Token.readAll .search s).1 = some (fault, rest)
        ∧ e = .atRest s rest fault)
      ↔ ∃ x y o, FirstMisclosed s x y o
        ∧ e = ⟨.mismatched x y, .ofOffset s o⟩ := by
  have hsp := Spacing.search_within.lawful
  simp only [mismatch?_iff_closesWrong]
  constructor
  · rintro ⟨fault, rest, hfound, rfl⟩
    generalize hread : (Token.readAll .search s).1 = ts at hfound
    obtain @⟨before, after, x, _, outer, n, hsteps, hwrong⟩ := hfound
    obtain ⟨hscan, r, hclosing⟩ := scan_of_readAll hsp hread
    obtain ⟨p, rfl, hspells, -⟩ := (Token.read?_eq_some_iff hsp).1 hclosing
    cases hspells with
    | closing hname =>
        obtain ⟨first, rfl⟩ := hscan.suffix
        refine ⟨x, n.raw, Text.byteSize first,
          ⟨hscan, nested_iff.2 hsteps, hname, hwrong⟩, ?_⟩
        rw [TemplateError.atRest, Position.ofRest_append]
  · rintro ⟨x, y, o, @⟨first, after, _, ts, outer, n, hscan, hnested, hname,
      hwrong⟩, rfl⟩
    obtain ⟨before, rfl, hread⟩ := hscan.readAll hsp
    have hclosing : Token.read? .search (closingTag n.raw ++ after)
        = some (.closing n, after) :=
      (Token.read?_eq_some_iff hsp).2 ⟨_, rfl, .closing hname, trivial⟩
    rw [hread, Token.readAll_of_read? hclosing]
    refine ⟨_, _, ⟨nested_iff.1 hnested, hwrong⟩, ?_⟩
    rw [TemplateError.atRest, Position.ofRest_append]

/-- The report on a rejected template: the first wrong closing tag if there
is one, and otherwise the point of the grammar. -/
theorem parse_of_rejectedAt {s far : Text} (h : RejectedAt s far) :
    (∃ x y o, FirstMisclosed s x y o
      ∧ parse s = .error ⟨.mismatched x y, .ofOffset s o⟩)
      ∨ (∀ x y o, ¬ FirstMisclosed s x y o)
        ∧ parse s = .error (.atRest s far (.unexpected far.head?)) := by
  rw [parse_of_stuck ((rejectedAt_iff s far).1 h), rejection]
  have hiff := mismatch?_iff_firstMisclosed s
  cases hfound : mismatch? [] (Token.readAll .search s).1 with
  | some found =>
      obtain ⟨fault, rest⟩ := found
      obtain ⟨x, y, o, hfirst, herror⟩ := (hiff _).1 ⟨fault, rest, hfound, rfl⟩
      exact Or.inl ⟨x, y, o, hfirst, congrArg Except.error herror⟩
  | none =>
      refine Or.inr ⟨fun x y o hfirst => ?_, rfl⟩
      obtain ⟨fault, rest, hsome, -⟩ := (hiff _).2 ⟨x, y, o, hfirst, rfl⟩
      rw [hfound] at hsome
      cases hsome

/-- There is one first wrong closing tag at most. -/
theorem FirstMisclosed.unique {s x y x' y' : Text} {o o' : Nat}
    (h : FirstMisclosed s x y o) (h' : FirstMisclosed s x' y' o') :
    x = x' ∧ y = y' ∧ o = o' := by
  have hiff := mismatch?_iff_firstMisclosed s
  obtain ⟨fault, rest, hfound, herror⟩ := (hiff _).2 ⟨x, y, o, h, rfl⟩
  obtain ⟨fault', rest', hfound', herror'⟩ := (hiff _).2 ⟨x', y', o', h', rfl⟩
  rw [hfound] at hfound'
  cases hfound'
  have heq := herror.trans herror'.symm
  have hoffset := congrArg (·.position.offset) heq
  cases congrArg TemplateError.fault heq
  exact ⟨rfl, rfl, hoffset⟩

/-- For a template that the grammar rejects, a wrong closing tag is reported
exactly if it is the first one of the template, with its place; the report
says which tag was to be closed and by which name it is closed. If there is
none, the report is the point of the grammar, and a capital in a name is
never reported. -/
theorem parse_eq_mismatched_iff (s : Text) (h : ¬ Accepted s) :
    (∀ x y pos, parse s = .error ⟨.mismatched x y, pos⟩
        ↔ FirstMisclosed s x y pos.offset ∧ pos = .ofOffset s pos.offset)
      ∧ (∀ x y o, FirstMisclosed s x y o → ∃ e, parse s = .error e
        ∧ e.diagnostic.position = .ofOffset s o
        ∧ e.diagnostic.message
          = "expected </".toList ++ x ++ "> but found </".toList ++ y
            ++ ">".toList)
      ∧ ((∀ x y o, ¬ FirstMisclosed s x y o) →
        ∃ far, RejectedAt s far
          ∧ parse s = .error (.atRest s far (.unexpected far.head?)))
      ∧ ∀ name pos, parse s ≠ .error ⟨.uppercase name, pos⟩ := by
  rcases runs_template s with ⟨haccepted, -⟩ | ⟨far, hrejected, -⟩
  · exact absurd haccepted h
  rcases parse_of_rejectedAt hrejected with ⟨x, y, o, hfirst, hparse⟩
    | ⟨hnone, hparse⟩
  · refine ⟨?_, ?_, fun hnone => absurd hfirst (hnone x y o), ?_⟩
    · intro x' y' pos
      rw [hparse]
      constructor
      · intro herror
        cases herror
        exact ⟨hfirst, rfl⟩
      · rintro ⟨hfirst', hpos⟩
        obtain ⟨rfl, rfl, rfl⟩ := hfirst.unique hfirst'
        rw [← hpos]
    · intro x' y' o' hfirst'
      obtain ⟨rfl, rfl, rfl⟩ := hfirst.unique hfirst'
      exact ⟨_, hparse, rfl, rfl⟩
    · intro name pos herror
      rw [hparse] at herror
      cases herror
  · refine ⟨?_, fun x y o hfirst => absurd hfirst (hnone x y o),
      fun _ => ⟨far, hrejected, hparse⟩, ?_⟩
    · intro x y pos
      refine iff_of_false ?_ fun hfirst => hnone x y _ hfirst.1
      rw [hparse]
      intro herror
      cases herror
    · intro name pos herror
      rw [hparse] at herror
      cases herror

/-- In a nested tag with a comment and a quoted `>` before it, the wrong
closing tag is found; at a tag that cannot be read the search gives up. -/
theorem parse_eq_mismatched_nested :
    FirstMisclosed
      "<div>\n  <p><br/><!-- </x> --><span a='>'>x</div></p>".toList
        "span".toList "div".toList 42
      ∧ (∃ e,
        parse "<div>\n  <p><br/><!-- </x> --><span a='>'>x</div></p>".toList
          = .error e
        ∧ e.diagnostic.message = "expected </span> but found </div>".toList)
      ∧ (∀ x y o, ¬ FirstMisclosed "<p><b class=x></b></i>".toList x y o)
      ∧ ∃ far, RejectedAt "<p><b class=x></b></i>".toList far
        ∧ parse "<p><b class=x></b></i>".toList
          = .error (.atRest "<p><b class=x></b></i>".toList far
            (.unexpected far.head?)) := by
  have hnested :
      parse "<div>\n  <p><br/><!-- </x> --><span a='>'>x</div></p>".toList
      = .error ⟨.mismatched "span".toList "div".toList, ⟨42, 2, 37⟩⟩ := by
    have hstuck : stuckAt
        "<div>\n  <p><br/><!-- </x> --><span a='>'>x</div></p>".toList 0
        = some [] := by decide +kernel
    rw [parse_of_stuck hstuck]
    exact congrArg Except.error (by decide +kernel)
  have hunread : parse "<p><b class=x></b></i>".toList
      = .error ⟨.unexpected (some 'x'), ⟨12, 1, 13⟩⟩ := by
    have hstuck : stuckAt "<p><b class=x></b></i>".toList 0
        = some "x></b></i>".toList := by
      decide +kernel
    rw [parse_of_stuck hstuck]
    exact congrArg Except.error (by decide +kernel)
  obtain ⟨hreport, hworded, -, -⟩ := parse_eq_mismatched_iff
    "<div>\n  <p><br/><!-- </x> --><span a='>'>x</div></p>".toList
    ((accepted_iff _).not.2 (by decide +kernel))
  obtain ⟨hreport', -, hotherwise, -⟩ :=
    parse_eq_mismatched_iff "<p><b class=x></b></i>".toList
      ((accepted_iff _).not.2 (by decide +kernel))
  have hnone : ∀ x y o, ¬ FirstMisclosed "<p><b class=x></b></i>".toList
      x y o := by
    intro x y o hfirst
    have hparse := (hreport' x y (.ofOffset _ o)).2 ⟨hfirst, rfl⟩
    rw [hunread] at hparse
    cases hparse
  have hfirst := ((hreport _ _ _).1 hnested).1
  obtain ⟨e, herror, -, hmessage⟩ := hworded _ _ _ hfirst
  exact ⟨hfirst, ⟨e, herror, hmessage⟩, hnone, hotherwise hnone⟩

end Stencil
