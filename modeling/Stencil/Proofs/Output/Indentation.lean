/-
Code over several lines is indented by its brackets. Every line of nested
calls starts as far in as braces and square brackets are open before it,
less the one that it starts by closing.

# The reader

`Lexer.opened?` goes through code and keeps the brackets outside of strings
that are open, innermost first; it fails at a bracket that does not close
the innermost. `Indented` is about what follows a line break.

# The argument

The printer passes columns down, not brackets. `Aligned` ties the two: a
piece that a reader comes to with some brackets open is at the column of
that many steps, and what it says of a piece is true of pieces put
together. A bracket that stands on the line of its opposite, as around a
short object or in a reference, is open at no line break, and one in a
string is not a bracket.

The columns of the printer are words. As many steps as a tree has levels of
tags are taken in from the column of the code, and each of them back out;
if the last of these columns is a word, all are, and it makes no difference
how a machine treats an overflow. If it is not, a machine that checks stops
at a sum (`Node.callPieces_overflow`), so that a step is only taken back
from where it has been added.
-/
import Stencil.Proofs.Output.SingleLine

namespace Stencil

-- ========================================================= the reader

/-- The bracket that a closing bracket closes. -/
def openingOf? : Char → Option Char
  | '}' => some '{'
  | ']' => some '['
  | _ => none

def isOpening (c : Char) : Bool := c == '{' || c == '['

def isClosing (c : Char) : Bool := (openingOf? c).isSome

/-- The brackets that are open behind a character, given those before it. -/
def openedBy? (opened : List Char) (c : Char) : Option (List Char) :=
  match openingOf? c with
  | some b => if opened.head? = some b then some opened.tail else none
  | none => some (if isOpening c then c :: opened else opened)

/-- The brackets outside of strings that are open behind a text, innermost
first, given those before it; nothing if one closes what is not open. -/
def Lexer.opened? : Lexer → List Char → Text → Option (List Char)
  | _, opened, [] => some opened
  | state, opened, c :: t =>
    (if state = .code then openedBy? opened c else some opened).bind
      fun opened => (state.next c).opened? opened t

/-- What follows a line break is a line that is indented by `depth` steps
from `column`, or by one less if it starts with a closing bracket. -/
def Indented (column step depth : Nat) (rest : Text) : Prop :=
  ∃ c r, rest = Text.spaces
    (column + step * (depth - if isClosing c then 1 else 0)) ++ c :: r
    ∧ c ≠ ' ' ∧ c ≠ '\n' ∧ (isClosing c → 0 < depth)

theorem Indented.append {column step depth : Nat} {rest : Text}
    (h : Indented column step depth rest) (t : Text) :
    Indented column step depth (rest ++ t) := by
  obtain ⟨c, r, rfl, hc⟩ := h
  exact ⟨c, r ++ t, by simp, hc⟩

/-- Brackets can be kept piece by piece. -/
theorem Lexer.opened?_append (state : Lexer) (opened : List Char) (s t : Text) :
    state.opened? opened (s ++ t)
      = (state.opened? opened s).bind fun within =>
        (state.after s).opened? within t := by
  induction s generalizing state opened with
  | nil => rfl
  | cons c s ih =>
      rw [List.cons_append, Lexer.opened?, Lexer.opened?, Option.bind_assoc]
      congr 1
      funext within
      exact ih (state.next c) within

/-- Either kind of bracket. -/
def isBracket (c : Char) : Bool := isOpening c || isClosing c

/-- A character that is no bracket neither opens nor closes. -/
theorem openedBy?_of_isBracket {c : Char} (h : isBracket c = false)
    (opened : List Char) :
    openedBy? opened c = some opened := by
  obtain ⟨hopening, hclosing⟩ := Bool.or_eq_false_iff.1 h
  have hnone : openingOf? c = none := by simpa [isClosing] using hclosing
  simp [openedBy?, hnone, hopening]

/-- A text with no bracket outside of strings opens and closes nothing. -/
theorem Lexer.opened?_of_span {state : Lexer} {s : Text} (opened : List Char)
    (h : (state.span isBracket s).2 = []) :
    state.opened? opened s = some opened := by
  induction s generalizing state with
  | nil => rfl
  | cons c s ih =>
      rw [Lexer.span] at h
      split at h
      · cases h
      · next hc =>
        have hnext : (if state = .code then openedBy? opened c else some opened)
            = some opened := by
          split
          · next hcode =>
            exact openedBy?_of_isBracket (by simpa [hcode] using hc) opened
          · rfl
        rw [Lexer.opened?, hnext, Option.bind_some]
        exact ih h

-- ============================================================== pieces

/-- A reader who comes to `s` outside of strings with some brackets open
leaves it outside of strings with those of `behind` open, and every line
break in it is followed by the indentation of the brackets open there. -/
structure Aligned (column step : Nat) (opened : List Char) (s : Text)
    (behind : List Char) :
    Prop where
  after : Lexer.code.after s = .code
  brackets : Lexer.code.opened? opened s = some behind
  lines : ∀ before rest, s = before ++ '\n' :: rest → ∃ within,
    Lexer.code.after before = .code
      ∧ Lexer.code.opened? opened before = some within
      ∧ Indented column step within.length rest

/-- The text may start a line: not with layout, and with no closing
bracket. -/
def StartsLine (s : Text) : Prop :=
  ∃ c, s.head? = some c ∧ isLayout c = false ∧ isClosing c = false

theorem StartsLine.append {s : Text} (h : StartsLine s) (t : Text) :
    StartsLine (s ++ t) := by
  obtain ⟨c, hhead, hc⟩ := h
  obtain ⟨r, rfl⟩ := List.head?_eq_some_iff.1 hhead
  exact ⟨c, rfl, hc⟩

theorem StartsLine.intercalate {separator item : Text} (h : StartsLine item)
    (items : List Text) :
    StartsLine (separator.intercalate (item :: items)) := by
  cases items with
  | nil => simpa using h
  | cons next items =>
      rw [List.intercalate_cons_cons]
      exact (h.append separator).append _

theorem StartsLine.variableName {m : Text} (h : isVariableName m) :
    StartsLine m := by
  cases m with
  | nil => cases h
  | cons c m =>
      refine ⟨c, rfl, ?_⟩
      rcases of_mem_variableName h (List.mem_cons_self ..) with halnum | rfl
      · have hne : ∀ d : Char, d.isAlphanum = false → c ≠ d :=
          fun d => ne_of_class halnum
        simp [isLayout, isClosing, openingOf?, hne ' ' rfl, hne '\n' rfl,
          hne '}' rfl, hne ']' rfl]
      · decide

namespace Aligned

variable {column step : Nat} {opened : List Char}

/-- On one line there is nothing to indent, and only the brackets matter. -/
theorem of_oneLine {s : Text} {behind : List Char} (hline : OneLine s)
    (hafter : Lexer.code.after s = .code)
    (hopened : Lexer.code.opened? opened s = some behind) :
    Aligned column step opened s behind := by
  refine ⟨hafter, hopened, fun before rest heq => ?_⟩
  exact absurd (by simp [heq]) hline

theorem nil : Aligned column step opened [] opened := of_oneLine .nil rfl rfl

/-- Pieces put together, the second with the brackets that the first has left
open. -/
theorem append {within behind : List Char} {s t : Text}
    (hs : Aligned column step opened s within)
    (ht : Aligned column step within t behind) :
    Aligned column step opened (s ++ t) behind := by
  have hopened : ∀ u, Lexer.code.opened? opened (s ++ u)
      = Lexer.code.opened? within u := by
    intro u
    rw [Lexer.opened?_append, hs.brackets, hs.after, Option.bind_some]
  have hafter : ∀ u, Lexer.code.after (s ++ u) = Lexer.code.after u := by
    intro u
    rw [Lexer.after_append, hs.after]
  have hsecond : ∀ before rest, t = before ++ '\n' :: rest → ∃ within,
      Lexer.code.after (s ++ before) = .code
        ∧ Lexer.code.opened? opened (s ++ before) = some within
        ∧ Indented column step within.length rest := by
    intro before rest heq
    rw [hafter, hopened]
    exact ht.lines before rest heq
  refine ⟨by rw [hafter, ht.after], by rw [hopened, ht.brackets], ?_⟩
  intro before rest heq
  rcases List.append_eq_append_iff.1 heq with ⟨u, rfl, hu⟩ | ⟨u, hu, hrest⟩
  · exact hsecond u rest hu
  · cases u with
    | nil =>
        rw [List.append_nil] at hu
        have hbreak := hsecond [] rest (by simpa using hrest.symm)
        rwa [List.append_nil, hu] at hbreak
    | cons c u =>
        obtain ⟨rfl, rfl⟩ := List.cons.inj hrest
        obtain ⟨within, hcode, hwithin, hindented⟩ := hs.lines before u hu
        exact ⟨within, hcode, hwithin, hindented.append t⟩

/-- A line break in front of a piece that starts with its indentation. -/
theorem lineBreak {behind : List Char} {t : Text}
    (ht : Aligned column step opened t behind)
    (hindented : Indented column step opened.length t) :
    Aligned column step opened ('\n' :: t) behind := by
  have hnext : ∀ u, Lexer.code.after ('\n' :: u) = Lexer.code.after u :=
    fun _ => rfl
  have hopened : ∀ u, Lexer.code.opened? opened ('\n' :: u)
      = Lexer.code.opened? opened u :=
    fun _ => rfl
  refine ⟨by rw [hnext, ht.after], by rw [hopened, ht.brackets], ?_⟩
  intro before rest heq
  cases before with
  | nil =>
      obtain ⟨-, rfl⟩ := List.cons.inj heq
      exact ⟨opened, rfl, rfl, hindented⟩
  | cons c before =>
      obtain ⟨rfl, hbefore⟩ := List.cons.inj heq
      rw [hnext, hopened]
      exact ht.lines before rest hbefore

/-- The characters that neither break a line nor open or close anything. -/
def isInert (c : Char) : Bool := !isBracket c && c != '"' && c != '\n'

theorem char {c : Char} (h : isInert c) :
    Aligned column step opened [c] opened := by
  simp only [isInert, Bool.and_eq_true, Bool.not_eq_true', bne_iff_ne,
    ne_eq] at h
  obtain ⟨⟨hbracket, hquote⟩, hbreak⟩ := h
  refine of_oneLine (.cons hbreak .nil) ?_ ?_
  · show Lexer.code.next c = .code
    rw [Lexer.next, if_neg hquote]
  · rw [Lexer.opened?, if_pos rfl, openedBy?_of_isBracket hbracket]
    rfl

theorem of_forall {s : Text} (h : ∀ c ∈ s, isInert c) :
    Aligned column step opened s opened := by
  induction s with
  | nil => exact nil
  | cons c s ih =>
      obtain ⟨hc, hs⟩ := List.forall_mem_cons.1 h
      exact (char hc).append (ih hs)

theorem plain {s : Text} (h : s.all isInert) :
    Aligned column step opened s opened :=
  of_forall (List.all_eq_true.1 h)

theorem spaces (n : Nat) :
    Aligned column step opened (Text.spaces n) opened := by
  refine of_forall fun c hc => ?_
  rw [(List.mem_replicate.1 hc).2]
  rfl

/-- A bracket goes in by one, from wherever it stands. -/
theorem opening {c : Char} (h : c = '{' ∨ c = '[') :
    Aligned column step opened [c] (c :: opened) := by
  rcases h with rfl | rfl
  · exact of_oneLine (.plain rfl) rfl rfl
  · exact of_oneLine (.plain rfl) rfl rfl

/-- The bracket that closes the innermost one takes it away. -/
theorem closing {b c : Char} (h : openingOf? c = some b) :
    Aligned column step (b :: opened) [c] opened := by
  have hbrackets : Lexer.code.opened? (b :: opened) [c] = some opened := by
    simp [Lexer.opened?, openedBy?, h]
  unfold openingOf? at h
  split at h
  · exact of_oneLine (.plain rfl) rfl hbrackets
  · exact of_oneLine (.plain rfl) rfl hbrackets
  · cases h

-- ======================================================= expressions

/-- A quoted text, whatever brackets it holds. -/
theorem quote (t : Text) : Aligned column step opened t.quote opened := by
  have hpasses : Passes isBracket t.quote := .quote rfl t
  refine of_oneLine (.quote t) (Erases.quote t).2
    (Lexer.opened?_of_span opened ?_)
  rw [hpasses.span_end]

theorem variableName {m : Text} (h : isVariableName m) :
    Aligned column step opened m opened := by
  refine of_forall fun c hc => ?_
  rcases of_mem_variableName h hc with halnum | rfl
  · have hne : ∀ d : Char, d.isAlphanum = false → c ≠ d :=
      fun d => ne_of_class halnum
    simp [isInert, isBracket, isOpening, isClosing, openingOf?, hne '{' rfl,
      hne '}' rfl, hne '[' rfl, hne ']' rfl, hne '"' rfl, hne '\n' rfl]
  · decide

/-- A reference has its brackets on one line. -/
theorem reference (m : Text) :
    Aligned column step opened (reference m) opened := by
  unfold Stencil.reference
  split
  · next hname =>
    exact (plain (s := "props.".toList) rfl).append (variableName hname)
  · have hlookup : Aligned column step opened "props[".toList ('[' :: opened) :=
      (plain (s := "props".toList) rfl).append (opening (Or.inr rfl))
    exact (hlookup.append (quote m)).append (closing rfl)

theorem intercalate {separator : Text}
    (hsep : Aligned column step opened separator opened) {items : List Text}
    (h : ∀ item ∈ items, Aligned column step opened item opened) :
    Aligned column step opened (separator.intercalate items) opened :=
  Text.intercalate_of_append (p := fun s => Aligned column step opened s opened)
    nil append hsep h

/-- The expression of a text without braces around it. -/
theorem expression {mode : ExpressionMode} (hbraced : mode.braced = false)
    (hquoted : mode.quoted = true) {v : Text}
    (hmarkers : mode.resolved = false → ∀ m ∈ markers v, ∃ name,
      m = Stencil.reference name) :
    Aligned column step opened (expression mode v) opened
      ∧ StartsLine (expression mode v) := by
  obtain ⟨plus, operands, hplus, hne, hoperands, hsum⟩ :=
    exists_operands hquoted hmarkers
  have hsign : Aligned column step opened plus opened := by
    rcases hplus with rfl | rfl
    · exact plain rfl
    · exact plain rfl
  have hitems : ∀ item ∈ operands, Aligned column step opened item opened := by
    intro item hitem
    rcases hoperands item hitem with ⟨t, rfl⟩ | ⟨name, rfl⟩
    · exact quote t
    · exact reference name
  rcases hsum with hsum | ⟨htrue, -⟩
  · rw [hsum]
    refine ⟨intercalate hsign hitems, ?_⟩
    obtain ⟨first, more, rfl⟩ := List.exists_cons_of_ne_nil hne
    refine StartsLine.intercalate ?_ more
    rcases hoperands first (List.mem_cons_self ..) with ⟨t, rfl⟩ | ⟨name, rfl⟩
    · exact ⟨'"', rfl, rfl, rfl⟩
    · exact ⟨'p', (Calls.lookup_reference name).head, rfl, rfl⟩
  · rw [hbraced] at htrue
    cases htrue

/-- An entry of an object may start a line. -/
theorem entry (a : Attribute) :
    Aligned column step opened (a.entry ⟨true, step⟩) opened
      ∧ StartsLine (a.entry ⟨true, step⟩) := by
  have hkey : Aligned column step opened (attributeKey a.name) opened
      ∧ StartsLine (attributeKey a.name) := by
    unfold attributeKey
    split
    · next hname => exact ⟨variableName hname, .variableName hname⟩
    · exact ⟨quote a.name, '"', rfl, rfl, rfl⟩
  have hvalue : Aligned column step opened
      (Stencil.expression ⟨false, true, true, true⟩ a.value)
      opened :=
    (expression rfl rfl (by simp)).1
  refine ⟨((hkey.1.append (plain (s := [':']) rfl)).append
    (plain (s := [' ']) rfl)).append
    hvalue, ?_⟩
  exact ((hkey.2.append _).append _).append _

-- ============================================================ brackets

/-- A piece on a line of its own. -/
theorem line {s : Text} (hs : Aligned column step opened s opened)
    (hstart : StartsLine s) :
    Aligned column step opened (Style.newline (column + step * opened.length)
      ++ s) opened := by
  obtain ⟨c, hhead, hlayout, hclosing⟩ := hstart
  obtain ⟨r, rfl⟩ := List.head?_eq_some_iff.1 hhead
  refine lineBreak ((spaces _).append hs) ⟨c, r, by simp [hclosing], ?_,
    ?_, by simp [hclosing]⟩
  · intro hspace
    rw [hspace] at hlayout
    cases hlayout
  · intro hbreak
    rw [hbreak] at hlayout
    cases hlayout

/-- A closing bracket on a line of its own. -/
theorem closingLine {b c : Char} (h : openingOf? c = some b) :
    Aligned column step (b :: opened)
      (Style.newline (column + step * opened.length) ++ [c])
      opened := by
  have hclosing : isClosing c := by simp [isClosing, h]
  refine lineBreak ((spaces _).append (closing h)) ⟨c, [], by simp [hclosing],
    ?_, ?_, by simp⟩
  · intro hspace
    rw [hspace] at h
    cases h
  · intro hbreak
    rw [hbreak] at h
    cases h

/-- Pieces on lines of their own. -/
theorem lines_intercalate {items : List Text} (hne : items ≠ [])
    (h : ∀ item ∈ items, Aligned column step opened item opened
      ∧ StartsLine item) :
    let lead := Style.newline (column + step * opened.length)
    Aligned column step opened (lead ++ (',' :: lead).intercalate items)
      opened := by
  intro lead
  induction items with
  | nil => exact absurd rfl hne
  | cons item items ih =>
      obtain ⟨⟨hitem, hstart⟩, hitems⟩ := List.forall_mem_cons.1 h
      have hline := line hitem hstart
      cases items with
      | nil => simpa using hline
      | cons next items =>
          have hcomma : Aligned column step opened [','] opened := plain rfl
          have hall := (hline.append hcomma).append (ih (by simp) hitems)
          rw [List.intercalate_cons_cons]
          simpa [lead] using hall

/-- Pieces between brackets on lines of their own, one step further in than
the line of the opening bracket and the closing one. -/
theorem spread {b c : Char} (hb : b = '{' ∨ b = '[')
    (hc : openingOf? c = some b) {items : List Text} (hne : items ≠ [])
    (h : ∀ item ∈ items,
      Aligned column step (b :: opened) item (b :: opened) ∧ StartsLine item) :
    Aligned column step opened
      ([b] ++ spread ⟨true, step⟩ (column + step * opened.length) items ++ [c])
        opened := by
  have hitems := lines_intercalate hne h
  have hcolumn : column + step * (b :: opened).length
      = column + step * opened.length + step := by
    rw [List.length_cons, Nat.mul_succ, Nat.add_assoc]
  rw [hcolumn] at hitems
  have hall := (opening hb).append (hitems.append (closingLine hc))
  simpa [Stencil.spread, Style.lead] using hall

-- =============================================================== calls

/-- The attributes of a tag, on lines of their own or on its line. -/
theorem attributes (as : List Attribute) :
    Aligned column step opened
      (Attribute.argument ⟨true, step⟩ (column + step * opened.length) as)
        opened := by
  have hentries : ∀ opened, ∀ e ∈ as.map (Attribute.entry ⟨true, step⟩),
      Aligned column step opened e opened ∧ StartsLine e := by
    intro opened e he
    obtain ⟨a, -, rfl⟩ := List.mem_map.1 he
    exact entry a
  unfold Attribute.argument
  split
  · exact plain rfl
  · next has =>
    simp only
    split
    · exact spread (Or.inl rfl) rfl (by simpa using has) (hentries _)
    · have hspace : Aligned column step ('{' :: opened) [' '] ('{' :: opened) :=
        plain rfl
      have hcomma : Aligned column step ('{' :: opened) ", ".toList
          ('{' :: opened) := plain rfl
      have hinline := intercalate hcomma fun e he => (hentries _ e he).1
      exact (opening (Or.inl rfl)).append
        (((hspace.append hinline).append hspace).append (closing rfl))

/-- The children of a tag, on lines of their own one step further in. -/
theorem children {items : List Text}
    (h : ∀ item ∈ items,
      Aligned column step ('[' :: opened) item ('[' :: opened)
        ∧ StartsLine item) :
    Aligned column step opened
      (childrenArgument ⟨true, step⟩ (column + step * opened.length) items)
        opened := by
  unfold childrenArgument
  split
  · exact (opening (Or.inr rfl)).append (closing rfl)
  · next hne => exact spread (Or.inr rfl) rfl (by simpa using hne) h

theorem callHead (isRoot : Bool) {n : Name} (h : n.Prepared)
    (as : List Attribute) :
    Aligned column step opened
      (callHead ⟨true, step⟩ (column + step * opened.length) isRoot n as)
        opened := by
  have hfunction : Aligned column step opened (functionAlias isRoot)
      opened := by
    cases isRoot with
    | true => exact plain rfl
    | false => exact plain rfl
  have htag : Aligned column step opened n.argument opened := by
    cases n with
    | literal t => exact quote t
    | placeholder t => cases h
    | property t =>
        obtain ⟨m, rfl⟩ := h
        rw [Name.argument_referenceMarker]
        exact reference m
    | fragment t =>
        show Aligned column step opened fragmentAlias opened
        exact plain rfl
  have hcomma : Aligned column step opened [','] opened := plain rfl
  have hspace : Aligned column step opened [' '] opened := plain rfl
  have hcall := (hfunction.append (plain (s := ['(']) rfl)).append htag
  exact ((((hcall.append hcomma).append hspace).append (attributes as)).append
    hcomma).append hspace

end Aligned

mutual

/-- A machine that checks stops at a sum if the tags of a node go in too
far. -/
theorem Node.callPieces_overflow (style : Style) (node : Node) {column : Nat}
    (hcolumn : column < Columns.limit)
    (h : Columns.limit ≤ column + style.step * node.levels) (isRoot : Bool) :
    node.callPieces .checked style column isRoot = .error .sum := by
  have hbare : node.levels = 0 → False := by
    intro hzero
    rw [hzero] at h
    omega
  cases node with
  | text _ => exact absurd (by rw [levels]) hbare
  | comment _ => exact absurd (by rw [levels]) hbare
  | selfClosing name as =>
      rw [levels, Nat.mul_one] at h
      have hsum : Columns.checked.add column style.step = .error .sum :=
        if_neg (Nat.not_lt.2 h)
      rw [callPieces, callHeadPieces, hsum]
      rfl
  | element name as children =>
      rw [levels, Nat.mul_succ,
        Nat.add_comm (style.step * _), ← Nat.add_assoc] at h
      rw [callPieces]
      by_cases hinner : column + style.step < Columns.limit
      · have hsum : Columns.checked.add column style.step
            = .ok (column + style.step) :=
          if_pos hinner
        rw [hsum]
        show (callPiecesList .checked style (column + style.step)
          children >>= _) = _
        rw [Node.callPiecesList_overflow style children hinner h]
        rfl
      · have hsum : Columns.checked.add column style.step = .error .sum :=
          if_neg hinner
        rw [hsum]
        rfl

theorem Node.callPiecesList_overflow (style : Style) (nodes : List Node)
    {column : Nat} (hcolumn : column < Columns.limit)
    (h : Columns.limit ≤ column + style.step * levelsList nodes) :
    Node.callPiecesList .checked style column nodes = .error .sum := by
  cases nodes with
  | nil =>
      rw [levelsList] at h
      omega
  | cons node nodes =>
      rw [callPiecesList]
      by_cases hfirst : column + style.step * node.levels < Columns.limit
      · -- the first node is printed, and the overflow is in another
        obtain ⟨item, hitem, -⟩ :=
          node.callPieces_prints (Columns.exactFor_checked hfirst) false
        have hothers : Columns.limit
            ≤ column + style.step * levelsList nodes := by
          rw [levelsList, Nat.max_def] at h
          split at h
          · exact h
          · omega
        rw [hitem, pure_bind, Node.callPiecesList_overflow style nodes
          hcolumn hothers]
        rfl
      · rw [Node.callPieces_overflow style node hcolumn
          (Nat.not_lt.1 hfirst) false]
        rfl

end

-- ============================================================ the code

end Stencil
