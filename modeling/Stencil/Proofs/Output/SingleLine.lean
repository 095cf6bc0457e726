/-
Code on one line is one line. A template may hold line breaks in texts, in
the values of attributes, in markers and between attributes, and none of
them reaches the code of a component that is not laid out.

Each is kept out by another part of the code. What is quoted has its line
breaks escaped, and a marker that is not a variable name is quoted in its
reference. A text between tags is not quoted, and has its line breaks
written as two characters. What stands between attributes is not part of
the tree, and the grammar gives tags and attributes no names with line
breaks to begin with (`Node.Printable`).

`OneLine` is about the pieces of which code is put together, and the two
kinds of output are one induction each over the tree.
-/
import Stencil.Component
import Stencil.Proofs.Output.Hoisting
import Stencil.Proofs.Text.Position

namespace Stencil

-- ========================================================= expressions

/-- A text is quoted, or a sum of quoted texts and references, with or
without braces around it. -/
theorem exists_operands {mode : ExpressionMode} (hquoted : mode.quoted = true)
    {v : Text}
    (hmarkers : mode.resolved = false → ∀ m ∈ markers v, ∃ name,
      m = reference name) :
    ∃ plus operands, (plus = " + ".toList ∨ plus = "+".toList) ∧ operands ≠ []
      ∧ (∀ o ∈ operands, (∃ t : Text, o = t.quote) ∨ ∃ name, o = reference name)
      ∧ (expression mode v = plus.intercalate operands
        ∨ mode.braced = true
          ∧ expression mode v
            = '{' :: (plus.intercalate operands ++ ['}'])) := by
  have hoperand : ∀ o ∈ (Segment.split v).map (Segment.operand mode),
      (∃ t : Text, o = t.quote) ∨ ∃ name, o = reference name := by
    intro o ho
    obtain ⟨g, hg, rfl⟩ := List.mem_map.1 ho
    cases g with
    | literal t => exact Or.inl ⟨t, rfl⟩
    | marker m =>
        rw [Segment.operand]
        by_cases hresolved : mode.resolved
        · rw [if_pos hresolved]
          exact Or.inr ⟨m, rfl⟩
        · rw [if_neg hresolved]
          exact Or.inr (hmarkers (by simpa using hresolved) m
            (List.mem_filterMap.2 ⟨_, hg, rfl⟩))
  by_cases hany : (Segment.split v).any Segment.isMarker
  · have hne : (Segment.split v).map (Segment.operand mode) ≠ [] := by
      intro hnil
      simp [List.map_eq_nil_iff.1 hnil] at hany
    refine ⟨if mode.spaced then " + ".toList else "+".toList, _, ?_, hne,
      hoperand, ?_⟩
    · exact ite_eq_or_eq ..
    · simp only [expression, if_pos hany]
      by_cases hbraced : mode.braced
      · exact Or.inr ⟨hbraced, by rw [if_pos hbraced]⟩
      · exact Or.inl (by rw [if_neg hbraced])
  · refine ⟨_, [v.quote], Or.inl rfl, by simp, by simp, Or.inl ?_⟩
    simp only [expression, if_neg hany, if_pos hquoted,
      List.intercalate_singleton]

-- ============================================================== pieces

/-- The text has no line break. -/
def OneLine (s : Text) : Prop := '\n' ∉ s

namespace OneLine

theorem nil : OneLine [] := List.not_mem_nil

theorem append {s t : Text} (hs : OneLine s) (ht : OneLine t) :
    OneLine (s ++ t) :=
  List.not_mem_append hs ht

theorem cons {c : Char} {t : Text} (hc : c ≠ '\n') (ht : OneLine t) :
    OneLine (c :: t) :=
  List.not_mem_cons_of_ne_of_not_mem hc.symm ht

theorem plain {s : Text} (h : s.all (· != '\n')) : OneLine s := by
  intro hmem
  have hne := List.all_eq_true.1 h _ hmem
  cases hne

/-- A class of characters without the line break makes up one line. -/
theorem of_class {p : Char → Bool} (hp : p '\n' = false) {s : Text}
    (hs : ∀ c ∈ s, p c) :
    OneLine s :=
  fun hmem => ne_of_class (hs _ hmem) hp rfl

/-- A quoted text, whatever it holds. -/
theorem quote (t : Text) : OneLine t.quote :=
  Text.break_notMem_of_le fun _ hc => (Text.of_mem_quote hc).1

theorem reference (m : Text) : OneLine (reference m) :=
  Text.break_notMem_of_le fun _ hc => (of_mem_reference hc).1

theorem attributeKey (name : Text) : OneLine (attributeKey name) := by
  unfold Stencil.attributeKey
  split
  · next hname =>
    intro hmem
    rcases of_mem_variableName hname hmem with halnum | hdollar
    · cases halnum
    · cases hdollar
  · exact .quote name

theorem flatMap {α : Type} {f : α → Text} {xs : List α}
    (h : ∀ x ∈ xs, OneLine (f x)) :
    OneLine (xs.flatMap f) := by
  intro hmem
  obtain ⟨x, hx, hbreak⟩ := List.mem_flatMap.1 hmem
  exact h x hx hbreak

theorem intercalate {separator : Text} (hsep : OneLine separator)
    {items : List Text} (h : ∀ item ∈ items, OneLine item) :
    OneLine (separator.intercalate items) :=
  Text.intercalate_of_append .nil .append hsep h

/-- The expression of a text. -/
theorem expression {mode : ExpressionMode} (hquoted : mode.quoted = true)
    {v : Text}
    (hmarkers : mode.resolved = false → ∀ m ∈ markers v, ∃ name,
      m = Stencil.reference name) :
    OneLine (expression mode v) := by
  obtain ⟨plus, operands, hplus, -, hoperands, hsum⟩ :=
    exists_operands hquoted hmarkers
  have hsign : OneLine plus := by
    rcases hplus with rfl | rfl
    · exact .plain rfl
    · exact .plain rfl
  have hitems : ∀ item ∈ operands, OneLine item := by
    intro item hitem
    rcases hoperands item hitem with ⟨t, rfl⟩ | ⟨name, rfl⟩
    · exact .quote t
    · exact .reference name
  rcases hsum with hsum | ⟨-, hsum⟩
  · rw [hsum]
    exact .intercalate hsign hitems
  · rw [hsum]
    exact .cons (by decide)
      ((OneLine.intercalate hsign hitems).append (.plain rfl))

end OneLine

-- =============================================================== calls

section

variable (step : Nat)

/-- Keys and values quote what would break the line. -/
theorem OneLine.entry (a : Attribute) : OneLine (a.entry ⟨false, step⟩) :=
  (((OneLine.attributeKey a.name).append (.plain rfl)).append .nil).append
    (.expression rfl (by simp))

/-- Items between brackets are on the line of the brackets if nothing is
spread out. -/
theorem OneLine.spread (column : Nat) {items : List Text}
    (h : ∀ item ∈ items, OneLine item) :
    OneLine (spread ⟨false, step⟩ column items) :=
  (OneLine.nil.append (.intercalate (.plain rfl) h)).append .nil

theorem OneLine.attributes (column : Nat) (as : List Attribute) :
    OneLine (Attribute.argument ⟨false, step⟩ column as) := by
  have hentries : ∀ entry ∈ as.map (Attribute.entry ⟨false, step⟩),
      OneLine entry := by
    intro entry hentry
    obtain ⟨a, -, rfl⟩ := List.mem_map.1 hentry
    exact .entry step a
  have hcomma : OneLine [','] := .plain rfl
  have hinline := hcomma.intercalate hentries
  unfold Attribute.argument
  split
  · exact .plain rfl
  · simp only [Bool.false_and, Bool.false_eq_true, if_false]
    exact .cons (by decide)
      (((OneLine.nil.append hinline).append .nil).append (.plain rfl))

theorem OneLine.children (column : Nat) {items : List Text}
    (h : ∀ item ∈ items, OneLine item) :
    OneLine (childrenArgument ⟨false, step⟩ column items) := by
  have hopen : OneLine ['['] := .plain rfl
  unfold childrenArgument
  split
  · exact .plain rfl
  · exact (hopen.append (.spread step column h)).append (.plain rfl)

/-- The call for a tag, whatever its attributes hold. -/
theorem OneLine.callHead (column : Nat) (isRoot : Bool) {n : Name}
    (h : n.Prepared) (as : List Attribute) :
    OneLine (callHead ⟨false, step⟩ column isRoot n as) := by
  have hfunction : OneLine (functionAlias isRoot) := by
    cases isRoot with
    | true => exact .plain rfl
    | false => exact .plain rfl
  have htag : OneLine n.argument := by
    cases n with
    | literal t => exact .quote t
    | placeholder t => cases h
    | property t =>
        obtain ⟨m, rfl⟩ := h
        rw [Name.argument_referenceMarker]
        exact .reference m
    | fragment t =>
        show OneLine fragmentAlias
        exact .plain rfl
  have hcomma : OneLine [','] := .plain rfl
  have hcall := (hfunction.append (.plain (s := ['(']) rfl)).append htag
  exact ((((hcall.append hcomma).append .nil).append
    (.attributes step column as)).append
    hcomma).append .nil

/-- The calls of a prepared node. -/
theorem Node.Prepared.oneLine_calls {n : Node} (h : n.Prepared) :
    ∀ (column : Nat) (isRoot : Bool),
      OneLine (n.calls ⟨false, step⟩ column isRoot) := by
  induction h with
  | text hresolved =>
      intro column isRoot
      rw [Node.calls]
      exact .expression rfl fun _ => hresolved
  | @element n as children hname hcontent ih =>
      intro column isRoot
      have hitems : ∀ item
          ∈ children.map (Node.calls ⟨false, step⟩ (column + step) false),
          OneLine item := by
        intro item hitem
        obtain ⟨c, hc, rfl⟩ := List.mem_map.1 hitem
        exact ih c hc (column + step) false
      rw [Node.calls, Calls.callsList_eq_map fun c hc =>
        (hcontent c hc).calls_ne_nil ⟨false, step⟩ (column + step)]
      exact ((OneLine.callHead step column isRoot hname as).append
        (.children step column hitems)).append (.plain rfl)
  | @selfClosing n as hname =>
      intro column isRoot
      rw [Node.calls]
      exact ((OneLine.callHead step column isRoot hname as).append
        (.children step column (by simp))).append (.plain rfl)

-- ============================================================== markup

/-- A text between tags has its line breaks escaped. -/
theorem OneLine.markupText (v : Text) :
    OneLine (markupText ⟨false, step⟩ v) := by
  rw [Stencil.markupText, if_neg (by simp)]
  refine .flatMap fun c _ => ?_
  split
  · exact .plain rfl
  · next hc => exact .cons hc .nil

/-- The opening of a tag; what is written of a name and of a value has no line
break in it. -/
theorem OneLine.tagHead (b : Bindings) (column : Nat) {n : Name}
    (h : n.Printable) {as : List Attribute}
    (has : ∀ a ∈ as, a.name.IsWord isNameChar) :
    OneLine (tagHead ⟨false, step⟩ b column n as) := by
  have hentries : ∀ entry ∈ as.map (Attribute.markup ⟨false, step⟩),
      OneLine entry := by
    intro entry hentry
    obtain ⟨a, ha, rfl⟩ := List.mem_map.1 hentry
    exact ((OneLine.of_class rfl (has a ha).isNameChar).append
      (.plain rfl)).append (.expression rfl (by simp))
  have hspace : OneLine [' '] := .plain rfl
  have hinline := hspace.intercalate hentries
  have hattributes : OneLine
      (Attribute.markupList ⟨false, step⟩ column as) := by
    simp only [Attribute.markupList, Bool.false_and,
      Bool.false_eq_true, if_false]
    split
    · exact .nil
    · exact .cons (by decide) hinline
  have hname := OneLine.of_class rfl (h.isTagChar_shown b.exprs)
  have hopen : OneLine ['<'] := .plain rfl
  rw [Stencil.tagHead, openTag, h.tag_eq b]
  exact ((OneLine.nil.append hopen).append hname).append hattributes

theorem OneLine.tagEnd (b : Bindings) (column : Nat) {n : Name}
    (h : n.Printable) (isEmpty : Bool) :
    OneLine (tagEnd ⟨false, step⟩ b column n isEmpty) := by
  have hlead : OneLine (if isEmpty then []
    else Style.lead ⟨false, step⟩ column) := by
    split
    · exact .nil
    · exact .nil
  have hname := OneLine.of_class rfl (h.isTagChar_shown b.exprs)
  rw [Stencil.tagEnd, closeTag, h.tag_eq b]
  exact ((hlead.append (.plain rfl)).append hname).append (.plain rfl)

theorem OneLine.markupList {style : Style} {b : Bindings} {ns : List Node}
    (h : ∀ n ∈ ns, ∀ column, OneLine (n.markup style b column)) (column : Nat) :
    OneLine (Node.markupList style b column ns) := by
  induction ns with
  | nil =>
      rw [Node.markupList]
      exact .nil
  | cons n ns ih =>
      obtain ⟨hn, hns⟩ := List.forall_mem_cons.1 h
      rw [Node.markupList]
      exact (hn column).append (ih hns)

/-- The markup of a node that can be printed. -/
theorem Node.Printable.oneLine_markup {n : Node} (h : n.Printable)
    (b : Bindings) :
    ∀ column, OneLine (n.markup ⟨false, step⟩ b column) := by
  induction h with
  | @text v _ =>
      intro column
      rw [Node.markup]
      exact OneLine.nil.append (.markupText step v)
  | element hname has _ ih =>
      intro column
      rw [Node.markup]
      exact (((OneLine.tagHead step b column hname has).append
        (.plain rfl)).append
        (.markupList ih (column + step))).append (.tagEnd step b column hname _)
  | selfClosing hname _ has =>
      intro column
      rw [Node.markup]
      exact (OneLine.tagHead step b column hname has).append (.plain rfl)

-- ============================================================== bodies

/-- A statement for a short name is on one line if what the name means is. -/
theorem OneLine.aliasStatement (column : Nat) {short value : Text}
    (hshort : OneLine short) (hvalue : OneLine value) :
    OneLine (aliasStatement false column short value) := by
  have hconst : OneLine "const ".toList := .plain rfl
  have hname := (OneLine.nil.append hconst).append hshort
  exact ((((hname.append .nil).append (.plain rfl)).append .nil).append
    hvalue).append (.plain rfl)

/-- A body of nested calls, where what the short names stand for has no
line break. -/
theorem OneLine.callBody (column : Nat) {names : CallNames} {n : Node}
    (hn : n.Prepared) (htag : n.isTag) (hfragment : OneLine names.fragment)
    (hjsx : OneLine names.jsx) (hjsxs : OneLine names.jsxs) :
    OneLine (callBody ⟨false, step⟩ column names n).statements
      ∧ OneLine (Stencil.callBody ⟨false, step⟩ column names n).result := by
  rw [callBody_eq, Node.asRoot_of_isTag htag]
  refine ⟨?_, hn.oneLine_calls step column true⟩
  exact ((OneLine.aliasStatement column (.plain rfl) hfragment).append
    (.aliasStatement column (.plain rfl) hjsx)).append
    (.aliasStatement column (.plain rfl) hjsxs)

/-- A body of markup, with the statements for the tags that come from
properties. -/
theorem OneLine.markupBody (column : Nat) {n : Node} (hn : n.Printable)
    (htag : n.isTag) :
    OneLine (markupBody ⟨false, step⟩ column n).statements
      ∧ OneLine (Stencil.markupBody ⟨false, step⟩ column n).result := by
  refine ⟨?_, ?_⟩
  · rw [markupBody_eq, Node.asRoot_of_isTag htag, Bindings.statements,
      hn.exprs_bindings]
    refine .flatMap fun p hp => ?_
    obtain ⟨m, hm⟩ := hn.of_mem_hoisted (List.fst_mem_of_mem_zipIdx hp)
    obtain ⟨expr, i⟩ := p
    obtain rfl : expr = Stencil.reference m := hm
    have hconst : OneLine "const ".toList := .plain rfl
    have hname := OneLine.of_class rfl (isTagChar_nameAt i)
    exact (((hconst.append hname).append (.plain rfl)).append
      (.reference m)).append (.plain rfl)
  · rw [markupBody_result htag]
    exact hn.oneLine_markup step n.bindings column

end

/-- The code of a function on one line. -/
theorem OneLine.functionAround {name : Text} (hname : OneLine name)
    (outer inner : Nat) {body : FunctionBody}
    (hbody : OneLine body.statements ∧ OneLine body.result) :
    OneLine (functionAround name false outer inner body) := by
  have hfunction : OneLine "function ".toList := .plain rfl
  have hopen : OneLine "(props)\x7b".toList := .plain rfl
  have hreturn : OneLine "return ".toList := .plain rfl
  exact (((((hfunction.append hname).append hopen).append hbody.1).append
    hreturn).append
    hbody.2).append (.plain rfl)

-- ======================================================= the component

/-- A template that is read compiles to code of one line where the code is
not laid out, whatever line breaks the template holds. -/
theorem compile_single_line {template : Text} {nodes : List Node}
    (h : parse template = .ok nodes) (options : Options)
    (hline : options.pretty.layout? = none)
    (hname : '\n' ∉ options.componentName)
    (hnames : ∀ names ∈ options.jsx.callNames?,
      '\n' ∉ names.fragment ∧ '\n' ∉ names.jsx ∧ '\n' ∉ names.jsxs) :
    ∃ code, compile options template = .ok code ∧ '\n' ∉ code := by
  have htag := isTag_normalRoot options.keepsWhitespace nodes
  refine ⟨component options nodes, by rw [compile, h]; rfl, ?_⟩
  simp only [component, hline]
  refine OneLine.functionAround hname _ _ ?_
  split
  · next names hcalls =>
    obtain ⟨hfragment, hjsx, hjsxs⟩ := hnames names hcalls
    exact OneLine.callBody _ _ (prepared_normalRoot h _)
      htag hfragment hjsx hjsxs
  · exact OneLine.markupBody _ _ (printable_normalRoot h _) htag

/-- The tree of a note with line breaks in a text, in a value and in the
markers of both. -/
def brokenNote : List Node :=
  [.element (.literal "p".toList) [⟨"title".toList, "a\nb\x7bc\nd\x7d".toList⟩]
    [.text "x\ny \x7be\n\x7d".toList]]

theorem parse_brokenNote :
    parse "<p title=\"a\nb\x7bc\nd\x7d\">x\ny \x7be\n\x7d</p>".toList
      = .ok brokenNote := by
  have hnote : WellFormed brokenNote := by decide
  exact hnote.parse_eq fun _ => false

/-- The note on one line, as markup and as nested calls. -/
theorem compile_single_line_note :
    ∃ markup calls,
      compile {} "<p title=\"a\nb\x7bc\nd\x7d\">x\ny \x7be\n\x7d</p>".toList
        = .ok markup
      ∧ compile (Options.withJsx {} true)
          "<p title=\"a\nb\x7bc\nd\x7d\">x\ny \x7be\n\x7d</p>".toList
            = .ok calls
      ∧ markup
        = ("function TemplateComponent(props)\x7breturn <p title=\x7b\"a\\nb\"".toList
        ++ "+props[\"c\\nd\"]\x7d>x\\ny \x7bprops[\"e\\n\"]\x7d</p>\x7d".toList)
      ∧ '\n' ∉ markup ∧ '\n' ∉ calls := by
  obtain ⟨markup, hmarkup, hline⟩ :=
    compile_single_line parse_brokenNote {} rfl (by decide)
      (by simp [JsxSetting.callNames?])
  obtain ⟨calls, hcalls, hline'⟩ :=
    compile_single_line parse_brokenNote (Options.withJsx {} true)
      rfl (by decide) (by simp [Options.withJsx, JsxSetting.callNames?])
  refine ⟨markup, calls, hmarkup, hcalls, ?_, hline, hline'⟩
  rw [compile, parse_brokenNote] at hmarkup
  cases hmarkup
  decide +kernel

end Stencil
