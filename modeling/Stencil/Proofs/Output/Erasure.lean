/-
Layout is only layout. Without the spaces and line breaks that stand
outside its strings, code spread over lines is the code on one line.

What stands outside a string is for a reader of the code to say, who goes
through it from left to right and knows at each character whether a string
is open (`Lexer`). The code is put together from pieces, and the argument
is about pieces: `Erases s t` says that a reader who comes to `s` outside
of strings keeps `t` of it and is outside of strings again behind it. The
second half is what lets pieces be put together, whatever their texts.
Every piece that holds text of the template is a string by itself, and
`Erases` any string to itself.
-/
import Stencil.Proofs.Output.CallReading

namespace Stencil

-- ========================================================= the reader

/-- Where a reader of code is. -/
inductive Lexer where
  /-- Outside of strings. -/
  | code
  /-- In a string. -/
  | string
  /-- In a string, behind a backslash. -/
  | escape
  deriving DecidableEq, Repr

/-- The reader goes past a character. -/
def Lexer.next : Lexer → Char → Lexer
  | .code, c => if c = '"' then .string else .code
  | .string, c =>
    if c = '"' then .code else if c = '\\' then .escape else .string
  | .escape, _ => .string

/-- Where the reader is behind a text. -/
def Lexer.after (state : Lexer) (t : Text) : Lexer := t.foldl Lexer.next state

/-- The characters that lay out code. -/
def isLayout (c : Char) : Bool := c = ' ' || c = '\n'

/-- What the reader keeps of a text: all but layout outside of strings. -/
def Lexer.keep : Lexer → Text → Text
  | _, [] => []
  | state, c :: t =>
    if state = .code && isLayout c then state.keep t
    else c :: (state.next c).keep t

/-- Code without its layout. -/
def eraseLayout (code : Text) : Text := Lexer.code.keep code

theorem Lexer.after_append (state : Lexer) (s t : Text) :
    state.after (s ++ t) = (state.after s).after t :=
  List.foldl_append

/-- Layout outside of strings does not move the reader. -/
theorem Lexer.next_layout {c : Char} (hc : isLayout c) :
    Lexer.code.next c = .code := by
  have hquote : c ≠ '"' := by
    intro h
    subst h
    cases hc
  rw [Lexer.next, if_neg hquote]

theorem Lexer.keep_append (state : Lexer) (s t : Text) :
    state.keep (s ++ t) = state.keep s ++ (state.after s).keep t := by
  induction s generalizing state with
  | nil => rfl
  | cons c s ih =>
      rw [List.cons_append, Lexer.keep, Lexer.keep]
      by_cases hc : state = .code && isLayout c
      · obtain ⟨hstate, hlayout⟩ := by simpa using hc
        subst hstate
        have hafter : Lexer.code.after (c :: s) = Lexer.code.after s := by
          rw [Lexer.after, List.foldl_cons, Lexer.next_layout hlayout,
            Lexer.after]
        rw [if_pos hc, if_pos hc, ih, hafter]
      · rw [if_neg hc, if_neg hc, ih, List.cons_append]
        rfl

-- ============================================================= pieces

/-- Outside of strings the reader keeps `t` of `s`, and is outside of
strings behind it. -/
def Erases (s t : Text) : Prop :=
  Lexer.code.keep s = t ∧ Lexer.code.after s = .code

theorem Erases.nil : Erases [] [] := ⟨rfl, rfl⟩

theorem Erases.append {s s' t t' : Text} (h : Erases s t) (h' : Erases s' t') :
    Erases (s ++ s') (t ++ t') := by
  obtain ⟨hkeep, hafter⟩ := h
  refine ⟨?_, ?_⟩
  · rw [Lexer.keep_append, hkeep, hafter, h'.1]
  · rw [Lexer.after_append, hafter, h'.2]

/-- Layout leaves nothing. -/
theorem Erases.layout {s : Text} (h : s.all isLayout) : Erases s [] := by
  induction s with
  | nil => exact .nil
  | cons c s ih =>
      rw [List.all_cons, Bool.and_eq_true] at h
      obtain ⟨hc, hs⟩ := h
      obtain ⟨hkeep, hafter⟩ := ih hs
      refine ⟨?_, ?_⟩
      · rw [Lexer.keep, if_pos (by simp [hc]), hkeep]
      · rw [Lexer.after, List.foldl_cons, Lexer.next_layout hc]
        exact hafter

/-- A text without layout and without quotes stays. -/
theorem Erases.plain {s : Text} (h : s.all fun c => !isLayout c && c != '"') :
    Erases s s := by
  induction s with
  | nil => exact .nil
  | cons c s ih =>
      rw [List.all_cons, Bool.and_eq_true, Bool.and_eq_true] at h
      obtain ⟨⟨hlayout, hne⟩, hs⟩ := h
      have hquote : c ≠ '"' := by simpa using hne
      obtain ⟨hkeep, hafter⟩ := ih hs
      have hnext : Lexer.code.next c = .code := by
        rw [Lexer.next, if_neg hquote]
      refine ⟨?_, ?_⟩
      · rw [Lexer.keep, if_neg (by simpa using hlayout), hnext, hkeep]
      · rw [Lexer.after, List.foldl_cons, hnext]
        exact hafter

-- ============================================================ strings

/-- A character other than the quote and the backslash stays in a string. -/
theorem Lexer.next_string {c : Char} (hquote : c ≠ '"') (hback : c ≠ '\\') :
    Lexer.string.next c = .string := by
  rw [Lexer.next, if_neg hquote, if_neg hback]

/-- A letter or digit is neither. -/
theorem Lexer.next_alphanum {c : Char} (hc : c.isAlphanum) :
    Lexer.string.next c = .string := by
  refine Lexer.next_string ?_ ?_
  · intro h
    subst h
    cases hc
  · intro h
    subst h
    cases hc

/-- In a string the reader keeps what a character is written as, and is
still in the string behind it. -/
theorem Text.Escaped.kept {c : Char} {e : Text} (h : Text.Escaped c e) :
    Lexer.string.keep e = e ∧ Lexer.string.after e = .string := by
  have hback : Lexer.string.next '\\' = .escape := rfl
  cases h with
  | plain hquote hback _ =>
      have hnext := Lexer.next_string hquote hback
      simp [Lexer.keep, Lexer.after, hnext]
  | @short e _ _ =>
      have hescape : Lexer.escape.next e = .string := rfl
      simp [Lexer.keep, Lexer.after, hback, hescape]
  | @code a b _ _ _ _ hdigits _ _ =>
      have hescape : Lexer.escape.next 'u' = .string := rfl
      have hzero : Lexer.string.next '0' = .string := rfl
      have ha := Lexer.next_alphanum hdigits.1
      have hb := Lexer.next_alphanum hdigits.2
      simp [Lexer.keep, Lexer.after, hback, hescape, hzero, ha, hb]

theorem Lexer.kept_flatMap_escape (t : Text) :
    Lexer.string.keep (t.flatMap Text.escape) = t.flatMap Text.escape
      ∧ Lexer.string.after (t.flatMap Text.escape) = .string := by
  induction t with
  | nil => exact ⟨rfl, rfl⟩
  | cons c t ih =>
      obtain ⟨hkeep, hafter⟩ := (Text.escaped_escape c).kept
      rw [List.flatMap_cons]
      refine ⟨?_, ?_⟩
      · rw [Lexer.keep_append, hkeep, hafter, ih.1]
      · rw [Lexer.after_append, hafter, ih.2]

/-- A quoted text stays, whatever it holds. -/
theorem Erases.quote (t : Text) : Erases t.quote t.quote := by
  obtain ⟨hkeep, hafter⟩ := Lexer.kept_flatMap_escape t
  have hopen : Lexer.code.next '"' = .string := rfl
  have hquote : isLayout '"' = false := rfl
  refine ⟨?_, ?_⟩
  · rw [Text.quote, Lexer.keep, if_neg (by simp [hquote]), hopen,
      Lexer.keep_append, hkeep, hafter]
    rfl
  · rw [Text.quote, Lexer.after, List.foldl_cons, hopen]
    show Lexer.string.after (t.flatMap Text.escape ++ ['"']) = .code
    rw [Lexer.after_append, hafter]
    rfl

/-- A variable name has no layout and no quotes. -/
theorem Erases.variableName {m : Text} (h : isVariableName m) : Erases m m := by
  refine .plain (List.all_eq_true.2 fun c hc => ?_)
  rcases of_mem_variableName h hc with halnum | hdollar
  · have hne : ∀ d : Char, d.isAlphanum = false → c ≠ d := by
      intro d hd hcd
      subst hcd
      rw [halnum] at hd
      cases hd
    simp [isLayout, hne ' ' rfl, hne '\n' rfl, hne '"' rfl]
  · subst hdollar
    decide

theorem Erases.reference (m : Text) : Erases (reference m) (reference m) := by
  unfold Stencil.reference
  split
  · next hname => exact Erases.append (.plain rfl) (.variableName hname)
  · exact Erases.append (Erases.append (.plain rfl) (.quote m)) (.plain rfl)

-- ============================================================== lists

/-- Pieces between separators, where each piece and the separator is
known. -/
theorem Erases.intercalate {separator separator' : Text}
    (hsep : Erases separator separator') {α : Type} {f g : α → Text}
    {xs : List α} (h : ∀ x ∈ xs, Erases (f x) (g x)) :
    Erases (separator.intercalate (xs.map f))
      (separator'.intercalate (xs.map g)) := by
  induction xs with
  | nil => exact .nil
  | cons x xs ih =>
      have hx := h x (List.mem_cons_self ..)
      cases xs with
      | nil => simpa using hx
      | cons y xs =>
          have hrest := ih fun z hz => h z (List.mem_cons_of_mem _ hz)
          rw [List.map_cons, List.map_cons, List.map_cons, List.map_cons,
            List.intercalate_cons_cons, List.intercalate_cons_cons]
          exact (hx.append hsep).append hrest

theorem isLayout_newline {column : Nat} :
    ∀ c ∈ Style.newline column, isLayout c := by
  intro c hc
  rcases List.mem_cons.1 hc with hbreak | hspace
  · rw [hbreak]
    rfl
  · rw [(List.mem_replicate.1 hspace).2]
    rfl

theorem Erases.newline (column : Nat) : Erases (Style.newline column) [] :=
  .layout (List.all_eq_true.2 isLayout_newline)

theorem Erases.space : Erases [' '] [] := .layout rfl

/-- A separator with layout behind it. -/
theorem Erases.comma {layout : Text} (h : Erases layout []) :
    Erases (',' :: layout) [','] := by
  have hcomma : Erases [','] [','] := .plain rfl
  simpa using hcomma.append h

/-- Pieces on lines of their own. -/
theorem Erases.spread (step step' column column' : Nat) {α : Type}
    {f g : α → Text} {xs : List α} (h : ∀ x ∈ xs, Erases (f x) (g x)) :
    Erases (spread ⟨true, step⟩ column (xs.map f))
      (spread ⟨false, step'⟩ column' (xs.map g)) := by
  have hitems := Erases.intercalate (.comma (.newline (column + step))) h
  have hlines :=
    ((Erases.newline (column + step)).append hitems).append (.newline column)
  simpa [Stencil.spread, Style.lead] using hlines

-- ======================================================= expressions

/-- The expression of a text whose markers, where they are not looked up,
stay as they are. -/
theorem Erases.expression {resolved : Bool} {v : Text}
    (h : resolved = false → ∀ m ∈ markers v, Erases m m) :
    Erases (expression ⟨false, true, resolved, true⟩ v)
      (expression ⟨false, true, resolved, false⟩ v) := by
  have hplus : Erases " + ".toList "+".toList := ⟨by decide, by decide⟩
  have hoperand : ∀ g ∈ Segment.split v,
      Erases (g.operand ⟨false, true, resolved, true⟩)
        (g.operand ⟨false, true, resolved, false⟩) := by
    intro g hg
    cases g with
    | literal t => exact .quote t
    | marker m =>
        cases resolved with
        | true => exact .reference m
        | false => exact h rfl m (List.mem_filterMap.2 ⟨_, hg, rfl⟩)
  unfold Stencil.expression
  by_cases hany : (Segment.split v).any Segment.isMarker
  · simp only [hany, if_true, Bool.false_eq_true, if_false]
    exact .intercalate hplus hoperand
  · simp only [hany, Bool.false_eq_true, if_false, if_true]
    exact .quote v

-- ========================================================= arguments

theorem Erases.tag {n : Name} (h : n.Prepared) :
    Erases n.argument n.argument := by
  cases n with
  | literal t => exact .quote t
  | placeholder t => cases h
  | property t =>
      obtain ⟨m, rfl⟩ := h
      rw [Name.argument_referenceMarker]
      exact .reference m
  | fragment t =>
      show Erases fragmentAlias fragmentAlias
      exact .plain rfl

theorem Erases.attributeKey (name : Text) :
    Erases (attributeKey name) (attributeKey name) := by
  unfold Stencil.attributeKey
  split
  · next hname => exact .variableName hname
  · exact .quote name

theorem Erases.entry (step step' : Nat) (a : Attribute) :
    Erases (a.entry ⟨true, step⟩) (a.entry ⟨false, step'⟩) := by
  have hcolon : Erases [':'] [':'] := .plain rfl
  have hvalue : Erases (Stencil.expression ⟨false, true, true, true⟩ a.value)
      (Stencil.expression ⟨false, true, true, false⟩ a.value) :=
    .expression (by simp)
  exact (((Erases.attributeKey a.name).append hcolon).append .space).append
    hvalue

/-- The attributes, on lines of their own or on one with spaces. -/
theorem Erases.attributes (step step' column column' : Nat)
    (as : List Attribute) :
    Erases (Attribute.argument ⟨true, step⟩ column as)
      (Attribute.argument ⟨false, step'⟩ column' as) := by
  have hentry : ∀ a ∈ as,
      Erases (a.entry ⟨true, step⟩) (a.entry ⟨false, step'⟩) :=
    fun a _ => .entry step step' a
  have hopen : Erases ['{'] ['{'] := .plain rfl
  have hclose : Erases ['}'] ['}'] := .plain rfl
  unfold Attribute.argument
  by_cases has : as.isEmpty
  · rw [if_pos has, if_pos has]
    exact .plain rfl
  · rw [if_neg has, if_neg has]
    simp only [Bool.false_and, Bool.false_eq_true, if_false]
    split
    · have hlines :=
        (hopen.append (.spread step step' column column' hentry)).append hclose
      simpa [Stencil.spread, Style.lead, Style.space] using hlines
    · have hitems := Erases.intercalate (.comma .space) hentry
      have hline :=
        (((hopen.append .space).append hitems).append .space).append hclose
      simpa [Style.space] using hline

theorem Erases.children (step step' column column' : Nat) {α : Type}
    {f g : α → Text} {xs : List α} (h : ∀ x ∈ xs, Erases (f x) (g x)) :
    Erases (childrenArgument ⟨true, step⟩ column (xs.map f))
      (childrenArgument ⟨false, step'⟩ column' (xs.map g)) := by
  have hopen : Erases ['['] ['['] := .plain rfl
  have hclose : Erases [']'] [']'] := .plain rfl
  unfold childrenArgument
  rw [List.isEmpty_map, List.isEmpty_map]
  split
  · exact .plain rfl
  · exact (hopen.append (.spread step step' column column' h)).append hclose

theorem Erases.callHead (step step' column column' : Nat) (isRoot : Bool)
    {n : Name} (hname : n.Prepared) (as : List Attribute) :
    Erases (callHead ⟨true, step⟩ column isRoot n as)
      (callHead ⟨false, step'⟩ column' isRoot n as) := by
  have hfunction : Erases (functionAlias isRoot) (functionAlias isRoot) := by
    cases isRoot with
    | true => exact .plain rfl
    | false => exact .plain rfl
  have hopen : Erases ['('] ['('] := .plain rfl
  have hcomma : Erases [','] [','] := .plain rfl
  have htag := (hfunction.append hopen).append (Erases.tag hname)
  have hattributes := ((htag.append hcomma).append .space).append
    (Erases.attributes step step' column column' as)
  exact (hattributes.append hcomma).append .space

-- ============================================================== nodes

/-- What leaves something is something. -/
theorem Erases.ne_nil {s t : Text} (h : Erases s t) (ht : t ≠ []) : s ≠ [] := by
  intro hs
  subst hs
  exact ht h.1.symm

/-- A prepared node, at any column and with any step. -/
theorem Erases.calls {n : Node} (h : n.Prepared) (step step' : Nat) :
    ∀ (column column' : Nat) (isRoot : Bool),
      Erases (n.calls ⟨true, step⟩ column isRoot)
        (n.calls ⟨false, step'⟩ column' isRoot) := by
  have hclose : Erases [')'] [')'] := .plain rfl
  induction h with
  | @text v hresolved =>
      intro column column' isRoot
      rw [Node.calls, Node.calls]
      refine .expression fun _ m hm => ?_
      obtain ⟨name, rfl⟩ := hresolved m hm
      exact .reference name
  | @element n as children hname hcontent ih =>
      intro column column' isRoot
      have hitem : ∀ c ∈ children,
          Erases (c.calls ⟨true, step⟩ (column + step) false)
          (c.calls ⟨false, step'⟩ (column' + step') false) :=
        fun c hc => ih c hc (column + step) (column' + step') false
      -- on one line no child is left out, so none is over several
      have hsome : ∀ c ∈ children,
          c.calls ⟨false, step'⟩ (column' + step') false ≠ [] :=
        fun c hc =>
          (Calls.code_calls (hcontent c hc) step' (column' + step') false
            (by simp)).ne_nil
      rw [Node.calls, Node.calls, Calls.callsList_eq_map hsome,
        Calls.callsList_eq_map fun c hc => (hitem c hc).ne_nil (hsome c hc)]
      exact ((Erases.callHead step step' column column' isRoot hname as).append
        (.children step step' column column' hitem)).append hclose
  | @selfClosing n as hname =>
      intro column column' isRoot
      rw [Node.calls, Node.calls]
      have hempty : Erases (childrenArgument ⟨true, step⟩ column [])
          (childrenArgument ⟨false, step'⟩ column' []) := by
        show Erases "[]".toList "[]".toList
        exact .plain rfl
      exact ((Erases.callHead step step' column column' isRoot hname as).append
        hempty).append hclose

/-- Without its layout, the code of a template over several lines is its
code on one line. -/
theorem eraseLayout_callBody {s : Text} {ns : List Node} (h : parse s = .ok ns)
    (keep : Bool) (names : CallNames) (step step' column column' : Nat) :
    eraseLayout (callBody ⟨true, step⟩ column names (normalRoot keep ns)).result
      = (callBody ⟨false, step'⟩ column' names
        (normalRoot keep ns)).result := by
  have hcalls :=
    Erases.calls (prepared_normalRoot h keep) step step' column column' true
  rw [callBody_eq, callBody_eq, Node.asRoot_of_isTag (isTag_normalRoot keep ns)]
  exact hcalls.1

/-- The greeting over several lines, and on one. -/
theorem eraseLayout_callBody_greeting :
    ∃ ns, parse "<p>hi \x7ba\x7d</p>".toList = .ok ns
      ∧ (callBody ⟨true, 2⟩ 0 {} (normalRoot false ns)).result
        = "jsxs(\"p\", null, [\n  \"hi \" + props.a\n])".toList
      ∧ eraseLayout "jsxs(\"p\", null, [\n  \"hi \" + props.a\n])".toList
        = (callBody ⟨false, 2⟩ 0 {} (normalRoot false ns)).result := by
  have hcode : (callBody ⟨true, 2⟩ 0 {} (normalRoot false
      [.element (.literal "p".toList) [] [.text "hi \x7ba\x7d".toList]])).result
      = "jsxs(\"p\", null, [\n  \"hi \" + props.a\n])".toList := by
        decide +kernel
  refine ⟨_, parse_greeting, hcode, ?_⟩
  rw [← hcode]
  exact eraseLayout_callBody parse_greeting false {} 2 2 0 0

end Stencil
