/-
The expressions behind tags that come from properties. In markup each
distinct expression is bound to a name before the code and the tags say
the name; in nested calls the tag is the expression itself. Both are read
here from the code, and both say the same of every tag.

# The reader

`declarations` takes the statements before the code apart into names and
expressions, and `callTags` finds the tag of every call in nested calls:
what stands between its opening bracket and the next comma. Marks in
strings do not count for either. The calls of a tree open in the order of
its tags, so the tags found are those of `Node.names`, one for each.

# The argument

The bindings are numbered by first use, so the name in a tag is that of
the place where its expression stands among the distinct ones. A literal
name starts with a small letter and a binding with a capital, so the two
are never confused.
-/
import Stencil.Proofs.Output.MarkupTags

namespace Stencil

-- ============================================= the reader of statements

/-- The characters at which the name in a declaration ends. -/
def isNameEnd (c : Char) : Bool := isLayout c || c == '='

/-- Reads a name, and the expression that it stands for. -/
def readBinding? (t : Text) : Option (Text × Text) :=
  match (t.dropWhile (!isNameEnd ·)).dropWhile isLayout with
  | '=' :: e => some (t.takeWhile (!isNameEnd ·), e.dropWhile isLayout)
  | _ => none

/-- Reads a declaration up to its end. -/
def readDeclaration? (s : Text) : Option (Text × Text) :=
  match s.dropWhile isLayout with
  | 'c' :: 'o' :: 'n' :: 's' :: 't' :: ' ' :: t => readBinding? t
  | _ => none

/-- The declarations in some statements, unless there is anything else. -/
def declarations (s : Text) : Option (List (Text × Text)) :=
  match _h : Lexer.code.span (· == ';') s with
  | (body, []) => if body.isEmpty then some [] else none
  | (body, _ :: r) =>
    match readDeclaration? body, declarations r with
    | some d, some ds => some (d :: ds)
    | _, _ => none
termination_by s.length
decreasing_by
  have hle := Lexer.length_span_le (· == ';') .code s
  rw [_h, List.length_cons] at hle
  omega

/-- The tags of the calls in some code, in the order in which they open. -/
def callTags (s : Text) : List Text :=
  match _h : (Lexer.code.span (· == '(') s).2 with
  | [] => []
  | _ :: t =>
    (Lexer.code.span (· == ',') t).1
      :: callTags (Lexer.code.span (· == ',') t).2
termination_by s.length
decreasing_by
  have hle := Lexer.length_span_le (· == '(') .code s
  have hle' := Lexer.length_span_le (· == ',') .code t
  rw [_h, List.length_cons] at hle
  omega

-- ====================================================== declarations

/-- A statement as layout, name and expression. -/
theorem Bindings.statement_eq (pretty : Bool) (column : Nat) (expr : Text)
    (i : Nat) :
    statement pretty column expr i
      = Style.lead ⟨pretty, 0⟩ column ++ "const ".toList ++ nameAt i
        ++ (Style.space ⟨pretty, 0⟩ ++ ['='] ++ Style.space ⟨pretty, 0⟩) ++ expr
        ++ [';'] := by
  cases pretty with
  | true => rfl
  | false => rfl

/-- A declaration reads as its name and its expression. -/
theorem readDeclaration?_eq {lead name gap e : Text}
    (hlead : ∀ c ∈ lead, isLayout c) (hname : ∀ c ∈ name, isTagChar c)
    (hgap : ∀ c ∈ gap, isLayout c) (he : ∀ c ∈ e.head?, isLayout c = false) :
    readDeclaration? (lead ++ "const ".toList ++ name
      ++ (gap ++ ['='] ++ gap) ++ e)
      = some (name, e) := by
  have hconst : (lead ++ "const ".toList ++ name ++ (gap ++ ['='] ++ gap)
      ++ e).dropWhile isLayout
      = "const ".toList ++ (name ++ (gap ++ '=' :: (gap ++ e))) := by
    simp only [List.append_assoc, List.singleton_append]
    exact Text.dropWhile_append_stop hlead (by simp [isLayout])
  have hequals : (gap ++ '=' :: (gap ++ e)).dropWhile isLayout
      = '=' :: (gap ++ e) :=
    Text.dropWhile_append_stop hgap (by simp [isLayout])
  have hexpr : (gap ++ e).dropWhile isLayout = e :=
    Text.dropWhile_append_stop hgap he
  have hscan : (name ++ (gap ++ '=' :: (gap ++ e))).takeWhile (!isNameEnd ·)
      = name
      ∧ (name ++ (gap ++ '=' :: (gap ++ e))).dropWhile (!isNameEnd ·)
        = gap ++ '=' :: (gap ++ e) := by
    refine (Text.scan_eq_iff _ _ _ _).2 ⟨rfl, ?_, ?_⟩
    · intro c hc
      have hne : ∀ d, isTagChar d = false → c ≠ d :=
        fun d => ne_of_class (hname c hc)
      simp [isNameEnd, isLayout, hne ' ' rfl, hne '\n' rfl, hne '=' rfl]
    · cases gap with
      | nil => simp [isNameEnd]
      | cons c gap => simp [isNameEnd, hgap c (List.mem_cons_self ..)]
  rw [readDeclaration?, hconst]
  show readBinding? (name ++ (gap ++ '=' :: (gap ++ e))) = some (name, e)
  rw [readBinding?, hscan.1, hscan.2, hequals]
  show some (name, (gap ++ e).dropWhile isLayout) = some (name, e)
  rw [hexpr]

theorem declarations_statement (pretty : Bool) (column : Nat) (m : Text)
    (i : Nat) (r : Text) :
    declarations (Bindings.statement pretty column (reference m) i ++ r)
      = (declarations r).map ((Bindings.nameAt i, reference m) :: ·) := by
  have hlead := isLayout_lead ⟨pretty, 0⟩ column
  have hgap := isLayout_space ⟨pretty, 0⟩
  have hname := isTagChar_nameAt i
  have hstart : ∀ c ∈ (reference m).head?, isLayout c = false := by
    simp [(Calls.lookup_reference m).head, isLayout]
  have hread := readDeclaration?_eq hlead hname hgap hstart
  have hpasses : Passes (· == ';') (Style.lead ⟨pretty, 0⟩ column
      ++ "const ".toList ++ Bindings.nameAt i
      ++ (Style.space ⟨pretty, 0⟩ ++ ['='] ++ Style.space ⟨pretty, 0⟩)
      ++ reference m) := by
    have hequals : Passes (· == ';') ['='] := .plain rfl
    have hconst : Passes (· == ';') "const ".toList := .plain rfl
    have hsign :=
      ((Passes.layout rfl hgap).append hequals).append (.layout rfl hgap)
    exact ((((Passes.layout rfl hlead).append hconst).append
      (.of_class rfl rfl hname)).append
      hsign).append (.reference (isMark_beq rfl (by decide)) m)
  have hspan := hpasses.span_mark (c := ';') rfl r
  rw [Bindings.statement_eq, List.append_assoc, List.singleton_append,
    declarations]
  split
  · next heq =>
    rw [hspan] at heq
    cases heq
  · next heq =>
    rw [hspan] at heq
    cases heq
    rw [hread]
    cases declarations r with
    | none => rfl
    | some ds => rfl

/-- The statements declare the expressions in order, from a number on. -/
theorem declarations_statements {exprs : List Text}
    (h : ∀ e ∈ exprs, ∃ m, e = reference m) (pretty : Bool)
    (column start : Nat) :
    declarations ((exprs.zipIdx start).flatMap
        fun (expr, i) => Bindings.statement pretty column expr i)
      = some ((exprs.zipIdx start).map fun (expr, i) => (Bindings.nameAt i,
        expr)) := by
  induction exprs generalizing start with
  | nil => rw [List.zipIdx_nil, List.flatMap_nil, declarations]; rfl
  | cons e exprs ih =>
      obtain ⟨⟨m, rfl⟩, hexprs⟩ := List.forall_mem_cons.1 h
      rw [List.zipIdx_cons, List.flatMap_cons, declarations_statement,
        ih hexprs, List.map_cons, Option.map_some]

-- ============================================================ calls

/-- In front of any text, `s` has the calls with the tags given. -/
def HasTags (s : Text) (tags : List Text) : Prop :=
  ∀ r, callTags (s ++ r) = tags ++ callTags r

namespace HasTags

theorem nil : HasTags [] [] := fun _ => rfl

theorem append {s s' : Text} {tags tags' : List Text} (h : HasTags s tags)
    (h' : HasTags s' tags') : HasTags (s ++ s') (tags ++ tags') := by
  intro r
  rw [List.append_assoc, h, h', List.append_assoc]

/-- A text that opens no call. -/
theorem of_passes {s : Text} (h : Passes (· == '(') s) : HasTags s [] := by
  intro r
  rw [callTags, h r, List.nil_append]
  conv_rhs => rw [callTags]

/-- The start of a call, with its tag and the comma behind it. -/
theorem call {f tag : Text} (hf : Passes (· == '(') f)
    (htag : Passes (· == ',') tag) :
    HasTags (f ++ ['('] ++ tag ++ [',']) [tag] := by
  intro r
  have hopen := hf.span_mark (c := '(') rfl (tag ++ ',' :: r)
  have hcomma := htag.span_mark (c := ',') rfl r
  have hrest : callTags (',' :: r) = callTags r :=
    of_passes (s := [',']) (.plain rfl) r
  simp only [List.append_assoc, List.cons_append, List.nil_append]
  rw [callTags]
  split
  · next heq =>
    rw [hopen] at heq
    cases heq
  · next heq =>
    rw [hopen] at heq
    cases heq
    rw [hcomma, hrest]

theorem intercalate {separator : Text} (hsep : HasTags separator []) {α : Type}
    {f : α → Text} {g : α → List Text} {xs : List α}
    (h : ∀ x ∈ xs, HasTags (f x) (g x)) :
    HasTags (separator.intercalate (xs.map f)) (xs.flatMap g) := by
  induction xs with
  | nil => exact .nil
  | cons x xs ih =>
      obtain ⟨hx, hxs⟩ := List.forall_mem_cons.1 h
      cases xs with
      | nil => simpa using hx
      | cons y xs =>
          have hall := (hx.append hsep).append (ih hxs)
          rw [List.append_nil] at hall
          rw [List.map_cons, List.map_cons, List.intercalate_cons_cons,
            List.flatMap_cons]
          exact hall

/-- Items between two brackets, on lines of their own or on one. -/
theorem spread (style : Style) (column : Nat) {α : Type} {f : α → Text}
    {g : α → List Text} {xs : List α} (h : ∀ x ∈ xs, HasTags (f x) (g x)) :
    HasTags (spread style column (xs.map f)) (xs.flatMap g) := by
  have hlead : ∀ column, HasTags (style.lead column) [] := fun column =>
    of_passes (.layout rfl (isLayout_lead style column))
  have hcomma : HasTags [','] [] := of_passes (.plain rfl)
  have hitems := intercalate (hcomma.append (hlead (column + style.step))) h
  have hall :=
    ((hlead (column + style.step)).append hitems).append (hlead column)
  rw [List.nil_append, List.append_nil] at hall
  exact hall

theorem children (style : Style) (column : Nat) {α : Type} {f : α → Text}
    {g : α → List Text} {xs : List α} (h : ∀ x ∈ xs, HasTags (f x) (g x)) :
    HasTags (childrenArgument style column (xs.map f)) (xs.flatMap g) := by
  have hopen : HasTags ['['] [] := of_passes (.plain rfl)
  have hclose : HasTags [']'] [] := of_passes (.plain rfl)
  unfold childrenArgument
  split
  · next hempty =>
    obtain rfl : xs = [] := by simpa using hempty
    exact of_passes (.plain rfl)
  · have hall := (hopen.append (.spread style column h)).append hclose
    rw [List.append_nil] at hall
    exact hall

end HasTags

/-- A mark that attributes do not have outside of strings. -/
theorem isMark_open : IsMark (· == '(') := isMark_beq rfl (by decide)

theorem Passes.entry (style : Style) (a : Attribute) :
    Passes (· == '(') (a.entry style) := by
  have hkey : Passes (· == '(') (attributeKey a.name) := by
    unfold attributeKey
    split
    · next hname => exact .variableName isMark_open hname
    · exact .quote rfl a.name
  have hcolon : Passes (· == '(') [':'] := .plain rfl
  exact ((hkey.append hcolon).append
    (.layout rfl (isLayout_space style))).append
    (.expression isMark_open rfl rfl rfl rfl (by simp))

/-- The attributes of a tag open no call. -/
theorem Passes.attributes (style : Style) (column : Nat) (as : List Attribute) :
    Passes (· == '(') (Attribute.argument style column as) := by
  have hentry : ∀ a ∈ as, Passes (· == '(') (a.entry style) :=
    fun a _ => .entry style a
  have hlead : ∀ column, Passes (· == '(') (style.lead column) := fun column =>
    .layout rfl (isLayout_lead style column)
  have hspace : Passes (· == '(') style.space :=
    .layout rfl (isLayout_space style)
  have hcomma : Passes (· == '(') [','] := .plain rfl
  have hopen : Passes (· == '(') ['{'] := .plain rfl
  have hclose : Passes (· == '(') ['}'] := .plain rfl
  unfold Attribute.argument
  split
  · exact .plain rfl
  · simp only
    split
    · have hitems :=
        Passes.intercalate (hcomma.append (hlead (column + style.step))) hentry
      exact hopen.append ((((hlead (column + style.step)).append hitems).append
        (hlead column)).append hclose)
    · have hitems := Passes.intercalate (hcomma.append hspace) hentry
      exact hopen.append (((hspace.append hitems).append hspace).append hclose)

theorem Name.Prepared.passes_argument {n : Name} (h : n.Prepared) :
    Passes (· == ',') n.argument := by
  cases n with
  | literal t => exact .quote rfl t
  | placeholder t => cases h
  | property t =>
      obtain ⟨m, rfl⟩ := h
      rw [Name.argument_referenceMarker]
      exact .reference (isMark_beq rfl (by decide)) m
  | fragment t =>
      show Passes (· == ',') fragmentAlias
      exact .plain rfl

/-- A tag that comes from a property has its expression as its argument. -/
theorem Name.argument_of_propertyExpr? {n : Name} {e : Text}
    (h : n.propertyExpr? = some e) :
    n.argument = e := by
  cases n with
  | literal t => cases h
  | placeholder t => cases h
  | property t => simp [Name.argument, Name.bound?, h]
  | fragment t => cases h

theorem HasTags.callHead (style : Style) (column : Nat) (isRoot : Bool)
    {n : Name} (h : n.Prepared) (as : List Attribute) :
    HasTags (callHead style column isRoot n as) [n.argument] := by
  have hfunction : Passes (· == '(') (functionAlias isRoot) := by
    cases isRoot with
    | true => exact .plain rfl
    | false => exact .plain rfl
  have hspace : Passes (· == '(') style.space :=
    .layout rfl (isLayout_space style)
  have hcomma : Passes (· == '(') [','] := .plain rfl
  have hrest :=
    ((hspace.append (.attributes style column as)).append hcomma).append hspace
  have hall :=
    (HasTags.call hfunction h.passes_argument).append (.of_passes hrest)
  simpa [Stencil.callHead] using hall

/-- A prepared node has calls, or a text, in any layout. -/
theorem Node.Prepared.calls_ne_nil {n : Node} (h : n.Prepared) (style : Style)
    (column : Nat) :
    n.calls style column false ≠ [] := by
  have hline : ∀ step column, n.calls ⟨false, step⟩ column false ≠ [] :=
    fun step column =>
      (Calls.code_calls h step column false (by simp)).ne_nil
  obtain ⟨pretty, step⟩ := style
  cases pretty with
  | true =>
      exact (Erases.calls h step step column column false).ne_nil
        (hline step column)
  | false => exact hline step column

/-- The calls of a prepared node have its tags. -/
theorem Node.Prepared.hasTags {n : Node} (h : n.Prepared) (style : Style) :
    ∀ (column : Nat) (isRoot : Bool),
      HasTags (n.calls style column isRoot) (n.names.map Name.argument) := by
  have hclose : HasTags [')'] [] := .of_passes (.plain rfl)
  induction h with
  | text hresolved =>
      intro column isRoot
      rw [Node.calls, Node.names]
      refine .of_passes (.expression isMark_open rfl rfl rfl rfl fun _
        m hm => ?_)
      obtain ⟨name, rfl⟩ := hresolved m hm
      exact .reference isMark_open name
  | @element n as children hname hcontent ih =>
      intro column isRoot
      have hitem : ∀ c ∈ children,
          HasTags (c.calls style (column + style.step) false)
          (c.names.map Name.argument) :=
        fun c hc => ih c hc (column + style.step) false
      have hall := ((HasTags.callHead style column isRoot hname as).append
        (.children style column hitem)).append hclose
      rw [Node.calls, Node.names, Node.namesList_eq,
        Calls.callsList_eq_map fun c hc =>
        (hcontent c hc).calls_ne_nil style (column + style.step)]
      simpa [List.map_flatMap] using hall
  | @selfClosing n as hname =>
      intro column isRoot
      have hempty : HasTags (childrenArgument style column []) [] :=
        .of_passes (.plain rfl)
      have hall :=
        ((HasTags.callHead style column isRoot hname as).append hempty).append
          hclose
      rw [Node.calls, Node.names]
      simpa using hall

-- ========================================================= the code

/-- The markup of a template declares the distinct expressions of its tags
in the order of their first use, each once; every tag that comes from a
property has the name of its expression in the markup and the expression
itself in the nested calls; and no literal name is that of a binding. -/
theorem markupBody_hoists {s : Text} {ns : List Node} (h : parse s = .ok ns)
    (keep : Bool) (style style' : Style) (column column' : Nat)
    (names : CallNames) :
    let root := normalRoot keep ns
    let exprs := root.hoisted
    declarations (markupBody style column root).statements
        = some (exprs.zipIdx.map fun (e, i) => (Bindings.nameAt i, e))
      ∧ exprs.Nodup
      ∧ tagsOf (cut (markupBody style column root).result)
        = tagsOf (root.pieces (Name.shown exprs))
      ∧ callTags (callBody style' column' names root).result
        = root.names.map Name.argument
      ∧ (∀ n ∈ root.names, ∀ e, n.propertyExpr? = some e →
          n.argument = e ∧ ∃ i, exprs[i]? = some e
            ∧ n.shown exprs = Bindings.nameAt i)
      ∧ ∀ t, .literal t ∈ root.names → ∀ i, t ≠ Bindings.nameAt i := by
  intro root exprs
  have htag : root.isTag := isTag_normalRoot keep ns
  have hprintable : root.Printable := printable_normalRoot h keep
  have hexprs : root.bindings.exprs = exprs := hprintable.exprs_bindings
  refine ⟨?_, ?_, ?_, ?_, ?_, ?_⟩
  · rw [markupBody_eq, Node.asRoot_of_isTag htag, Bindings.statements, hexprs]
    exact declarations_statements
      (fun e he => hprintable.of_mem_hoisted he) _ _ 0
  · rw [← hexprs]
    exact Bindings.nodup_foldl_bind _ List.nodup_nil
  · have hcuts := hprintable.cuts style root.bindings column
    rw [hexprs] at hcuts
    exact (hcuts.markupBody htag).1
  · have htags := (prepared_normalRoot h keep).hasTags style' column' true []
    have hnil : callTags [] = [] := by rw [callTags]; rfl
    rw [List.append_nil, hnil, List.append_nil] at htags
    rw [callBody_eq, Node.asRoot_of_isTag htag]
    exact htags
  · intro n hn e he
    have hmem : e ∈ exprs :=
      List.mem_eraseDups.2 (List.mem_filterMap.2 ⟨n, hn, he⟩)
    exact ⟨Name.argument_of_propertyExpr? he, exprs.idxOf e,
      List.getElem?_idxOf hmem, Name.shown_of_propertyExpr? he exprs⟩
  · intro t ht i
    exact Text.IsTagName.ne_nameAt (hprintable.names _ ht) i

/-- The menu declares its two expressions, and its calls have them as
tags. -/
theorem markupBody_hoists_menu :
    ∃ ns, parse
          "<\x7ba\x7d t=\"1>\x7bb\x7d\">x\ny<\x7bc_d\x7d/><p><\x7ba\x7d/></p></\x7ba\x7d>".toList
        = .ok ns
      ∧ (markupBody ⟨true, 2⟩ 0 (normalRoot false ns)).statements
        = "\nconst C$c0 = props.a;\nconst C$c1 = props[\"c_d\"];".toList
      ∧ declarations (markupBody ⟨true, 2⟩ 0 (normalRoot false ns)).statements
        = some [("C$c0".toList, "props.a".toList),
          ("C$c1".toList, "props[\"c_d\"]".toList)]
      ∧ callTags (callBody ⟨false, 0⟩ 0 {} (normalRoot false ns)).result
        = ["props.a".toList, "props[\"c_d\"]".toList, "\"p\"".toList,
          "props.a".toList] := by
  obtain ⟨hdeclared, -, -, hcalls, -⟩ :=
    markupBody_hoists parse_menu false ⟨true, 2⟩ ⟨false, 0⟩ 0 0 {}
  refine ⟨menu, parse_menu, by decide +kernel, ?_, ?_⟩
  · rw [hdeclared]
    decide +kernel
  · rw [hcalls]
    decide +kernel

end Stencil
