/-
The tags in markup are the tags of the tree. Someone who reads the markup
of a template cuts it at its tags: a tag starts with `<` and ends with the
next `>` that stands outside of strings. The cut finds the tags of the
tree in their order, each with its name and its attributes, and on one
line it finds between them the texts of the tree and nothing else.

# The reader

`cut` takes markup apart into characters between tags and tags, and
`MarkupTag.read` a tag into its name and its attributes, with the layout
of an expression left out. Neither knows of the tree.

# The tree

`Node.pieces` lists what a tree has in document order. The name in a tag
is that of the tree, or for a tag that comes from a property the name of
its binding, which the place of its expression among the distinct ones
decides (`Node.hoisted`).

# The argument

A piece of markup is cut in the same way whatever follows it (`Cuts`), and
the markup of a node is put together from such pieces. A text holds no
`<`, and every `>` in a tag before its end lies in a string.
-/
import Stencil.Proofs.Output.Spans
import Stencil.Proofs.Output.TagNames
import Stencil.Proofs.Output.TextRuns

namespace Stencil

-- ==================================================== the reader of tags

/-- A tag as it is found in markup, each attribute with its name and its
expression. -/
inductive MarkupTag where
  | opening (name : Text) (attributes : List (Text × Text))
  | closing (name : Text)
  | selfClosing (name : Text) (attributes : List (Text × Text))
  deriving DecidableEq, Repr

/-- The characters at which a name or a value in a tag ends. -/
def isTagBreak (c : Char) : Bool := isLayout c || c == '/'

namespace MarkupTag

/-- Reads the value of an attribute: an expression in braces, or a string. -/
def readValue : Text → Text × Text
  | '{' :: t =>
    let inner := Lexer.code.span (· == '}') t
    ('{' :: (inner.1 ++ inner.2.take 1), inner.2.drop 1)
  | t => Lexer.code.span isTagBreak t

theorem length_readValue_le (t : Text) : (readValue t).2.length ≤ t.length := by
  unfold readValue
  split
  · next t =>
    have hle := Lexer.length_span_le (· == '}') .code t
    simp only [List.length_drop, List.length_cons]
    omega
  · exact Lexer.length_span_le isTagBreak .code t

/-- Reads attributes up to the end of the tag or the slash before it. -/
def readAttributes (s : Text) : List (Text × Text) × Text :=
  match _h : s.dropWhile isLayout with
  | [] => ([], [])
  | c :: t =>
    if c = '/' then ([], c :: t)
    else
      let value := readValue (((c :: t).dropWhile (· != '=')).drop 1)
      let more := readAttributes value.2
      (((c :: t).takeWhile (· != '='), eraseLayout value.1) :: more.1, more.2)
termination_by s.length
decreasing_by
  have h₁ := Text.length_dropWhile_le isLayout s
  have h₂ := Text.length_dropWhile_le (· != '=') (c :: t)
  have h₃ := length_readValue_le (((c :: t).dropWhile (· != '=')).drop 1)
  rw [_h] at h₁
  rw [List.length_cons] at h₁ h₂
  rw [List.length_drop] at h₃
  omega

/-- Reads what stands between the `<` and the `>` of a tag. -/
def read : Text → MarkupTag
  | '/' :: name => .closing name
  | body =>
    let name := body.takeWhile (!isTagBreak ·)
    let attributes := readAttributes (body.dropWhile (!isTagBreak ·))
    if attributes.2.isEmpty then .opening name attributes.1
    else .selfClosing name attributes.1

end MarkupTag

-- ======================================================== the cut

/-- A character between tags, or a tag. -/
inductive Piece where
  | char (c : Char)
  | tag (t : MarkupTag)
  deriving DecidableEq, Repr

/-- Markup cut at its tags. -/
def cut (s : Text) : List Piece :=
  match s with
  | [] => []
  | c :: t =>
    if c = '<' then
      match _h : Lexer.code.span (· == '>') t with
      | (body, _ :: r) => .tag (.read body) :: cut r
      | (_, []) => .char c :: cut t
    else .char c :: cut t
termination_by s.length
decreasing_by
  · have hle := Lexer.length_span_le (· == '>') .code t
    simp only [_h, List.length_cons] at hle ⊢
    omega
  · simp
  · simp

def Piece.tag? : Piece → Option MarkupTag
  | .char _ => none
  | .tag t => some t

/-- The tags among some pieces. -/
def tagsOf (pieces : List Piece) : List MarkupTag := pieces.filterMap Piece.tag?

/-- Whether every closing tag has the name of the innermost open one, and
none is left open. -/
def closesInnermost : List Text → List MarkupTag → Bool
  | opened, [] => opened.isEmpty
  | opened, .opening name _ :: ts => closesInnermost (name :: opened) ts
  | opened, .selfClosing _ _ :: ts => closesInnermost opened ts
  | [], .closing _ :: _ => false
  | expected :: opened, .closing name :: ts =>
    expected = name && closesInnermost opened ts

-- ============================================== the tags of a tree

/-- An attribute with its name and its expression. -/
def Attribute.shown (a : Attribute) : Text × Text :=
  (a.name, expression ⟨true, true, true, false⟩ a.value)

mutual

/-- What a node has in document order: its tags, and the characters of its
texts with every line break escaped. -/
def Node.pieces (shown : Name → Text) : Node → List Piece
  | .comment _ => []
  | .text value =>
    (value.flatMap fun c => if c = '\n' then ['\\', 'n'] else [c]).map .char
  | .selfClosing name attributes =>
    [.tag (.selfClosing (shown name) (attributes.map Attribute.shown))]
  | .element name attributes children =>
    .tag (.opening (shown name) (attributes.map Attribute.shown)) ::
      (Node.piecesList shown children ++ [.tag (.closing (shown name))])

/-- What some nodes have in document order. -/
def Node.piecesList (shown : Name → Text) : List Node → List Piece
  | [] => []
  | node :: nodes => node.pieces shown ++ Node.piecesList shown nodes

end

-- =================================================== attributes in tags

/-- The text is empty or starts where a name or a value in a tag ends. -/
def AtBreak (r : Text) : Prop := ∀ c ∈ r.head?, isTagBreak c

theorem AtBreak.layout {w r : Text} (hw : ∀ c ∈ w, isLayout c)
    (hr : w = [] → AtBreak r) :
    AtBreak (w ++ r) := by
  cases w with
  | nil => exact hr rfl
  | cons c w =>
      intro d hd
      obtain rfl : c = d := by simpa using hd
      simp [isTagBreak, hw c (List.mem_cons_self ..)]

/-- What is kept of a text is kept again, and moves the reader alike. -/
theorem Lexer.keep_keep (state : Lexer) (s : Text) :
    state.keep (state.keep s) = state.keep s
      ∧ state.after (state.keep s) = state.after s := by
  induction s generalizing state with
  | nil => exact ⟨rfl, rfl⟩
  | cons c s ih =>
      rw [Lexer.keep]
      by_cases hc : state = .code && isLayout c
      · obtain ⟨rfl, hlayout⟩ : state = .code ∧ isLayout c = true := by
          simpa using hc
        have hafter : Lexer.code.after (c :: s) = Lexer.code.after s := by
          rw [Lexer.after, List.foldl_cons, Lexer.next_layout hlayout,
            Lexer.after]
        rw [if_pos hc, hafter]
        exact ih .code
      · obtain ⟨hkeep, hafter⟩ := ih (state.next c)
        rw [if_neg hc, Lexer.keep, if_neg hc, hkeep]
        exact ⟨rfl, hafter⟩

theorem Erases.again {s t : Text} (h : Erases s t) : Erases t t := by
  obtain ⟨rfl, hafter⟩ := h
  obtain ⟨hkeep, hkept⟩ := Lexer.code.keep_keep s
  exact ⟨hkeep, hkept.trans hafter⟩

/-- The expression of an attribute is a sum in braces or a string. -/
theorem expression_braced (spaced : Bool) (v : Text) :
    (∃ sum, expression ⟨true, true, true, spaced⟩ v = '{' :: (sum ++ ['}'])
        ∧ expression ⟨false, true, true, spaced⟩ v = sum
        ∧ ∀ stop, IsMark stop → stop ' ' = false → stop '+' = false
          → Passes stop sum)
      ∨ ∀ braced spaced, expression ⟨braced, true, true, spaced⟩ v
        = v.quote := by
  by_cases hany : (Segment.split v).any Segment.isMarker
  · left
    refine ⟨expression ⟨false, true, true, spaced⟩ v, ?_, rfl, ?_⟩
    · have hoperand : Segment.operand ⟨true, true, true, spaced⟩
          = Segment.operand ⟨false, true, true, spaced⟩ := by
        funext g
        cases g <;> rfl
      simp [expression, hany, hoperand]
    · intro stop hstop hspace hplus
      exact .expression hstop hspace hplus rfl rfl (by simp)
  · right
    intro braced spaced
    simp [expression, hany]

theorem eraseLayout_expression (spaced : Bool) (v : Text) :
    eraseLayout (expression ⟨true, true, true, spaced⟩ v)
      = expression ⟨true, true, true, false⟩ v := by
  have hsum : Erases (expression ⟨false, true, true, spaced⟩ v)
      (expression ⟨false, true, true, false⟩ v) := by
    have hspread : Erases (expression ⟨false, true, true, true⟩ v)
        (expression ⟨false, true, true, false⟩ v) := .expression (by simp)
    cases spaced with
    | true => exact hspread
    | false => exact hspread.again
  have hopen : Erases ['{'] ['{'] := .plain rfl
  have hclose : Erases ['}'] ['}'] := .plain rfl
  rcases expression_braced spaced v with ⟨sum, hbraced, rfl, -⟩ | hquote
  · rcases expression_braced false v with ⟨sum, hbraced', rfl, -⟩ | hquote
    · rw [hbraced, hbraced']
      exact ((hopen.append hsum).append hclose).1
    · rw [hquote] at hbraced
      cases hbraced
  · rw [hquote, hquote]
    exact (Erases.quote v).1

namespace MarkupTag

/-- The value of an attribute reads up to its end, where a break stands. -/
theorem readValue_expression (spaced : Bool) (v : Text) {r : Text}
    (hr : AtBreak r) :
    readValue (expression ⟨true, true, true, spaced⟩ v ++ r)
      = (expression ⟨true, true, true, spaced⟩ v, r) := by
  rcases expression_braced spaced v with ⟨sum, hbraced, -, hpasses⟩ | hquote
  · have hsum := hpasses (· == '}') (isMark_beq rfl (by decide)) rfl rfl
    have hspan := hsum.span_mark (c := '}') rfl r
    rw [hbraced]
    simp [readValue, hspan]
  · have hpasses : Passes isTagBreak v.quote := .quote rfl v
    rw [hquote]
    show Lexer.code.span isTagBreak (v.quote ++ r) = (v.quote, r)
    cases r with
    | nil => rw [List.append_nil, hpasses.span_end]
    | cons c r => exact hpasses.span_mark (hr c rfl) r

theorem readAttributes_end {w e : Text} (hw : ∀ c ∈ w, isLayout c)
    (he : e = [] ∨ e = ['/']) :
    readAttributes (w ++ e) = ([], e) := by
  have hdrop : (w ++ e).dropWhile isLayout = e := by
    refine Text.dropWhile_append_stop hw ?_
    rcases he with rfl | rfl
    · simp
    · simp [isLayout]
  rw [readAttributes]
  split
  · next hnil =>
    rw [hdrop] at hnil
    rw [hnil]
  · next c t hcons =>
    rw [hdrop] at hcons
    rcases he with rfl | rfl
    · cases hcons
    · cases hcons
      rfl

/-- The first attribute, with layout before it. -/
theorem readAttributes_cons {gap r : Text} {a : Attribute}
    (hgap : ∀ c ∈ gap, isLayout c) (ha : a.name.IsWord isNameChar)
    (hr : AtBreak r) (style : Style) :
    readAttributes (gap ++ (a.markup style ++ r))
      = (a.shown :: (readAttributes r).1, (readAttributes r).2) := by
  have hname : ∀ d ∈ a.name, isLayout d = false ∧ d ≠ '/' ∧ d ≠ '=' := by
    intro d hd
    have hne : ∀ e, isNameChar e = false → d ≠ e :=
      fun e => ne_of_class (ha.isNameChar d hd)
    simp [isLayout, hne ' ' rfl, hne '\n' rfl, hne '/' rfl, hne '=' rfl]
  obtain ⟨d, w, hcons, -⟩ := ha.exists_cons
  have hd := hname d (by simp [hcons])
  have hmarkup : a.markup style ++ r
      = a.name ++ '=' :: (expression ⟨true, true, true, style.pretty⟩ a.value
        ++ r) := by
    simp [Attribute.markup]
  have hdrop : (gap ++ (a.markup style ++ r)).dropWhile isLayout
      = a.markup style ++ r := by
    refine Text.dropWhile_append_stop hgap ?_
    rw [hmarkup, hcons]
    simpa using hd.1
  have hcut : (a.markup style ++ r).takeWhile (· != '=') = a.name
      ∧ (a.markup style ++ r).dropWhile (· != '=')
        = '=' :: (expression ⟨true, true, true, style.pretty⟩ a.value ++ r) :=
    (Text.scan_mark_iff '=' _ _ _).2 ⟨hmarkup,
      fun hmem => (hname '=' hmem).2.2 rfl⟩
  rw [readAttributes]
  split
  · next hnil =>
    rw [hdrop, hmarkup, hcons] at hnil
    cases hnil
  · next c t hct =>
    rw [hdrop] at hct
    rw [← hct, hcut.1, hcut.2]
    have hslash : c ≠ '/' := by
      rw [hmarkup, hcons] at hct
      rw [← (List.cons.inj hct).1]
      exact hd.2.1
    rw [if_neg hslash]
    simp only [List.drop_one, List.tail_cons, readValue_expression _ _ hr,
      eraseLayout_expression]
    rfl

end MarkupTag

/-- How the attributes of a tag are laid out: the same layout before each,
some behind the last, and then the end of the tag or the slash before
it. -/
structure AttributeLayout (gap trail e : Text) : Prop where
  gap_layout : ∀ c ∈ gap, isLayout c
  gap_ne_nil : gap ≠ []
  trail_layout : ∀ c ∈ trail, isLayout c
  isEnd : e = [] ∨ e = ['/']

namespace AttributeLayout

variable {gap trail e : Text} {as : List Attribute}

theorem atBreak (h : AttributeLayout gap trail e) (style : Style)
    (as : List Attribute) :
    AtBreak (as.flatMap (fun a => gap ++ a.markup style) ++ (trail ++ e)) := by
  have hend : AtBreak e := by
    rcases h.isEnd with rfl | rfl
    · simp [AtBreak]
    · simp [AtBreak, isTagBreak]
  cases as with
  | nil =>
      rw [List.flatMap_nil, List.nil_append]
      exact .layout h.trail_layout fun _ => hend
  | cons a as =>
      rw [List.flatMap_cons, List.append_assoc, List.append_assoc]
      exact .layout h.gap_layout fun hnil => absurd hnil h.gap_ne_nil

theorem readAttributes (h : AttributeLayout gap trail e)
    (has : ∀ a ∈ as, a.name.IsWord isNameChar) (style : Style) :
    MarkupTag.readAttributes (as.flatMap (fun a => gap ++ a.markup style)
      ++ (trail ++ e))
      = (as.map Attribute.shown, e) := by
  induction as with
  | nil => exact MarkupTag.readAttributes_end h.trail_layout h.isEnd
  | cons a as ih =>
      obtain ⟨ha, has⟩ := List.forall_mem_cons.1 has
      rw [List.flatMap_cons, List.append_assoc, List.append_assoc,
        MarkupTag.readAttributes_cons h.gap_layout ha (h.atBreak style as)
          style, ih has]
      rfl

/-- The end of a tag stands outside of the strings in it. -/
theorem passes (h : AttributeLayout gap trail e)
    (has : ∀ a ∈ as, a.name.IsWord isNameChar) (style : Style) :
    Passes (· == '>') (as.flatMap (fun a => gap ++ a.markup style)
      ++ (trail ++ e)) := by
  have hmark : IsMark (· == '>') := isMark_beq rfl (by decide)
  have hlayout : ∀ {w : Text}, (∀ c ∈ w, isLayout c) → Passes (· == '>') w :=
    fun hw => .of_class rfl rfl hw
  have hend : Passes (· == '>') e := by
    rcases h.isEnd with rfl | rfl
    · exact .nil
    · exact .plain rfl
  induction as with
  | nil => exact (hlayout h.trail_layout).append hend
  | cons a as ih =>
      obtain ⟨ha, has⟩ := List.forall_mem_cons.1 has
      have hname : Passes (· == '>') a.name := .of_class rfl rfl ha.isNameChar
      have hequals : Passes (· == '>') ['='] := .plain rfl
      have hvalue : Passes (· == '>')
          (expression ⟨true, true, true, style.pretty⟩ a.value) := by
        rcases expression_braced style.pretty a.value with ⟨sum, hbraced, -,
          hsum⟩ | hquote
        · have hopen : Passes (· == '>') ['{'] := .plain rfl
          have hclose : Passes (· == '>') ['}'] := .plain rfl
          rw [hbraced]
          exact hopen.append ((hsum _ hmark rfl rfl).append hclose)
        · rw [hquote]
          exact .quote rfl a.value
      rw [List.flatMap_cons, List.append_assoc]
      exact ((hlayout h.gap_layout).append
        ((hname.append hequals).append hvalue)).append (ih has)

end AttributeLayout

/-- With a separator in front, every item has one. -/
theorem cons_intercalate (separator : Char) {items : List Text}
    (hne : items ≠ []) :
    separator :: [separator].intercalate items
      = items.flatMap (separator :: ·) := by
  induction items with
  | nil => exact absurd rfl hne
  | cons item items ih =>
      cases items with
      | nil => simp
      | cons next items =>
          rw [List.flatMap_cons, ← ih (by simp)]
          simp

/-- The attributes of a tag are laid out in one of these ways. -/
theorem exists_markupList_eq (style : Style) (column : Nat)
    (as : List Attribute) :
    ∃ gap trail, (∀ e, e = [] ∨ e = ['/'] → AttributeLayout gap trail e)
      ∧ Attribute.markupList style column as
        = as.flatMap (fun a => gap ++ a.markup style) ++ trail := by
  have hline : ∀ e, e = [] ∨ e = ['/'] → AttributeLayout [' '] [] e :=
    fun e he =>
      ⟨by simp [isLayout], by simp, by simp, he⟩
  have hlines : ∀ e, e = [] ∨ e = ['/'] →
      AttributeLayout (Style.newline (column + style.step))
        (Style.newline column) e :=
    fun e he => ⟨isLayout_newline, by simp [Style.newline],
      isLayout_newline, he⟩
  unfold Attribute.markupList
  cases as with
  | nil => exact ⟨_, _, hline, by simp⟩
  | cons a as =>
      have hinline : ¬ (" ".toList.intercalate
          ((a :: as).map (Attribute.markup style))).isEmpty := by
        cases as <;> simp [Attribute.markup]
      simp only [if_neg hinline]
      split
      · exact ⟨_, _, hlines, by rw [List.flatMap_map]⟩
      · refine ⟨_, _, hline, ?_⟩
        have hne : (a :: as).map (Attribute.markup style) ≠ [] := by simp
        have hcons := cons_intercalate ' ' hne
        rw [List.flatMap_map] at hcons
        simpa using hcons

-- ============================================================ tags

/-- What stands between the `<` and the end of a tag. -/
def tagBody (style : Style) (column : Nat) (name : Text)
    (as : List Attribute) : Text :=
  name ++ Attribute.markupList style column as

theorem AtBreak.scan {name r : Text} (hname : ∀ c ∈ name, isTagChar c)
    (hr : AtBreak r) :
    (name ++ r).takeWhile (!isTagBreak ·) = name ∧ (name ++ r).dropWhile
    (!isTagBreak ·) = r := by
  refine (Text.scan_eq_iff _ _ _ _).2 ⟨rfl, ?_, ?_⟩
  · intro c hc
    have hne : ∀ d, isTagChar d = false → c ≠ d :=
      fun d => ne_of_class (hname c hc)
    simp [isTagBreak, isLayout, hne ' ' rfl, hne '\n' rfl, hne '/' rfl]
  · intro c hc
    simp [hr c hc]

/-- A tag reads as its name and its attributes, and goes on to its end. -/
theorem read_tagBody {name e : Text} {as : List Attribute}
    (hname : ∀ c ∈ name, isTagChar c) (has : ∀ a ∈ as, a.name.IsWord isNameChar)
    (he : e = [] ∨ (e = ['/'] ∧ name ≠ [])) (style : Style) (column : Nat) :
    MarkupTag.read (tagBody style column name as ++ e)
        = (if e.isEmpty then .opening name (as.map Attribute.shown)
            else .selfClosing name (as.map Attribute.shown))
      ∧ Passes (· == '>') (tagBody style column name as ++ e) := by
  obtain ⟨gap, trail, hlayout, hlist⟩ := exists_markupList_eq style column as
  have hlayout := hlayout e (he.imp_right And.left)
  have hbody : tagBody style column name as ++ e
      = name ++ (as.flatMap (fun a => gap ++ a.markup style)
        ++ (trail ++ e)) := by
    simp [tagBody, hlist]
  have hscan := AtBreak.scan hname (hlayout.atBreak style as)
  have hread := hlayout.readAttributes has style
  rw [hbody]
  refine ⟨?_, .append (.of_class rfl rfl hname) (hlayout.passes has style)⟩
  -- neither a name nor layout starts with the slash of a closing tag
  have hslash : ∀ t, name
      ++ (as.flatMap (fun a => gap ++ a.markup style) ++ (trail ++ e))
      ≠ '/' :: t := by
    intro t heq
    cases name with
    | cons c name =>
        have hc := hname c (List.mem_cons_self ..)
        rw [(List.cons.inj heq).1] at hc
        cases hc
    | nil =>
        obtain rfl : e = [] := by simpa using he
        cases as with
        | nil =>
            have hc := hlayout.trail_layout '/' (by simp_all)
            cases hc
        | cons a as =>
            obtain ⟨c, gap, rfl⟩ :=
              List.exists_cons_of_ne_nil hlayout.gap_ne_nil
            have hc := hlayout.gap_layout c (List.mem_cons_self ..)
            rw [(List.cons.inj heq).1] at hc
            cases hc
  rw [MarkupTag.read]
  · simp only [hscan.1, hscan.2, hread]
  · exact hslash

-- ======================================================== the cut

theorem cut_text {t : Text} (ht : '<' ∉ t) (r : Text) :
    cut (t ++ r) = t.map .char ++ cut r := by
  induction t with
  | nil => rfl
  | cons c t ih =>
      have hc : c ≠ '<' := fun hc => ht (hc ▸ List.mem_cons_self ..)
      rw [List.cons_append, cut, if_neg hc,
        ih fun hmem => ht (List.mem_cons_of_mem _ hmem)]
      rfl

theorem cut_tag {body : Text} (h : Passes (· == '>') body) (r : Text) :
    cut ('<' :: (body ++ '>' :: r)) = .tag (.read body) :: cut r := by
  have hspan := h.span_mark (c := '>') rfl r
  rw [cut, if_pos rfl]
  split
  · next heq =>
    rw [hspan] at heq
    cases heq
    rfl
  · next heq =>
    rw [hspan] at heq
    cases heq

theorem tagsOf_append (ps qs : List Piece) :
    tagsOf (ps ++ qs) = tagsOf ps ++ tagsOf qs :=
  List.filterMap_append

theorem tagsOf_chars (t : Text) : tagsOf (t.map .char) = [] := by
  rw [tagsOf, List.filterMap_map]
  exact List.filterMap_eq_nil_iff.2 fun _ _ => rfl

theorem lt_notMem_lead (style : Style) (column : Nat) :
    '<' ∉ style.lead column := by
  intro hmem
  cases isLayout_lead style column _ hmem

/-- In front of any text, `s` is cut into pieces with the tags of `ps`, and
on one line into `ps`. -/
def Cuts (style : Style) (s : Text) (ps : List Piece) : Prop :=
  ∃ qs, (∀ r, cut (s ++ r) = qs ++ cut r) ∧ tagsOf qs = tagsOf ps
    ∧ (style.pretty = false → qs = ps)

namespace Cuts

variable {style : Style}

theorem nil : Cuts style [] [] := ⟨[], fun _ => rfl, rfl, fun _ => rfl⟩

theorem append {s s' : Text} {ps ps' : List Piece} (h : Cuts style s ps)
    (h' : Cuts style s' ps') : Cuts style (s ++ s') (ps ++ ps') := by
  obtain ⟨qs, hcut, htags, hline⟩ := h
  obtain ⟨qs', hcut', htags', hline'⟩ := h'
  refine ⟨qs ++ qs', ?_, ?_, ?_⟩
  · intro r
    rw [List.append_assoc, hcut, hcut', List.append_assoc]
  · rw [tagsOf_append, tagsOf_append, htags, htags']
  · intro hpretty
    rw [hline hpretty, hline' hpretty]

/-- The start of a line is between tags, and on one line there is none. -/
theorem lead (style : Style) (column : Nat) :
    Cuts style (style.lead column) [] := by
  refine ⟨_, cut_text (lt_notMem_lead style column), tagsOf_chars _, ?_⟩
  intro hpretty
  simp [Style.lead, hpretty]

/-- A text, which on one line has its line breaks escaped. -/
theorem text {v : Text} (hv : '<' ∉ v) (shown : Name → Text) :
    Cuts style (markupText style v) ((Node.text v).pieces shown) := by
  have hplain : '<' ∉ markupText style v := by
    unfold markupText
    split
    · exact hv
    · intro hmem
      obtain ⟨c, hc, hmem⟩ := List.mem_flatMap.1 hmem
      split at hmem
      · simp at hmem
      · exact hv (List.mem_singleton.1 hmem ▸ hc)
  refine ⟨_, cut_text hplain, ?_, ?_⟩
  · rw [Node.pieces, tagsOf_chars, tagsOf_chars]
  · intro hpretty
    simp [Node.pieces, markupText, hpretty]

theorem tag {body : Text} {t : MarkupTag} (hread : MarkupTag.read body = t)
    (h : Passes (· == '>') body) :
    Cuts style ('<' :: (body ++ ['>'])) [.tag t] := by
  refine ⟨[.tag t], ?_, rfl, fun _ => rfl⟩
  intro r
  rw [List.cons_append, List.append_assoc, List.singleton_append,
    cut_tag h, hread]
  rfl

end Cuts

-- ========================================================== the nodes

theorem Cuts.markupList {style : Style} {b : Bindings} {shown : Name → Text}
    {ns : List Node}
    (h : ∀ n ∈ ns, ∀ column,
      Cuts style (n.markup style b column) (n.pieces shown))
    (column : Nat) :
    Cuts style (Node.markupList style b column ns)
      (Node.piecesList shown ns) := by
  induction ns with
  | nil =>
      rw [Node.markupList, Node.piecesList]
      exact .nil
  | cons n ns ih =>
      obtain ⟨hn, hns⟩ := List.forall_mem_cons.1 h
      rw [Node.markupList, Node.piecesList]
      exact (hn column).append (ih hns)

/-- The markup of a node is cut into its pieces. -/
theorem Node.Printable.cuts {n : Node} (h : n.Printable) (style : Style)
    (b : Bindings) :
    ∀ column, Cuts style (n.markup style b column)
      (n.pieces (Name.shown b.exprs)) := by
  induction h with
  | text hplain =>
      intro column
      rw [Node.markup]
      exact (Cuts.lead style column).append (.text hplain (Name.shown b.exprs))
  | @element n as children hname has _ ih =>
      intro column
      have hchars := hname.isTagChar_shown b.exprs
      obtain ⟨hread, hpasses⟩ :=
        read_tagBody hchars has (Or.inl rfl) style column
      have hopening : Cuts style (tagHead style b column n as ++ ['>'])
          [.tag (.opening (n.shown b.exprs) (as.map Attribute.shown))] := by
        have hcuts := (Cuts.lead style column).append (.tag hread hpasses)
        simpa [tagHead, openTag, tagBody, hname.tag_eq b] using hcuts
      have hclosing : Cuts style (tagEnd style b column n children.isEmpty)
          [.tag (.closing (n.shown b.exprs))] := by
        have hslash : Passes (· == '>') ['/'] := .plain rfl
        have htag : Cuts style ('<' :: ('/' :: n.shown b.exprs ++ ['>']))
            [.tag (.closing (n.shown b.exprs))] :=
          .tag rfl (hslash.append (.of_class rfl rfl hchars))
        unfold tagEnd closeTag
        split
        · simpa [hname.tag_eq b] using htag
        · have hcuts := (Cuts.lead style column).append htag
          simpa [hname.tag_eq b] using hcuts
      rw [Node.markup, Node.pieces]
      exact (hopening.append (.markupList ih (column + style.step))).append
        hclosing
  | @selfClosing n as hname hnamed has =>
      intro column
      have hchars := hname.isTagChar_shown b.exprs
      obtain ⟨hread, hpasses⟩ := read_tagBody hchars has
        (Or.inr ⟨rfl, hname.shown_ne_nil hnamed b.exprs⟩) style column
      have hcuts := (Cuts.lead style column).append (.tag hread hpasses)
      rw [Node.markup, Node.pieces]
      simpa [tagHead, openTag, tagBody, hname.tag_eq b] using hcuts

mutual

/-- The tags of a node pair up, whatever is open around it and follows. -/
theorem Node.closesInnermost_pieces (shown : Name → Text) (n : Node)
    (opened : List Text) (ts : List MarkupTag) :
    closesInnermost opened (tagsOf (n.pieces shown) ++ ts)
      = closesInnermost opened ts := by
  cases n with
  | text v => rw [Node.pieces, tagsOf_chars, List.nil_append]
  | comment b => rw [Node.pieces]; rfl
  | selfClosing name as => rw [Node.pieces]; rfl
  | element name as children =>
      have hchildren :=
        Node.closesInnermost_piecesList shown children (shown name :: opened)
          (.closing (shown name) :: ts)
      have htags : tagsOf ((Node.element name as children).pieces shown) ++ ts
          = .opening (shown name) (as.map Attribute.shown) ::
            (tagsOf (Node.piecesList shown children)
              ++ .closing (shown name) :: ts) := by
        simp [Node.pieces, tagsOf, Piece.tag?]
      rw [htags, closesInnermost, hchildren]
      simp [closesInnermost]

theorem Node.closesInnermost_piecesList (shown : Name → Text) (ns : List Node)
    (opened : List Text) (ts : List MarkupTag) :
    closesInnermost opened (tagsOf (Node.piecesList shown ns) ++ ts)
      = closesInnermost opened ts := by
  cases ns with
  | nil => rw [Node.piecesList]; rfl
  | cons n ns =>
      rw [Node.piecesList, tagsOf_append, List.append_assoc,
        Node.closesInnermost_pieces shown n,
        Node.closesInnermost_piecesList shown ns]

end

-- =========================================================== the code

/-- The code of a tag is its markup without the start of its line, over
several lines in parentheses. -/
theorem exists_markupBody_result {n : Node} (h : n.isTag) (style : Style)
    (column : Nat) :
    ∃ core, n.markup style n.bindings column = style.lead column ++ core
      ∧ (markupBody style column n).result
        = if style.pretty then '(' :: (core ++ [')']) else core := by
  have hcore : ∃ core, n.markup style n.bindings column
      = style.lead column ++ core
      ∧ core.head? = some '<' ∧ core.getLast? = some '>' := by
    cases n with
    | text v => cases h
    | comment b => cases h
    | element name as children =>
        exact ⟨_,
          by simp only [Node.markup, tagHead, openTag, List.append_assoc]; rfl,
          rfl, by simp [tagEnd, closeTag, List.getLast?_cons]⟩
    | selfClosing name as =>
        exact ⟨_,
          by simp only [Node.markup, tagHead, openTag, List.append_assoc]; rfl,
          rfl, by simp [List.getLast?_cons]⟩
  obtain ⟨core, hmarkup, hfirst, hlast⟩ := hcore
  have hblank : ∀ c ∈ style.lead column, Text.isBlank c := by
    intro c hc
    have hlayout : c = ' ' ∨ c = '\n' := by
      simpa [isLayout] using isLayout_lead style column c hc
    rcases hlayout with rfl | rfl
    · decide
    · decide
  have htrim : Text.trim (style.lead column ++ core) = core := by
    rw [Text.trim, Text.trimStart, List.dropWhile_append_of_pos hblank]
    exact Text.trim_eq_self hfirst hlast (by decide) (by decide)
  have hne : core ≠ [] := by
    intro hnil
    rw [hnil] at hfirst
    cases hfirst
  refine ⟨core, hmarkup, ?_⟩
  rw [markupBody_eq, Node.asRoot_of_isTag h, hmarkup, htrim]
  simp [hne]

/-- The code of a tag is cut as its markup is. -/
theorem Cuts.markupBody {n : Node} (h : n.isTag) {style : Style} {column : Nat}
    {ps : List Piece}
    (hcuts : Cuts style (n.markup style n.bindings column) ps) :
    tagsOf (cut (markupBody style column n).result) = tagsOf ps
      ∧ (style.pretty = false
        → cut (Stencil.markupBody style column n).result = ps) := by
  obtain ⟨qs, hcut, htags, hline⟩ := hcuts
  obtain ⟨core, hmarkup, hresult⟩ := exists_markupBody_result h style column
  have hnil : cut [] = [] := by rw [cut]
  rw [hmarkup] at hcut
  by_cases hpretty : style.pretty
  · have hopen : '<' ∉ ['('] := by simp
    have hclose : '<' ∉ [')'] := by simp
    have hlead := lt_notMem_lead style column
    have hcore : tagsOf (cut (core ++ [')'])) = tagsOf ps := by
      have hwhole := hcut [')']
      rw [List.append_assoc, cut_text hlead, ← List.append_nil [')'],
        cut_text hclose, hnil]
        at hwhole
      have htagsWhole := congrArg tagsOf hwhole
      rw [tagsOf_append, tagsOf_append, tagsOf_append, tagsOf_chars,
        tagsOf_chars, htags]
        at htagsWhole
      simpa [tagsOf] using htagsWhole
    rw [hresult, if_pos hpretty]
    refine ⟨?_, by simp [hpretty]⟩
    rw [← List.singleton_append, cut_text hopen, tagsOf_append,
      tagsOf_chars, hcore]
    rfl
  · have hcode : cut core = qs := by
      have hcore := hcut []
      rwa [Style.lead, if_neg hpretty, List.nil_append, List.append_nil, hnil,
        List.append_nil] at hcore
    rw [hresult, if_neg hpretty, hcode]
    exact ⟨htags, hline⟩

/-- Cut at its tags, the markup of a template gives the tags of its tree in
their order; every closing tag among them closes the innermost open one;
and on one line the characters between the tags are those of the texts. -/
theorem cut_markupBody {s : Text} {ns : List Node} (h : parse s = .ok ns)
    (keep : Bool) (style : Style) (column : Nat) :
    let root := normalRoot keep ns
    let pieces := root.pieces (Name.shown root.hoisted)
    let found := cut (markupBody style column root).result
    tagsOf found = tagsOf pieces ∧ closesInnermost [] (tagsOf found)
      ∧ (style.pretty = false → found = pieces) := by
  intro root pieces found
  have hprintable : root.Printable := printable_normalRoot h keep
  have hcuts := hprintable.cuts style root.bindings column
  rw [hprintable.exprs_bindings] at hcuts
  obtain ⟨htags, hline⟩ := hcuts.markupBody (isTag_normalRoot keep ns)
  refine ⟨htags, ?_, hline⟩
  have hcloses := root.closesInnermost_pieces (Name.shown root.hoisted) [] []
  rw [List.append_nil] at hcloses
  rw [htags, hcloses]
  rfl

/-- The tree of a menu with tags that come from properties. -/
def menu : List Node :=
  [.element (.placeholder "a".toList) [⟨"t".toList, "1>\x7bb\x7d".toList⟩]
    [.text "x\ny".toList, .selfClosing (.placeholder "c_d".toList) [],
      .element (.literal "p".toList) []
        [.selfClosing (.placeholder "a".toList) []]]]

theorem parse_menu :
    parse "<\x7ba\x7d t=\"1>\x7bb\x7d\">x\ny<\x7bc_d\x7d/><p><\x7ba\x7d/></p></\x7ba\x7d>".toList
      = .ok menu := by
  have hmenu : WellFormed menu := by decide
  exact hmenu.parse_eq fun _ => false

/-- The menu over several lines, and its tags. -/
theorem cut_markupBody_menu :
    ∃ ns, parse
          "<\x7ba\x7d t=\"1>\x7bb\x7d\">x\ny<\x7bc_d\x7d/><p><\x7ba\x7d/></p></\x7ba\x7d>".toList
        = .ok ns
      ∧ (markupBody ⟨true, 2⟩ 0 (normalRoot false ns)).result
        = ("(<C$c0 t=\x7b\"1>\" + props.b\x7d>\n  x\ny\n  <C$c1/>\n".toList
          ++ "  <p>\n    <C$c0/>\n  </p>\n</C$c0>)".toList)
      ∧ tagsOf (cut (markupBody ⟨true, 2⟩ 0 (normalRoot false ns)).result)
        = [.opening "C$c0".toList
          [("t".toList, "\x7b\"1>\"+props.b\x7d".toList)],
            .selfClosing "C$c1".toList [], .opening "p".toList [],
          .selfClosing "C$c0".toList [], .closing "p".toList,
          .closing "C$c0".toList] := by
  refine ⟨menu, parse_menu, by decide +kernel, ?_⟩
  rw [(cut_markupBody parse_menu false ⟨true, 2⟩ 0).1]
  decide +kernel

end Stencil
