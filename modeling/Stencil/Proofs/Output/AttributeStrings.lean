/-
Attribute values without markers, as markup writes and reads them. The
value stands between double quotes in the tag, written like any string of
generated code, with escapes. But a string in a tag is no string of code:
it goes from its quote to the next, and a backslash in it is a character
like others. So the value is read back exactly if none of its characters
needs an escape (`markup_attributeString_iff`).

A value with a marker is not affected: it is an expression in braces,
where the strings are those of code.
-/
import Stencil.Proofs.NormalForm
import Stencil.Proofs.Output.MarkupTags

namespace Stencil

-- ========================================================= the reader

/-- Reads a string in a tag: from a double quote to the next. Gives what
stands between them and what is left. -/
def readAttributeString? : Text → Option (Text × Text)
  | '"' :: t =>
    match t.dropWhile (· != '"') with
    | [] => none
    | _ :: r => some (t.takeWhile (· != '"'), r)
  | _ => none

theorem readAttributeString?_eq_some_iff {t v r : Text} :
    readAttributeString? ('"' :: t) = some (v, r)
      ↔ t = v ++ '"' :: r ∧ '"' ∉ v := by
  rw [← Text.scan_mark_iff]
  simp only [readAttributeString?]
  rcases Text.dropWhile_mark_cases '"' t with hnil | ⟨rest, hcons⟩
  · simp [hnil]
  · simp [hcons]

-- ============================================================= escapes

namespace Text

/-- The character is written as it is between quotes. -/
def IsBare (c : Char) : Prop := c ≠ '"' ∧ c ≠ '\\' ∧ 0x20 ≤ c.toNat

theorem IsBare.escape_eq {c : Char} (h : IsBare c) : escape c = [c] := by
  obtain ⟨hquote, hback, hshown⟩ := h
  have hne : ∀ d : Char, d.toNat < 0x20 → c ≠ d := by
    intro d hd hcd
    rw [hcd] at hshown
    omega
  rw [escape, if_neg hquote, if_neg hback, if_neg (hne '\n' (by decide)),
    if_neg (hne '\r' (by decide)), if_neg (hne '\t' (by decide)),
    if_neg (hne '\x08' (by decide)), if_neg (hne '\x0c' (by decide)),
    if_neg (by omega), if_neg (by omega)]

/-- A character is written as it is, or longer. -/
theorem isBare_or_length_escape (c : Char) :
    IsBare c ∨ 2 ≤ (escape c).length := by
  have hescaped := escaped_escape c
  generalize escape c = e at hescaped
  cases hescaped with
  | plain hquote hback hshown => exact Or.inl ⟨hquote, hback, hshown⟩
  | short _ _ => exact Or.inr (Nat.le_refl 2)
  | code _ _ _ _ _ => exact Or.inr (by simp)

theorem length_le_flatMap_escape (t : Text) :
    t.length ≤ (t.flatMap escape).length := by
  induction t with
  | nil => exact Nat.le_refl 0
  | cons c t ih =>
      have hc : 1 ≤ (escape c).length := by
        rcases isBare_or_length_escape c with hbare | hlong
        · simp [hbare.escape_eq]
        · omega
      rw [List.flatMap_cons, List.length_append, List.length_cons]
      omega

/-- Escaping leaves exactly the texts alone in which nothing needs it. -/
theorem flatMap_escape_eq_self_iff {t : Text} :
    t.flatMap escape = t ↔ ∀ c ∈ t, IsBare c := by
  induction t with
  | nil => simp
  | cons c t ih =>
      rw [List.flatMap_cons, List.forall_mem_cons, ← ih]
      rcases isBare_or_length_escape c with hbare | hlong
      · simp [hbare, hbare.escape_eq]
      · have hgrows := length_le_flatMap_escape t
        constructor
        · intro heq
          have hlength := congrArg List.length heq
          rw [List.length_append, List.length_cons] at hlength
          omega
        · intro h
          have hshort := congrArg List.length h.1.escape_eq
          rw [List.length_singleton] at hshort
          omega

end Text

/-- A quoted text reads as the text, up to its last quote, exactly if
nothing in it is escaped. -/
theorem readAttributeString?_quote_iff (v r : Text) :
    readAttributeString? (v.quote ++ r) = some (v, r)
      ↔ ∀ c ∈ v, Text.IsBare c := by
  have hquote : v.quote ++ r = '"' :: (v.flatMap Text.escape ++ '"' :: r) := by
    simp [Text.quote]
  rw [hquote, readAttributeString?_eq_some_iff, List.append_cancel_right_eq,
    Text.flatMap_escape_eq_self_iff]
  refine and_iff_left_of_imp fun h hmem => ?_
  exact (h _ hmem).1 rfl

-- ================================================== tags in the code

/-- A tag of the template is prepared in its place. -/
theorem Node.Contains.normal {keep : Bool} {r n n' : Node} (h : r.Contains n)
    (hn : n.normal? keep = some n') :
    ∃ r', r.normal? keep = some r' ∧ r'.Contains n' := by
  induction h with
  | root => exact ⟨n', hn, .root⟩
  | @child name as children c d hmem _ ih =>
      obtain ⟨c', hc, hbelow⟩ := ih hn
      refine ⟨_, by rw [Node.normal?], .child ?_ hbelow⟩
      exact Node.mem_normalList.2 ⟨c, hmem, hc⟩

/-- What is in the prepared nodes of a document is in its root. -/
theorem normalRoot_contains {keep : Bool} {ns : List Node} {m n : Node}
    (hm : m ∈ Node.normalList keep ns) (hn : m.Contains n) :
    (normalRoot keep ns).Contains n := by
  rcases normalRoot_cases keep ns with ⟨-, honly⟩ | ⟨-, hwrap⟩
  · rw [honly] at hm
    rwa [← List.mem_singleton.1 hm]
  · rw [hwrap]
    exact .child hm hn

/-- A tag is prepared by its name and its attributes. -/
theorem Node.exists_normal?_eq {n : Node} {name : Name}
    (h : n.name? = some name) (keep : Bool) :
    ∃ n', n.normal? keep = some n' ∧ n'.name? = some name.normal
      ∧ n'.attributes = n.attributes.map Attribute.normal := by
  cases n with
  | text v => cases h
  | comment b => cases h
  | element name as children =>
      cases h
      exact ⟨_, by rw [Node.normal?], rfl, rfl⟩
  | selfClosing name as =>
      cases h
      exact ⟨_, by rw [Node.normal?], rfl, rfl⟩

/-- The markup of a tag starts with its name and its attributes. -/
theorem Node.exists_markup_eq {n : Node} {name : Name} (h : n.name? = some name)
    (style : Style) (b : Bindings) (column : Nat) :
    ∃ after, n.markup style b column = style.lead column
      ++ '<' :: (name.tag b
        ++ (Attribute.markupList style column n.attributes ++ after)) := by
  cases n with
  | text v => cases h
  | comment b => cases h
  | element name as children =>
      cases h
      simp only [Node.markup, tagHead, openTag, Node.attributes,
        List.append_assoc]
      exact ⟨_, rfl⟩
  | selfClosing name as =>
      cases h
      simp only [Node.markup, tagHead, openTag, Node.attributes,
        List.append_assoc]
      exact ⟨_, rfl⟩

theorem Node.Printable.of_contains {r n : Node} (h : r.Printable)
    (hn : r.Contains n) :
    n.Printable := by
  induction hn with
  | root => exact h
  | child hmem _ ih =>
      cases h with
      | element _ _ hcontent => exact ih (hcontent _ hmem)

theorem Node.Printable.name {n : Node} (h : n.Printable) {name : Name}
    (hname : n.name? = some name) : name.Printable := by
  cases h with
  | text _ => cases hname
  | element hprintable _ _ =>
      cases hname
      exact hprintable
  | selfClosing hprintable _ _ =>
      cases hname
      exact hprintable

/-- The markup of a template has every tag of the template, with what
stands for its name and with its attributes. -/
theorem exists_markupBody_tag {s : Text} {ns : List Node} (h : parse s = .ok ns)
    (keep : Bool) (style : Style) (column : Nat) {m n : Node} (hm : m ∈ ns)
    (hn : m.Contains n) {name : Name} (hname : n.name? = some name) :
    let root := normalRoot keep ns
    ∃ inner before after, (markupBody style column root).result
      = before ++ '<' :: (name.normal.shown root.hoisted
        ++ (Attribute.markupList style inner (n.attributes.map Attribute.normal)
          ++ after)) := by
  intro root
  obtain ⟨n', hnormal, hname', hattributes⟩ := Node.exists_normal?_eq hname keep
  obtain ⟨m', hm', hbelow⟩ := hn.normal hnormal
  have hcontains : root.Contains n' :=
    normalRoot_contains (Node.mem_normalList.2 ⟨m, hm, hm'⟩) hbelow
  have hprintable : root.Printable := printable_normalRoot h keep
  have htag : name.normal.tag root.bindings
      = name.normal.shown root.hoisted := by
    rw [((hprintable.of_contains hcontains).name hname').tag_eq,
      hprintable.exprs_bindings]
  obtain ⟨inner, front, back, hinfix⟩ :=
    hcontains.markup_infix style root.bindings column
  obtain ⟨after, hmarkup⟩ :=
    Node.exists_markup_eq hname' style root.bindings inner
  obtain ⟨core, hcore, hresult⟩ :=
    exists_markupBody_result (isTag_normalRoot keep ns) style column
  -- the start of the line is not part of the code, and no tag starts in it
  have hwhole : style.lead column ++ core
      = (front ++ style.lead inner) ++ '<' :: (name.normal.shown root.hoisted
        ++ (Attribute.markupList style inner (n.attributes.map Attribute.normal)
          ++ (after ++ back))) := by
    rw [← hcore, ← hinfix, hmarkup, htag, hattributes]
    simp
  obtain ⟨before, -, rfl⟩ :=
    Text.exists_of_append_eq (lt_notMem_lead style column) hwhole
  rw [hresult]
  split
  · exact ⟨inner, '(' :: before, after ++ back ++ [')'], by simp⟩
  · exact ⟨inner, before, after ++ back, rfl⟩

-- ==================================================== the attributes

/-- A text without markers is quoted. -/
theorem expression_of_markers_eq_nil {mode : ExpressionMode}
    (hquoted : mode.quoted = true) {v : Text} (h : markers v = []) :
    expression mode v = v.quote := by
  have hany : ¬ (Segment.split v).any Segment.isMarker := by
    rw [List.any_eq_true]
    intro hmarked
    obtain ⟨g, hg, hmarker⟩ := hmarked
    cases g with
    | literal t => cases hmarker
    | marker m =>
        have hmem : m ∈ markers v := List.mem_filterMap.2 ⟨_, hg, rfl⟩
        rw [h] at hmem
        cases hmem
  simp only [expression, if_neg hany, if_pos hquoted]

/-- In the markup of a template, an attribute without markers stands behind
those before it as its name, an equals sign and its value quoted. What
markup reads there is the value, and ends where the quoted value does,
exactly if the value holds no double quote, no backslash and no character
below the space. -/
theorem markup_attributeString_iff {s : Text} {ns : List Node}
    (h : parse s = .ok ns) (keep : Bool) (style : Style) (column : Nat)
    {m n : Node} (hm : m ∈ ns) (hn : m.Contains n) {name : Name}
    (hname : n.name? = some name) {earlier later : List Attribute}
    {a : Attribute} (hattributes : n.attributes = earlier ++ a :: later)
    (hmarkers : markers a.value = []) :
    let root := normalRoot keep ns
    ∃ before gap after, (∀ c ∈ gap, isLayout c) ∧ gap ≠ []
      ∧ (markupBody style column root).result
        = before ++ '<' :: (name.normal.shown root.hoisted
          ++ (earlier.flatMap (fun e => gap ++ e.normal.markup style)
          ++ (gap ++ (attributeName a.name
            ++ '=' :: (a.value.quote ++ after)))))
      ∧ (readAttributeString? (a.value.quote ++ after) = some (a.value, after)
        ↔ ∀ c ∈ a.value, c ≠ '"' ∧ c ≠ '\\' ∧ 0x20 ≤ c.toNat) := by
  intro root
  obtain ⟨inner, before, after, hcode⟩ :=
    exists_markupBody_tag h keep style column hm hn hname
  obtain ⟨gap, trail, hlayout, hlist⟩ :=
    exists_markupList_eq style inner (n.attributes.map Attribute.normal)
  have hlayout := hlayout [] (Or.inl rfl)
  have hvalue : a.normal.markup style
      = attributeName a.name ++ '=' :: a.value.quote := by
    have hexpression : expression ⟨true, true, true, style.pretty⟩ a.value
        = a.value.quote :=
      expression_of_markers_eq_nil rfl hmarkers
    simp [Attribute.markup, Attribute.normal, hexpression]
  refine ⟨before, gap, later.flatMap (fun e => gap ++ e.normal.markup style)
    ++ (trail ++ after),
    hlayout.gap_layout, hlayout.gap_ne_nil, ?_,
    readAttributeString?_quote_iff ..⟩
  rw [hcode, hlist, hattributes]
  simp [List.flatMap_map, hvalue, root]

/-- The tree of a tag with a title. -/
def titled (title : Text) : List Node :=
  [.selfClosing (.literal "p".toList) [⟨"title".toList, title⟩]]

/-- A title with an apostrophe is read back. -/
theorem markup_attributeString_apostrophe :
    ∃ ns before gap after, parse "<p title=\"it's\"/>".toList = .ok ns
      ∧ (markupBody ⟨false, 2⟩ 0 (normalRoot false ns)).result
        = before ++ '<' :: ("p".toList
          ++ (gap ++ ("title".toList
            ++ '=' :: (Text.quote "it's".toList ++ after))))
      ∧ readAttributeString? (Text.quote "it's".toList ++ after)
        = some ("it's".toList, after) := by
  have htitled : WellFormed (titled "it's".toList) := by decide
  have hparse : parse "<p title=\"it's\"/>".toList
      = .ok (titled "it's".toList) :=
    htitled.parse_eq fun _ => false
  have hattributes : (Node.selfClosing (.literal "p".toList)
      [⟨"title".toList, "it's".toList⟩]).attributes
      = [] ++ ⟨"title".toList, "it's".toList⟩ :: [] := rfl
  have hbare : ∀ c ∈ "it's".toList, c ≠ '"' ∧ c ≠ '\\'
      ∧ 0x20 ≤ c.toNat := by simp
  obtain ⟨before, gap, after, -, -, hcode, hread⟩ :=
    markup_attributeString_iff hparse false ⟨false, 2⟩ 0
      (List.mem_singleton_self _) .root rfl hattributes (by decide +kernel)
  exact ⟨_, before, gap, after, hparse, hcode, hread.2 hbare⟩

/-- A backslash in a title is doubled, and a double quote in it ends it:
what is read is not the title. -/
theorem markup_attributeString_escaped :
    parse "<p title=\"C:\\d\"/>".toList = .ok (titled "C:\\d".toList)
      ∧ (markupBody ⟨false, 2⟩ 0
        (normalRoot false (titled "C:\\d".toList))).result
        = "<p title=".toList ++ "\"C:\\\\d\"/>".toList
      ∧ readAttributeString? "\"C:\\\\d\"/>".toList
        = some ("C:\\\\d".toList, "/>".toList)
      ∧ "C:\\\\d".toList ≠ "C:\\d".toList
      ∧ parse "<p title='x\"y'/>".toList = .ok (titled "x\"y".toList)
      ∧ (markupBody ⟨false, 2⟩ 0
        (normalRoot false (titled "x\"y".toList))).result
        = "<p title=".toList ++ "\"x\\\"y\"/>".toList
      ∧ readAttributeString? "\"x\\\"y\"/>".toList
        = some ("x\\".toList, "y\"/>".toList) := by
  have hback : WellFormed (titled "C:\\d".toList) := by decide
  have hquote : WellFormed (titled "x\"y".toList) := by decide
  exact ⟨hback.parse_eq fun _ => false, by decide +kernel, by decide, by decide,
    hquote.parse_eq fun _ => false, by decide +kernel, by decide⟩

end Stencil
