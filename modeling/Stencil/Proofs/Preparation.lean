/-
What output may count on. The trees that reach a printer come from a
template that was read and then prepared, and of all that is true of such
a tree the printers need three things: it has no comments, the markers of
its texts hold references to properties, and a tag that does not have a
literal name has a reference or is the wrapper. `Node.Prepared` says this
of a node and of everything below it.

It is proved along the derivation of the template (`Document.prepared`):
the grammar is where it comes from that no name in a template is a
reference already.

Markup is not quoted as a whole, and needs more: no text holds the start
of a tag, and the names of tags and attributes keep to their characters.
`Node.Printable` says this, and comes from the trees that were read being
well-formed.
-/
import Stencil.Normal
import Stencil.Output.Markup
import Stencil.Proofs.Interpolation.Markers
import Stencil.Proofs.Template.WellFormed

namespace Stencil

-- ============================================================= nodes

/-- The names in a prepared tree. -/
def Name.Prepared : Name → Prop
  | .literal _ => True
  | .placeholder _ => False
  | .property t => ∃ m, t = referenceMarker m
  | .fragment t => t = []

/-- The nodes of a prepared tree. -/
inductive Node.Prepared : Node → Prop
  | text {v : Text} (resolved : ∀ m ∈ markers v, ∃ name, m = reference name) :
      Node.Prepared (.text v)
  | element {n : Name} {as : List Attribute} {children : List Node}
      (name : n.Prepared) (content : ∀ c ∈ children, c.Prepared) :
      Node.Prepared (.element n as children)
  | selfClosing {n : Name} {as : List Attribute} (name : n.Prepared) :
      Node.Prepared (.selfClosing n as)

/-- The nodes in a tree, its root among them. -/
inductive Node.Contains : Node → Node → Prop
  | root {n : Node} : Node.Contains n n
  | child {n : Name} {as : List Attribute} {children : List Node} {c d : Node}
      (mem : c ∈ children) (below : c.Contains d) :
      Node.Contains (.element n as children) d

theorem Node.Contains.of_eq {r n : Node} (h : r = n) : r.Contains n :=
  h ▸ .root

/-- All of a prepared tree is prepared. -/
theorem Node.Prepared.of_contains {r n : Node} (h : r.Prepared)
    (hn : r.Contains n) :
    n.Prepared := by
  induction hn with
  | root => exact h
  | child hmem _ ih =>
      cases h with
      | element _ hcontent => exact ih (hcontent _ hmem)

-- ======================================================= preparation

theorem Node.normalList_cons (keep : Bool) (n : Node) (ns : List Node) :
    Node.normalList keep (n :: ns)
      = (n.normal? keep).toList ++ Node.normalList keep ns := by
  rw [Node.normalList]
  cases n.normal? keep with
  | none => rfl
  | some n => rfl

theorem Name.Writable.prepared {n : Name} (h : n.Writable) :
    n.normal.Prepared := by
  cases n with
  | literal t => trivial
  | placeholder t => exact ⟨t, rfl⟩
  | property t => cases h
  | fragment t => cases h

/-- The nodes of a template, prepared. -/
theorem Document.prepared {s : Text} {ns : List Node} (h : Document s ns)
    (keep : Bool) :
    ∀ n ∈ Node.normalList keep ns, n.Prepared := by
  induction h with
  | nil =>
      intro n hn
      simp [Node.normalList] at hn
  | @text t s ns _ _ _ _ ih =>
      intro n hn
      rw [Node.normalList_cons, List.mem_append] at hn
      rcases hn with hn | hn
      · rw [Node.normal?] at hn
        split at hn
        · simp at hn
        · obtain rfl := List.mem_singleton.1 hn
          refine .text fun m hm => ?_
          rw [markers_normalText] at hm
          obtain ⟨name, -, rfl⟩ := List.mem_map.1 hm
          exact ⟨name, rfl⟩
      · exact ih n hn
  | comment _ _ ih =>
      intro n hn
      rw [Node.normalList_cons, Node.normal?] at hn
      exact ih n hn
  | selfClosing head _ _ ih =>
      intro n hn
      rw [Node.normalList_cons, Node.normal?] at hn
      rcases List.mem_cons.1 hn with rfl | hn
      · cases head with
        | intro hname => exact .selfClosing hname.prepared
      · exact ih n hn
  | element head _ _ _ ihcontent ih =>
      intro n hn
      rw [Node.normalList_cons, Node.normal?] at hn
      rcases List.mem_cons.1 hn with rfl | hn
      · cases head with
        | intro hname => exact .element hname.prepared ihcontent
      · exact ih n hn

-- ========================================================== the root

/-- The root of a prepared document is a tag. -/
theorem isTag_normalRoot (keep : Bool) (ns : List Node) :
    (normalRoot keep ns).isTag := by
  unfold normalRoot
  split
  · split
    · assumption
    · rfl
  · rfl

/-- A tag needs nothing around it. -/
theorem Node.asRoot_of_isTag {n : Node} (h : n.isTag) : n.asRoot = n := by
  cases n with
  | text v => cases h
  | comment b => cases h
  | element n as children => rfl
  | selfClosing n as => rfl

theorem prepared_wrap {ns : List Node} (h : ∀ n ∈ ns, n.Prepared) :
    (Node.wrap ns).Prepared :=
  .element rfl h

/-- A template that was read gives a prepared root. -/
theorem prepared_normalRoot {s : Text} {ns : List Node} (h : parse s = .ok ns)
    (keep : Bool) : (normalRoot keep ns).Prepared := by
  have hall := (document_of_parse h).prepared keep
  unfold normalRoot
  split
  · next only honly =>
    split
    · exact hall only (by rw [honly]; exact List.mem_singleton_self only)
    · exact prepared_wrap (honly ▸ hall)
  · exact prepared_wrap hall

-- ================================================== printable trees

/-- The names in a tree that markup can print. -/
def Name.Printable : Name → Prop
  | .literal t => t.IsTagName
  | n => n.Prepared

/-- The trees that markup can print. A tag without content has a name of
its own. -/
inductive Node.Printable : Node → Prop
  | text {v : Text} (plain : '<' ∉ v) : Node.Printable (.text v)
  | element {n : Name} {as : List Attribute} {children : List Node}
      (name : n.Printable) (attributes : ∀ a ∈ as, a.name.IsWord isNameChar)
      (content : ∀ c ∈ children, c.Printable) :
      Node.Printable (.element n as children)
  | selfClosing {n : Name} {as : List Attribute} (name : n.Printable)
      (named : n.isFragment = false)
      (attributes : ∀ a ∈ as, a.name.IsWord isNameChar) :
      Node.Printable (.selfClosing n as)

theorem Name.WellFormed.printable {n : Name} (h : n.WellFormed) :
    n.normal.Printable ∧ n.normal.isFragment = false := by
  cases n with
  | literal t => exact ⟨h, rfl⟩
  | placeholder t => exact ⟨⟨t, rfl⟩, rfl⟩
  | property t => cases h
  | fragment t => cases h

theorem Attribute.isWord_normal {as : List Attribute}
    (h : ∀ a ∈ as, a.WellFormed) :
    ∀ a ∈ as.map Attribute.normal, a.name.IsWord isNameChar := by
  have hword : ∀ w : Text, w.IsWord isNameChar
      → (attributeName w).IsWord isNameChar := by
    intro w hw
    unfold attributeName
    split
    · exact ⟨rfl, List.all_eq_true.1 rfl⟩
    · split
      · exact ⟨rfl, List.all_eq_true.1 rfl⟩
      · exact hw
  intro a ha
  obtain ⟨b, hb, rfl⟩ := List.mem_map.1 ha
  exact hword b.name (h b hb).name

/-- A reference holds the start of a tag only if the name does. -/
theorem lt_notMem_reference {m : Text} (h : '<' ∉ m) : '<' ∉ reference m := by
  intro hmem
  unfold reference at hmem
  split at hmem
  · simp [h] at hmem
  · rcases List.mem_append.1 hmem with hmem | hmem
    · rcases List.mem_append.1 hmem with hmem | hmem
      · simp at hmem
      · have hquoted := (Text.of_mem_quote hmem).2
        have hclass : '<'.isAlphanum = false := rfl
        simp [h, hclass] at hquoted
    · simp at hmem

/-- A segment has the characters of the text it was cut from. -/
theorem Segment.mem_of_mem_source {t : Text} {g : Segment} {c : Char}
    (hg : g ∈ Segment.split t) (hc : c ∈ g.source) : c ∈ t := by
  rw [← Segment.flatMap_source_split t]
  exact List.mem_flatMap.2 ⟨g, hg, hc⟩

theorem lt_notMem_resolveMarkers {t : Text} (h : '<' ∉ t) :
    '<' ∉ resolveMarkers t := by
  intro hmem
  obtain ⟨g, hg, hmem⟩ := List.mem_flatMap.1 hmem
  cases g with
  | literal u => exact h (Segment.mem_of_mem_source hg hmem)
  | marker m =>
      have hm : '<' ∉ m := fun hlt =>
        h (Segment.mem_of_mem_source hg (by simp [Segment.source, hlt]))
      have hreference := lt_notMem_reference hm
      simp [Segment.resolve, referenceMarker, hreference] at hmem

theorem Text.mem_of_mem_trim {t : Text} {c : Char} (h : c ∈ trim t) :
    c ∈ t := by
  have hend : c ∈ trimStart t := by
    have hreverse := (List.dropWhile_suffix _).subset (List.mem_reverse.1 h)
    exact List.mem_reverse.1 hreverse
  exact (List.dropWhile_suffix _).subset hend

theorem lt_notMem_normalText {t : Text} (h : '<' ∉ t) (keep : Bool) :
    '<' ∉ normalText keep t := by
  unfold normalText
  split
  · exact lt_notMem_resolveMarkers h
  · exact fun hmem => lt_notMem_resolveMarkers h (Text.mem_of_mem_trim hmem)

theorem Node.mem_normalList {keep : Bool} {n : Node} {ns : List Node} :
    n ∈ Node.normalList keep ns ↔ ∃ m ∈ ns, m.normal? keep = some n := by
  induction ns with
  | nil => simp [Node.normalList]
  | cons m ns ih => simp [Node.normalList_cons, ih]

/-- What is left of a well-formed node can be printed. -/
theorem Node.WellFormed.printable {n : Node} (h : n.WellFormed) (keep : Bool) :
    ∀ m, n.normal? keep = some m → m.Printable := by
  induction h with
  | text hne hplain =>
      intro m hm
      rw [Node.normal?] at hm
      split at hm
      · cases hm
      · cases hm
        exact .text (lt_notMem_normalText hplain keep)
  | comment hbody =>
      intro m hm
      rw [Node.normal?] at hm
      cases hm
  | element hname hattributes _ _ ih =>
      intro m hm
      rw [Node.normal?] at hm
      cases hm
      refine .element hname.printable.1 (Attribute.isWord_normal hattributes) ?_
      intro c hc
      obtain ⟨child, hchild, hnormal⟩ := Node.mem_normalList.1 hc
      exact ih child hchild c hnormal
  | selfClosing hname hattributes =>
      intro m hm
      rw [Node.normal?] at hm
      cases hm
      exact .selfClosing hname.printable.1 hname.printable.2
        (Attribute.isWord_normal hattributes)

theorem printable_wrap {ns : List Node} (h : ∀ n ∈ ns, n.Printable) :
    (Node.wrap ns).Printable :=
  .element rfl (by simp) h

/-- A template that was read gives a root that can be printed. -/
theorem printable_normalRoot {s : Text} {ns : List Node} (h : parse s = .ok ns)
    (keep : Bool) : (normalRoot keep ns).Printable := by
  have hall : ∀ n ∈ Node.normalList keep ns, n.Printable := by
    intro n hn
    obtain ⟨m, hm, hnormal⟩ := Node.mem_normalList.1 hn
    exact ((document_of_parse h).wellFormed.nodes m hm).printable keep n hnormal
  unfold normalRoot
  split
  · next only honly =>
    split
    · exact hall only (by rw [honly]; exact List.mem_singleton_self only)
    · exact printable_wrap (honly ▸ hall)
  · exact printable_wrap hall

end Stencil
