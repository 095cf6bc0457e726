/-
What preparation makes of a tree, and what it forgets of it.

# The form of a prepared tree

Whatever the nodes are, preparation gives one tag, and `Node.Normal` holds
of every node in it: what the printers take for granted and do not look at
again. For a template that was read, the only fragment is the wrapper, and
whether there is one can be told from the nodes at the root of the
template (`Node.isIgnored`).

# What does not matter

A comment, an empty text and, where white space is not kept, the white
space around a text leave no trace in the prepared nodes, at any depth
(`Edit`). A component depends on its nodes through these alone. That
trimming comes after the markers are resolved does no harm: it commutes
with it (`normalText_eq`), so the edits can be undone on the text itself.
-/
import Stencil.Component
import Stencil.Proofs.Interpolation.Resolution
import Stencil.Proofs.Preparation
import Mathlib.Logic.Relation

namespace Stencil

-- ========================================================== trimming

/-- There is no white space at the ends of a text. -/
def Text.Trimmed (t : Text) : Prop :=
  (∀ c ∈ t.head?, isBlank c = false) ∧ ∀ c ∈ t.getLast?, isBlank c = false

theorem Text.trimmed_trim (t : Text) : t.trim.Trimmed := by
  refine ⟨fun c hc => ?_, fun c hc => ?_⟩
  · -- what is left after trimming the end starts as before
    have hstart := ((scan_eq_iff isBlank t _ _).1 ⟨rfl, rfl⟩).2.2
    have hprefix : t.trim <+: t.trimStart := by
      rw [← List.reverse_suffix, trim, trimEnd, List.reverse_reverse]
      exact List.dropWhile_suffix _
    obtain ⟨w, hw⟩ := hprefix
    refine hstart c ?_
    show c ∈ t.trimStart.head?
    rw [← hw, List.head?_append, Option.mem_def.1 hc]
    rfl
  · have hend :=
      ((scan_eq_iff isBlank t.trimStart.reverse _ _).1 ⟨rfl, rfl⟩).2.2
    rw [trim, trimEnd, List.getLast?_reverse] at hc
    exact hend c hc

theorem Text.trimStart_eq_nil_iff {t : Text} :
    t.trimStart = [] ↔ ∀ c ∈ t, isBlank c :=
  List.dropWhile_eq_nil_iff

theorem Text.trim_eq_nil_iff {t : Text} : t.trim = [] ↔ ∀ c ∈ t, isBlank c := by
  rw [trim, trimEnd, List.reverse_eq_nil_iff, List.dropWhile_eq_nil_iff]
  constructor
  · intro h
    -- a text that starts with no white space and has only such is empty
    rw [← trimStart_eq_nil_iff]
    by_contra hne
    obtain ⟨c, r, hc⟩ := List.exists_cons_of_ne_nil hne
    have hstop := ((scan_eq_iff isBlank t _ _).1 ⟨rfl, hc⟩).2.2 c rfl
    rw [h c (by simp [hc])] at hstop
    cases hstop
  · intro h
    simp [trimStart_eq_nil_iff.2 h]

theorem Text.trimEnd_append_blank {w : Text} (hw : ∀ c ∈ w, isBlank c)
    (t : Text) :
    (t ++ w).trimEnd = t.trimEnd := by
  have hreverse : ∀ c ∈ w.reverse, isBlank c :=
    fun c hc => hw c (List.mem_reverse.1 hc)
  rw [trimEnd, List.reverse_append,
    List.dropWhile_append_of_pos hreverse, trimEnd]

/-- White space around a text is trimmed with the text's own. -/
theorem Text.trim_append_blank {w w' : Text} (hw : ∀ c ∈ w, isBlank c)
    (hw' : ∀ c ∈ w', isBlank c) (t : Text) :
    (w ++ (t ++ w')).trim = t.trim := by
  rw [trim, trimStart, List.dropWhile_append_of_pos hw, List.dropWhile_append]
  split
  · next hempty =>
    have hnil : t.trimStart = [] := List.isEmpty_iff.1 hempty
    rw [trim, hnil, List.dropWhile_eq_nil_iff.2 hw']
  · exact trimEnd_append_blank hw' _

-- ============================================================= texts

theorem resolveMarkers_eq_nil_iff {t : Text} :
    resolveMarkers t = [] ↔ t = [] := by
  rw [← List.head?_eq_none_iff, head?_resolveMarkers, List.head?_eq_none_iff]

/-- A text is gone after preparation if it was empty, or white space that is
not kept. -/
theorem normalText_eq_nil_iff {keep : Bool} {t : Text} :
    normalText keep t = [] ↔ t = [] ∨ keep = false ∧ ∀ c ∈ t,
      Text.isBlank c := by
  rw [normalText_eq, resolveMarkers_eq_nil_iff]
  cases keep with
  | true => simp
  | false =>
      rw [if_neg Bool.false_ne_true, Text.trim_eq_nil_iff]
      constructor
      · intro h
        exact Or.inr ⟨rfl, h⟩
      · rintro (rfl | ⟨-, h⟩)
        · simp
        · exact h

theorem Node.normal?_text_of_eq {keep : Bool} {t u : Text}
    (h : normalText keep t = normalText keep u) :
    (Node.text t).normal? keep = (Node.text u).normal? keep := by
  rw [Node.normal?, Node.normal?, h]

theorem Node.normal?_text_eq_none_iff {keep : Bool} {t : Text} :
    (Node.text t).normal? keep = none ↔ normalText keep t = [] := by
  rw [Node.normal?]
  split
  · next hempty => exact ⟨fun _ => List.isEmpty_iff.1 hempty, fun _ => rfl⟩
  · next hempty =>
    constructor
    · intro h
      cases h
    · intro h
      rw [h] at hempty
      exact absurd rfl hempty

-- =========================================================== the form

namespace Node

/-- The name of a tag. -/
def name? : Node → Option Name
  | .element name _ _ | .selfClosing name _ => some name
  | .text _ | .comment _ => none

/-- The attributes of a tag. -/
def attributes : Node → List Attribute
  | .element _ attributes _ | .selfClosing _ attributes => attributes
  | .text _ | .comment _ => []

/-- The nodes right below a node. -/
def children : Node → List Node
  | .element _ _ children => children
  | .selfClosing .. | .text _ | .comment _ => []

/-- Whether a node is a fragment. -/
def isFragment (n : Node) : Bool := n.name?.any Name.isFragment

/-- What a printer takes for granted at a node. -/
structure Normal (keep : Bool) (n : Node) : Prop where
  noComment : ∀ body, n ≠ .comment body
  nonempty : n ≠ .text []
  trimmed : keep = false → ∀ t, n = .text t → t.Trimmed
  noPlaceholder : ∀ t, n.name? ≠ some (.placeholder t)
  attributeNames : ∀ a ∈ n.attributes, a.name ≠ "class".toList
    ∧ a.name ≠ "for".toList

end Node

/-- The two attribute names with another spelling do not come back. -/
theorem attributeName_ne (name : Text) :
    attributeName name ≠ "class".toList
      ∧ attributeName name ≠ "for".toList := by
  unfold attributeName
  split
  · decide
  · next hclass =>
    split
    · decide
    · next hfor => exact ⟨hclass, hfor⟩

theorem Name.normal_ne_placeholder (n : Name) (t : Text) :
    n.normal ≠ .placeholder t := by
  cases n with
  | literal u => exact Name.noConfusion
  | placeholder u => exact Name.noConfusion
  | property u => exact Name.noConfusion
  | fragment u => exact Name.noConfusion

/-- A tag is in the form if its name and its attributes were prepared. -/
theorem Node.normal_of_tag {keep : Bool} {m : Node} (htag : m.isTag) (n : Name)
    (hname : m.name? = some n.normal) (as : List Attribute)
    (hattributes : m.attributes = as.map Attribute.normal) : m.Normal keep where
  noComment := by rintro body rfl; cases htag
  nonempty := by rintro rfl; cases htag
  trimmed := by rintro - t rfl; cases htag
  noPlaceholder t := by
    rw [hname, ne_eq, Option.some.injEq]
    exact n.normal_ne_placeholder t
  attributeNames a ha := by
    rw [hattributes] at ha
    obtain ⟨b, -, rfl⟩ := List.mem_map.1 ha
    exact attributeName_ne b.name

theorem Node.normal_of_text {keep : Bool} {t : Text}
    (hne : normalText keep t ≠ []) :
    (Node.text (normalText keep t)).Normal keep where
  noComment := by rintro body ⟨⟩
  nonempty h := hne (Node.text.inj h)
  trimmed := by
    rintro rfl u hu
    obtain rfl := Node.text.inj hu
    exact Text.trimmed_trim _
  noPlaceholder := by rintro u ⟨⟩
  attributeNames := by rintro a ⟨⟩

/-- What holds of a tag and of all below its children holds of all in it. -/
theorem Node.forall_contains_element {p : Node → Prop} {n : Name}
    {as : List Attribute} {children : List Node}
    (hroot : p (.element n as children))
    (hchildren : ∀ c ∈ children, ∀ d, c.Contains d → p d) :
    ∀ d, (Node.element n as children).Contains d → p d := by
  intro d hd
  cases hd with
  | root => exact hroot
  | child hmem hbelow => exact hchildren _ hmem d hbelow

theorem Node.forall_contains_leaf {p : Node → Prop} {n : Node} (hroot : p n)
    (hleaf : n.children = []) : ∀ d, n.Contains d → p d := by
  intro d hd
  cases hd with
  | root => exact hroot
  | child hmem _ =>
      obtain rfl : _ = [] := hleaf
      cases hmem

mutual

/-- Every node in a prepared node is in the form. -/
theorem Node.normal_of_normal? (keep : Bool) : ∀ n m :
    Node, n.normal? keep = some m →
    ∀ d, m.Contains d → d.Normal keep
  | .comment _, m, h => by
    rw [Node.normal?] at h
    cases h
  | .text t, m, h => by
    have hne : normalText keep t ≠ [] := by
      rw [ne_eq, ← Node.normal?_text_eq_none_iff, h]
      exact Option.some_ne_none m
    rw [Node.normal?, if_neg (mt List.isEmpty_iff.1 hne)] at h
    cases h
    exact Node.forall_contains_leaf (Node.normal_of_text hne) rfl
  | .element n as children, m, h => by
    rw [Node.normal?] at h
    cases h
    exact Node.forall_contains_element (Node.normal_of_tag rfl _ rfl _ rfl)
      (Node.normal_of_normalList keep children)
  | .selfClosing n as, m, h => by
    rw [Node.normal?] at h
    cases h
    exact Node.forall_contains_leaf (Node.normal_of_tag rfl _ rfl _ rfl) rfl

/-- Every node in some prepared nodes is in the form. -/
theorem Node.normal_of_normalList (keep : Bool) : ∀ ns : List Node,
    ∀ m ∈ Node.normalList keep ns, ∀ d, m.Contains d → d.Normal keep
  | [], m, hm => by
    rw [Node.normalList] at hm
    cases hm
  | n :: ns, m, hm => by
    rw [Node.normalList_cons, List.mem_append, Option.mem_toList] at hm
    rcases hm with hm | hm
    · exact Node.normal_of_normal? keep n m hm
    · exact Node.normal_of_normalList keep ns m hm

end

-- ============================================================ the root

/-- The root of a prepared document is its only tag, or a wrapper. -/
theorem normalRoot_cases (keep : Bool) (ns : List Node) :
    (isSingleTag (Node.normalList keep ns) = true
      ∧ Node.normalList keep ns = [normalRoot keep ns])
      ∨ isSingleTag (Node.normalList keep ns) = false
        ∧ normalRoot keep ns = .wrap (Node.normalList keep ns) := by
  unfold normalRoot
  split
  · next only honly =>
    split
    · next htag => exact Or.inl ⟨honly ▸ htag, honly⟩
    · next htag =>
      exact Or.inr ⟨honly ▸ Bool.eq_false_iff.2 htag, by rw [honly]⟩
  · next hmany =>
    refine Or.inr ⟨?_, rfl⟩
    unfold isSingleTag
    split
    · next only honly => exact absurd honly (hmany only)
    · rfl

theorem normal_wrap {keep : Bool} {ns : List Node}
    (h : ∀ m ∈ ns, ∀ d, m.Contains d → d.Normal keep) :
    ∀ d, (Node.wrap ns).Contains d → d.Normal keep :=
  Node.forall_contains_element
    (Node.normal_of_tag rfl .wrapper rfl [] rfl) h

theorem normal_normalRoot (keep : Bool) (ns : List Node) :
    ∀ d, (normalRoot keep ns).Contains d → d.Normal keep := by
  have hnodes := Node.normal_of_normalList keep ns
  rcases normalRoot_cases keep ns with ⟨-, honly⟩ | ⟨-, hwrap⟩
  · exact hnodes _ (by rw [honly]; exact List.mem_singleton_self _)
  · rw [hwrap]
    exact normal_wrap hnodes

-- =================================================== read templates

/-- A node that leaves no trace at the root: a comment, and white space
unless it is kept. -/
def Node.isIgnored (keep : Bool) : Node → Bool
  | .comment _ => true
  | .text t => !keep && t.all Text.isBlank
  | .element .. | .selfClosing .. => false

theorem isSingleTag_iff {ns : List Node} :
    isSingleTag ns = true ↔ ns.map Node.isTag = [true] := by
  rcases ns with _ | ⟨n, _ | ⟨m, ns⟩⟩ <;> simp [isSingleTag]

/-- A node that was read is left out exactly if it is ignored, and a tag
stays a tag. -/
theorem Node.WellFormed.isTag_normal? {n : Node} (h : n.WellFormed)
    (keep : Bool) :
    (n.normal? keep).toList.map Node.isTag
      = if n.isIgnored keep then [] else [n.isTag] := by
  cases h with
  | comment _ => simp [Node.normal?, Node.isIgnored]
  | element => simp [Node.normal?, Node.isIgnored, Node.isTag]
  | selfClosing => simp [Node.normal?, Node.isIgnored, Node.isTag]
  | @text t hne _ =>
      have hgone : normalText keep t = []
          ↔ (Node.text t).isIgnored keep = true := by
        simp [normalText_eq_nil_iff, hne, Node.isIgnored]
      by_cases hnil : normalText keep t = []
      · rw [Node.normal?_text_eq_none_iff.2 hnil, if_pos (hgone.1 hnil)]
        rfl
      · rw [Node.normal?, if_neg (mt List.isEmpty_iff.1 hnil),
          if_neg (mt hgone.2 hnil)]
        rfl

/-- What is left at the root of a template that was read. -/
theorem isTag_normalList {ns : List Node} (h : ∀ n ∈ ns, n.WellFormed)
    (keep : Bool) :
    (Node.normalList keep ns).map Node.isTag
      = (ns.filter (!Node.isIgnored keep ·)).map Node.isTag := by
  induction ns with
  | nil => rfl
  | cons n ns ih =>
      obtain ⟨hn, hns⟩ := List.forall_mem_cons.1 h
      rw [Node.normalList_cons, List.map_append, hn.isTag_normal? keep, ih hns,
        List.filter_cons]
      cases n.isIgnored keep with
      | true => rfl
      | false => rfl

/-- No node of a template is a fragment. -/
theorem Node.WellFormed.isFragment_normal? {n : Node} (h : n.WellFormed)
    (keep : Bool) :
    ∀ m, n.normal? keep = some m → ∀ d, m.Contains d
      → d.isFragment = false := by
  induction h with
  | comment hbody =>
      intro m hm
      rw [Node.normal?] at hm
      cases hm
  | text hne hplain =>
      intro m hm
      rw [Node.normal?] at hm
      split at hm
      · cases hm
      · cases hm
        exact Node.forall_contains_leaf rfl rfl
  | element hname _ _ _ ih =>
      intro m hm
      rw [Node.normal?] at hm
      cases hm
      refine Node.forall_contains_element hname.printable.2 ?_
      intro c hc
      obtain ⟨child, hchild, hnormal⟩ := Node.mem_normalList.1 hc
      exact ih child hchild c hnormal
  | selfClosing hname _ =>
      intro m hm
      rw [Node.normal?] at hm
      cases hm
      exact Node.forall_contains_leaf hname.printable.2 rfl

theorem isFragment_of_mem_normalList {ns : List Node}
    (h : ∀ n ∈ ns, n.WellFormed) (keep : Bool) :
    ∀ m ∈ Node.normalList keep ns, ∀ d, m.Contains d
      → d.isFragment = false := by
  intro m hm
  obtain ⟨n, hn, hnormal⟩ := Node.mem_normalList.1 hm
  exact (h n hn).isFragment_normal? keep m hnormal

/-- Children are below their node. -/
theorem Node.Contains.of_mem_children {n c : Node} (h : c ∈ n.children)
    {d : Node} (hd : c.Contains d) : n.Contains d := by
  cases n with
  | text t => cases h
  | comment b => cases h
  | selfClosing n as => cases h
  | element n as children => exact .child h hd

/-- Preparation gives one tag, and everything in it is in the form that the
printers count on. For a template that was read, nothing below the root is
a fragment, and the root is one exactly if what is not ignored at the root
of the template is not a single tag. -/
theorem normalize_establishes (keep : Bool) (ns : List Node) :
    (∃ root, normalize keep ns = [root] ∧ isSingleTag (normalize keep ns) = true
        ∧ ∀ n, root.Contains n → n.Normal keep)
      ∧ ∀ s, parse s = .ok ns → ∀ root, normalize keep ns = [root] →
        (∀ c ∈ root.children, ∀ n, c.Contains n → n.isFragment = false)
          ∧ (root.isFragment = true
            ↔ isSingleTag (ns.filter (!Node.isIgnored keep ·)) = false) := by
  refine ⟨⟨normalRoot keep ns, rfl, isTag_normalRoot keep ns,
    normal_normalRoot keep ns⟩, ?_⟩
  rintro s hs root hroot
  obtain rfl : normalRoot keep ns = root := List.singleton_inj.1 hroot
  have hwell := (document_of_parse hs).wellFormed.nodes
  have hfragment := isFragment_of_mem_normalList hwell keep
  have hsingle : isSingleTag (ns.filter (!Node.isIgnored keep ·))
      = isSingleTag (Node.normalList keep ns) := by
    rw [Bool.eq_iff_iff, isSingleTag_iff, isSingleTag_iff,
      isTag_normalList hwell]
  rw [hsingle]
  rcases normalRoot_cases keep ns with ⟨htag, honly⟩ | ⟨htag, hwrap⟩
  · have hroot :=
      hfragment (normalRoot keep ns)
        (by rw [honly]; exact List.mem_singleton_self _)
    refine ⟨fun c hc n hn => hroot n (.of_mem_children hc hn), ?_⟩
    rw [hroot _ .root, htag]
    simp
  · rw [hwrap, htag]
    refine ⟨hfragment, ?_⟩
    simp [Node.isFragment, Node.name?, Node.wrap, Name.wrapper,
      Name.isFragment]

/-- A tag behind a comment and white space: a root of its own unless the
white space is kept. -/
theorem normalize_establishes_note :
    ∃ ns, parse "<!--c--> <p class=\"x\"> \x7ba b\x7d</p>".toList = .ok ns
      ∧ (normalRoot false ns).isFragment = false
      ∧ (normalRoot true ns).isFragment = true := by
  have hwell : WellFormed [.comment "c".toList, .text " ".toList,
      .element (.literal "p".toList) [⟨"class".toList, "x".toList⟩]
        [.text " \x7ba b\x7d".toList]] := by decide
  have hparse := hwell.parse_eq fun _ => false
  refine ⟨_, hparse, ?_, ?_⟩
  · have hroot := ((normalize_establishes false _).2 _ hparse _ rfl).2
    exact Bool.eq_false_iff.2 fun h => absurd (hroot.1 h) (by decide)
  · exact ((normalize_establishes true _).2 _ hparse _ rfl).2.2 (by decide)

-- ================================================= what does not matter

/-- One more insignificant thing in a list of nodes: a comment, an empty
text or, where white space is not kept, white space by itself or around a
text; at the front of the list, behind a node of it, or inside a tag of
it. -/
inductive Edit (keep : Bool) : List Node → List Node → Prop
  | comment (body : Text) (ns : List Node) : Edit keep ns (.comment body :: ns)
  | emptyText (ns : List Node) : Edit keep ns (.text [] :: ns)
  | blankText {w : Text} (trims : keep = false)
      (blank : ∀ c ∈ w, Text.isBlank c)
      (ns : List Node) : Edit keep ns (.text w :: ns)
  | padding {w w' : Text} (trims : keep = false)
      (before : ∀ c ∈ w, Text.isBlank c)
      (after : ∀ c ∈ w', Text.isBlank c) (t : Text) (ns : List Node) :
      Edit keep (.text t :: ns) (.text (w ++ (t ++ w')) :: ns)
  | behind {ns ns' : List Node} (n : Node) (edit : Edit keep ns ns') :
      Edit keep (n :: ns) (n :: ns')
  | inside {children children' : List Node} (name : Name)
      (attributes : List Attribute)
      (edit : Edit keep children children') (ns : List Node) :
      Edit keep (.element name attributes children :: ns)
        (.element name attributes children' :: ns)

/-- White space around a text is gone after preparation, whatever markers
and braces the text has. -/
theorem normalText_padding {w w' : Text} (hw : ∀ c ∈ w, Text.isBlank c)
    (hw' : ∀ c ∈ w', Text.isBlank c) (t : Text) :
    normalText false (w ++ (t ++ w')) = normalText false t := by
  rw [normalText_eq, normalText_eq, if_neg Bool.false_ne_true,
    if_neg Bool.false_ne_true, Text.trim_append_blank hw hw']

theorem Node.normalList_cons_of_none {keep : Bool} {n : Node}
    (h : n.normal? keep = none) (ns : List Node) :
    Node.normalList keep (n :: ns) = Node.normalList keep ns := by
  rw [Node.normalList_cons, h]
  rfl

/-- An edit leaves no trace in the prepared nodes. -/
theorem Edit.normalList_eq {keep : Bool} {ns ns' : List Node}
    (h : Edit keep ns ns') :
    Node.normalList keep ns = Node.normalList keep ns' := by
  induction h with
  | comment body ns =>
      have hgone : (Node.comment body).normal? keep = none := by
        rw [Node.normal?]
      exact (Node.normalList_cons_of_none hgone ns).symm
  | emptyText ns =>
      have hgone : (Node.text []).normal? keep = none :=
        Node.normal?_text_eq_none_iff.2 (normalText_eq_nil_iff.2 (Or.inl rfl))
      exact (Node.normalList_cons_of_none hgone ns).symm
  | @blankText w htrims hblank ns =>
      have hgone : (Node.text w).normal? keep = none :=
        Node.normal?_text_eq_none_iff.2
          (normalText_eq_nil_iff.2 (Or.inr ⟨htrims, hblank⟩))
      exact (Node.normalList_cons_of_none hgone ns).symm
  | padding htrims hbefore hafter t ns =>
      subst htrims
      rw [Node.normalList_cons, Node.normalList_cons,
        Node.normal?_text_of_eq (normalText_padding hbefore hafter t)]
  | behind n _ ih => rw [Node.normalList_cons, Node.normalList_cons, ih]
  | inside name attributes _ ns ih =>
      rw [Node.normalList_cons, Node.normalList_cons, Node.normal?,
        Node.normal?, ih]

/-- The component of some nodes depends on what is left of them after
preparation only. -/
theorem component_congr {options : Options} {ns ns' : List Node}
    (h : Node.normalList options.keepsWhitespace ns
      = Node.normalList options.keepsWhitespace ns') :
    component options ns = component options ns' := by
  have hroot : normalRoot options.keepsWhitespace ns
      = normalRoot options.keepsWhitespace ns' := by
    rw [normalRoot, normalRoot, h]
  rw [component, component, hroot]

/-- Any number of insignificant nodes and white space, put in or taken out
anywhere, leaves the component as it is. -/
theorem component_eq_of_edits (options : Options) {ns ns' : List Node}
    (h : Relation.EqvGen (Edit options.keepsWhitespace) ns ns') :
    component options ns = component options ns' := by
  refine component_congr ?_
  induction h with
  | rel ns ns' hedit => exact hedit.normalList_eq
  | refl ns => rfl
  | symm ns ns' _ ih => exact ih.symm
  | trans ns ns' ns'' _ _ ih ih' => exact ih.trans ih'

/-- A comment out of a tag, and white space behind an unclosed brace in it:
two edits in opposite directions. -/
theorem component_eq_of_edits_note :
    Relation.EqvGen (Edit ({} : Options).keepsWhitespace)
        [.element (.literal "p".toList) [] [.text "\x7ba b\x7d \x7b".toList,
          .comment "c".toList]]
        [.element (.literal "p".toList) [] [.text "\x7ba b\x7d \x7b\n ".toList]]
      ∧ component {} [.element (.literal "p".toList) []
          [.text "\x7ba b\x7d \x7b".toList, .comment "c".toList]]
        = component {} [.element (.literal "p".toList) []
          [.text "\x7ba b\x7d \x7b\n ".toList]] := by
  have hcomment : Edit ({} : Options).keepsWhitespace
      [.element (.literal "p".toList) [] [.text "\x7ba b\x7d \x7b".toList]]
      [.element (.literal "p".toList) []
        [.text "\x7ba b\x7d \x7b".toList, .comment "c".toList]] :=
    .inside _ _ (.behind _ (.comment _ [])) []
  have hblank : ∀ c ∈ "\n ".toList, Text.isBlank c :=
    List.all_eq_true.1 (by decide)
  have hspace : Edit ({} : Options).keepsWhitespace
      [.element (.literal "p".toList) [] [.text "\x7ba b\x7d \x7b".toList]]
      [.element (.literal "p".toList) []
        [.text "\x7ba b\x7d \x7b\n ".toList]] :=
    .inside _ _ (.padding (w := []) rfl (by simp) hblank _ []) []
  have hedits :=
    Relation.EqvGen.trans _ _ _ (.symm _ _ (.rel _ _ hcomment))
      (.rel _ _ hspace)
  exact ⟨hedits, component_eq_of_edits {} hedits⟩

end Stencil
