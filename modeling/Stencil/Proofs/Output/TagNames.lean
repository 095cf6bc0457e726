/-
The names of the tags in a tree, and what stands for them in markup. A tag
that comes from a property is written by the name of its binding, and the
bindings are the distinct expressions of such tags in the order of their
first use (`Node.hoisted`). Collecting them one after the other over the
tree gives this list (`Node.Printable.exprs_bindings`) and none twice.

What stands for a name in a tag, `Name.shown`, is then a matter of the
place of its expression in the list.
-/
import Stencil.Proofs.Preparation

namespace Stencil

-- ============================================================ names

mutual

/-- The names of the tags of a node, in pre-order. -/
def Node.names : Node → List Name
  | .text _ | .comment _ => []
  | .element name _ children => name :: Node.namesList children
  | .selfClosing name _ => [name]

/-- The names of the tags of some nodes, in pre-order. -/
def Node.namesList : List Node → List Name
  | [] => []
  | node :: nodes => node.names ++ Node.namesList nodes

end

/-- The distinct expressions behind the tags of a tree that come from
properties, in the order of their first use. -/
def Node.hoisted (root : Node) : List Text :=
  (root.names.filterMap Name.propertyExpr?).eraseDups

/-- What stands for a name in a tag, by the expressions that are bound. -/
def Name.shown (exprs : List Text) : Name → Text
  | .literal t => t
  | name =>
    match name.propertyExpr? with
    | some expr => Bindings.nameAt (exprs.idxOf expr)
    | none => []

theorem Node.namesList_eq (ns : List Node) :
    Node.namesList ns = ns.flatMap Node.names := by
  induction ns with
  | nil => rw [Node.namesList, List.flatMap_nil]
  | cons n ns ih => rw [Node.namesList, ih, List.flatMap_cons]

-- ========================================================= bindings

mutual

theorem Node.boundExprs_eq (n : Node) :
    n.boundExprs = n.names.filterMap Name.bound? := by
  cases n with
  | text v => rw [Node.boundExprs, Node.names, List.filterMap_nil]
  | comment b => rw [Node.boundExprs, Node.names, List.filterMap_nil]
  | selfClosing name as =>
      rw [Node.boundExprs, Node.names]
      cases h : name.bound? <;> simp [h]
  | element name as children =>
      rw [Node.boundExprs, Node.names, Node.boundExprsList_eq children]
      cases h : name.bound? <;> simp [h]

theorem Node.boundExprsList_eq (ns : List Node) :
    Node.boundExprsList ns = (Node.namesList ns).filterMap Name.bound? := by
  cases ns with
  | nil => rw [Node.boundExprsList, Node.namesList, List.filterMap_nil]
  | cons n ns =>
      rw [Node.boundExprsList, Node.namesList, List.filterMap_append,
        Node.boundExprs_eq n, Node.boundExprsList_eq ns]

end

/-- Binding expressions one after the other adds those that are new, each
once. -/
theorem Bindings.exprs_foldl_bind (exprs : List Text) (b : Bindings) :
    (exprs.foldl Bindings.bind b).exprs
      = b.exprs ++ (exprs.filter fun e => !b.exprs.contains e).eraseDups := by
  induction exprs generalizing b with
  | nil => simp
  | cons e exprs ih =>
      rw [List.foldl_cons, ih, Bindings.bind]
      by_cases he : e ∈ b.exprs
      · simp [he]
      · rw [if_neg he, List.filter_cons_of_pos (by simpa using he),
          List.eraseDups_cons, List.filter_filter, List.append_assoc,
          List.singleton_append]
        congr 3
        refine List.filter_congr fun d _ => ?_
        by_cases hd : d = e
        · simp [hd]
        · simp [hd, beq_eq_false_iff_ne.2 hd]

theorem Name.Printable.bound?_eq {n : Name} (h : n.Printable) :
    n.bound? = n.propertyExpr? := by
  cases n with
  | literal t => rfl
  | placeholder t => cases h
  | property t => rfl
  | fragment t => rfl

/-- The names in a tree that can be printed. -/
theorem Node.Printable.names {n : Node} (h : n.Printable) :
    ∀ m ∈ n.names, m.Printable := by
  induction h with
  | text _ => simp [Node.names]
  | element hname _ _ ih =>
      rw [Node.names, Node.namesList_eq, List.forall_mem_cons]
      refine ⟨hname, ?_⟩
      intro m hm
      obtain ⟨c, hc, hm⟩ := List.mem_flatMap.1 hm
      exact ih c hc m hm
  | selfClosing hname _ _ => simpa [Node.names] using hname

/-- The bindings of a tree are its distinct expressions, in the order of
their first use. -/
theorem Node.Printable.exprs_bindings {n : Node} (h : n.Printable) :
    n.bindings.exprs = n.hoisted := by
  have hbound : n.names.filterMap Name.bound?
      = n.names.filterMap Name.propertyExpr? :=
    List.filterMap_congr fun m hm => (h.names m hm).bound?_eq
  rw [Node.bindings, Bindings.ofList, Bindings.exprs_foldl_bind,
    Node.boundExprs_eq, hbound]
  simp [Bindings.empty, Node.hoisted]

/-- Binding an expression leaves no other bound twice. -/
theorem Bindings.nodup_bind {b : Bindings} (h : b.exprs.Nodup) (e : Text) :
    (b.bind e).exprs.Nodup := by
  unfold Bindings.bind
  split
  · exact h
  · next he =>
    refine List.nodup_append.2 ⟨h, by simp, ?_⟩
    intro d hd _ hlast heq
    exact he (List.mem_singleton.1 hlast ▸ heq ▸ hd)

theorem Bindings.nodup_foldl_bind (exprs : List Text) {b : Bindings}
    (h : b.exprs.Nodup) :
    (exprs.foldl Bindings.bind b).exprs.Nodup := by
  induction exprs generalizing b with
  | nil => exact h
  | cons e exprs ih => exact ih (Bindings.nodup_bind h e)

-- ================================================= names in tags

theorem Name.propertyExpr?_referenceMarker (m : Text) :
    (Name.property (referenceMarker m)).propertyExpr? = some (reference m) := by
  simp [Name.propertyExpr?, referenceMarker]

theorem Name.Printable.tag_eq {n : Name} (h : n.Printable) (b : Bindings) :
    n.tag b = n.shown b.exprs := by
  cases n with
  | literal t => rfl
  | placeholder t => cases h
  | property t =>
      obtain ⟨m, rfl⟩ := h
      simp only [Name.tag, Name.shown, Name.bound?,
        Name.propertyExpr?_referenceMarker, Bindings.name]
  | fragment t => rfl

theorem Text.IsWord.isNameChar {w : Text} (h : w.IsWord isNameChar) :
    ∀ c ∈ w, isNameChar c := by
  cases w with
  | nil => simp
  | cons d w =>
      rw [List.forall_mem_cons]
      exact ⟨by simp [Stencil.isNameChar, Char.isAlphanum, h.1], h.2⟩

/-- The characters of a name in a tag. -/
def isTagChar (c : Char) : Bool := isNameChar c || c == '$'

theorem isTagChar_nameAt (i : Nat) : ∀ c ∈ Bindings.nameAt i, isTagChar c := by
  have hstart : ∀ c ∈ "C$c".toList, isTagChar c :=
    List.all_eq_true.1 (by decide)
  intro c hc
  rcases List.mem_append.1 hc with hc | hc
  · exact hstart c hc
  · have hdigit := Nat.isDigit_of_mem_toDigits (by decide) (by decide) hc
    simp [isTagChar, isNameChar, Char.isAlphanum, hdigit]

theorem Name.Printable.isTagChar_shown {n : Name} (h : n.Printable)
    (exprs : List Text) :
    ∀ c ∈ n.shown exprs, isTagChar c := by
  cases n with
  | literal t =>
      intro c hc
      have hword : t.IsWord isNameChar := (Text.isTagName_iff.1 h).1
      simp [isTagChar, hword.isNameChar c hc]
  | placeholder t => cases h
  | property t =>
      rw [Name.shown]
      split
      · exact isTagChar_nameAt _
      · simp
      · simp
  | fragment t => simp [Name.shown, Name.propertyExpr?]

/-- Only the fragment is without a name in its tags. -/
theorem Name.Printable.shown_ne_nil {n : Name} (h : n.Printable)
    (hn : n.isFragment = false) (exprs : List Text) : n.shown exprs ≠ [] := by
  cases n with
  | literal t =>
      intro hnil
      obtain rfl : t = [] := hnil
      cases h
  | placeholder t => cases h
  | property t =>
      obtain ⟨m, rfl⟩ := h
      simp [Name.shown, Name.propertyExpr?_referenceMarker, Bindings.nameAt]
  | fragment t => cases hn

theorem Name.shown_of_propertyExpr? {n : Name} {e : Text}
    (h : n.propertyExpr? = some e) (exprs : List Text) :
    n.shown exprs = Bindings.nameAt (exprs.idxOf e) := by
  cases n with
  | literal t => cases h
  | placeholder t => cases h
  | property t => simp [Name.shown, h]
  | fragment t => cases h

/-- A binding starts with a capital letter, a literal name does not. -/
theorem Text.IsTagName.ne_nameAt {t : Text} (h : t.IsTagName) (i : Nat) :
    t ≠ Bindings.nameAt i := by
  intro heq
  have hhead : t.head? = some 'C' := by rw [heq]; rfl
  cases t with
  | nil => cases hhead
  | cons c t =>
      obtain rfl : c = 'C' := by simpa using hhead
      cases h.1

/-- The expressions of a tree that can be printed are references. -/
theorem Node.Printable.of_mem_hoisted {n : Node} (h : n.Printable) {e : Text}
    (he : e ∈ n.hoisted) : ∃ m, e = reference m := by
  rw [Node.hoisted, List.mem_eraseDups] at he
  obtain ⟨name, hname, hexpr⟩ := List.mem_filterMap.1 he
  have hprintable := h.names name hname
  cases name with
  | literal t => cases hexpr
  | placeholder t => cases hprintable
  | property t =>
      obtain ⟨m, rfl⟩ := hprintable
      rw [Name.propertyExpr?_referenceMarker] at hexpr
      exact ⟨m, (Option.some.inj hexpr).symm⟩
  | fragment t => cases hexpr

end Stencil
