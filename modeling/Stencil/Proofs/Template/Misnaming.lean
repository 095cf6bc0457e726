/-
The rules on the names of tags, for a template that the grammar accepts. A
literal name has no capitals, and a closing tag repeats the name of the
tag it closes. `RawNode.violations` lists everything in a tree that breaks
one of the rules, each with its byte offset: a name with capitals where it
starts, a wrong closing tag at its `</`.

The check of names goes over the tokens of the template and stops at the
first that breaks a rule. What it reports is the first violation of the
list (`Reported`), by induction on the tree: a tag is checked before its
content, its closing tag after it, and what stands behind an element is
checked with the same open tags as what stands before it. The list is in
order of offsets (`RawDocument.violations_sorted`), so the first is the
one with the smallest.
-/
import Stencil.Proofs.Template.Acceptance

namespace Stencil

-- ========================================================= violations

/-- A broken rule on names, with the byte offset of its place. -/
structure Violation where
  fault : Fault
  offset : Nat
  deriving DecidableEq, Repr

/-- A literal name with a capital in it, at the offset given. -/
def Name.capitals (offset : Nat) : Name → List Violation
  | .literal t => if t.any Char.isUpper then [⟨.uppercase t, offset⟩] else []
  | _ => []

/-- A closing tag, at the offset given, that does not repeat the name it
closes. -/
def Name.misclosed (offset : Nat) (name closing : Name) : List Violation :=
  if closing.raw = name.raw then []
  else [⟨.mismatched name.raw closing.raw, offset⟩]

namespace RawNode

mutual

/-- What breaks a rule on names in a node that starts at an offset. -/
def violations (start : Nat) : RawNode → List Violation
  | .text _ => []
  | .comment _ => []
  | .element head name _ children closing =>
    let inside := start + Text.byteSize ('<' :: (head ++ ['>']))
    name.capitals (start + 1) ++ violationsList inside children
      ++ name.misclosed (inside + (spellList children).byteSize) closing
  | .selfClosing _ name _ => name.capitals (start + 1)

/-- What breaks a rule on names in some nodes in a row. -/
def violationsList (start : Nat) : List RawNode → List Violation
  | [] => []
  | node :: nodes =>
    node.violations start ++ violationsList (start + node.spell.byteSize) nodes

end

end RawNode

-- ============================================================= order

/-- Violations in order of their offsets, all from `low` to before `high`. -/
structure Sorted (low high : Nat) (vs : List Violation) : Prop where
  order : vs.Pairwise fun v w => v.offset < w.offset
  bounds : ∀ v ∈ vs, low ≤ v.offset ∧ v.offset < high

theorem Sorted.nil (low high : Nat) : Sorted low high [] := ⟨.nil, by simp⟩

theorem Sorted.singleton {low high offset : Nat} (fault : Fault)
    (hlow : low ≤ offset) (hhigh : offset < high) :
    Sorted low high [⟨fault, offset⟩] :=
  ⟨List.pairwise_singleton .., by simp [hlow, hhigh]⟩

theorem Sorted.append {low middle high : Nat} {vs ws : List Violation}
    (hvs : Sorted low middle vs) (hws : Sorted middle high ws)
    (hlow : low ≤ middle) (hhigh : middle ≤ high) :
    Sorted low high (vs ++ ws) where
  order := by
    refine List.pairwise_append.2 ⟨hvs.order, hws.order, ?_⟩
    intro v hv w hw
    have hv := hvs.bounds v hv
    have hw := hws.bounds w hw
    omega
  bounds v hv := by
    rcases List.mem_append.1 hv with hv | hv
    · have hv := hvs.bounds v hv
      omega
    · have hv := hws.bounds v hv
      omega

/-- The first in order is the only one with the smallest offset. -/
theorem Sorted.smallest_iff {low high : Nat} {u v : Violation}
    {vs : List Violation} (h : Sorted low high (v :: vs)) :
    (u ∈ v :: vs ∧ ∀ w ∈ v :: vs, u.offset ≤ w.offset) ↔ u = v := by
  have hfirst := (List.pairwise_cons.1 h.order).1
  constructor
  · rintro ⟨hmem, hsmallest⟩
    rcases List.mem_cons.1 hmem with rfl | hlater
    · rfl
    · have hle := hsmallest v (List.mem_cons_self ..)
      have hlt := hfirst u hlater
      omega
  · rintro rfl
    refine ⟨List.mem_cons_self .., List.forall_mem_cons.2 ⟨Nat.le_refl _, ?_⟩⟩
    intro w hw
    exact Nat.le_of_lt (hfirst w hw)

theorem Name.capitals_sorted (n : Name) {low high offset : Nat}
    (hlow : low ≤ offset) (hhigh : offset < high) :
    Sorted low high (n.capitals offset) := by
  unfold Name.capitals
  split
  · split
    · exact .singleton _ hlow hhigh
    · exact .nil ..
  · exact .nil ..

theorem Name.misclosed_sorted (n closing : Name) {low high offset : Nat}
    (hlow : low ≤ offset) (hhigh : offset < high) :
    Sorted low high (n.misclosed offset closing) := by
  unfold Name.misclosed
  split
  · exact .nil ..
  · exact .singleton _ hlow hhigh

/-- An element is an opening tag, its content and a closing tag. -/
theorem RawNode.byteSize_spell_element (head : Text) (name : Name)
    (as : List Attribute) (children : List RawNode) (closing : Name) :
    (RawNode.element head name as children closing).spell.byteSize
      = Text.byteSize ('<' :: (head ++ ['>']))
        + (RawNode.spellList children).byteSize
        + (closingTag closing.raw).byteSize := by
  simp only [RawNode.spell, Text.byteSize_cons, Text.byteSize_append,
    Text.byteSize_nil]
  omega

/-- Every character takes a byte. -/
theorem Text.length_le_byteSize (t : Text) : t.length ≤ t.byteSize := by
  induction t with
  | nil => exact Nat.le_refl 0
  | cons c t ih =>
      have hpos := c.utf8Size_pos
      rw [List.length_cons, Text.byteSize_cons]
      omega

mutual

/-- The violations in a node lie in it, in order. -/
theorem RawNode.violations_sorted : ∀ (n : RawNode) (start : Nat),
    Sorted start (start + n.spell.byteSize) (n.violations start)
  | .text _, _ => .nil ..
  | .comment _, _ => .nil ..
  | .element head name as children closing, start => by
    have hhead : 1 < Text.byteSize ('<' :: (head ++ ['>'])) :=
      Nat.lt_of_lt_of_le (by simp) (Text.length_le_byteSize _)
    have hclosing : 0 < (closingTag closing.raw).byteSize :=
      Nat.lt_of_lt_of_le (by simp [closingTag]) (Text.length_le_byteSize _)
    have hname : Sorted start (start + Text.byteSize ('<' :: (head ++ ['>'])))
        (name.capitals (start + 1)) :=
      name.capitals_sorted (by omega) (by omega)
    have hchildren := RawNode.violationsList_sorted children
      (start + Text.byteSize ('<' :: (head ++ ['>'])))
    rw [RawNode.violations, RawNode.byteSize_spell_element]
    refine (hname.append hchildren (by omega) (by omega)).append
      (name.misclosed_sorted closing (Nat.le_refl _) ?_) (by omega) (by omega)
    omega
  | .selfClosing head name as, start => by
    have hspell : 1 < (RawNode.selfClosing head name as).spell.byteSize :=
      Nat.lt_of_lt_of_le (by simp [RawNode.spell]) (Text.length_le_byteSize _)
    rw [RawNode.violations]
    exact name.capitals_sorted (by omega) (by omega)

/-- The violations in some nodes lie in them, in order. -/
theorem RawNode.violationsList_sorted : ∀ (ns : List RawNode) (start : Nat),
    Sorted start (start + (RawNode.spellList ns).byteSize)
      (RawNode.violationsList start ns)
  | [], _ => .nil ..
  | node :: nodes, start => by
    have hnode := RawNode.violations_sorted node start
    have hnodes :=
      RawNode.violationsList_sorted nodes (start + node.spell.byteSize)
    rw [Nat.add_assoc, ← Text.byteSize_append] at hnodes
    rw [RawNode.violationsList, RawNode.spellList]
    exact hnode.append hnodes (by omega) (by simp)

end

-- ========================================================== the check

/-- What a check finds, where `vs` are the violations on the way and
`otherwise` is what it finds behind them: the first violation, with the
text from its place on. The whole template has `size` bytes. -/
def Reported (size : Nat) (vs : List Violation)
    (found otherwise : Option (Fault × Text)) :
    Prop :=
  match vs with
  | [] => found = otherwise
  | v :: _ =>
    ∃ rest, found = some (v.fault, rest) ∧ v.offset + rest.byteSize = size

theorem Reported.append {size : Nat} {vs ws : List Violation}
    {found between otherwise : Option (Fault × Text)}
    (hvs : Reported size vs found between)
    (hws : Reported size ws between otherwise) :
    Reported size (vs ++ ws) found otherwise := by
  cases vs with
  | nil =>
      obtain rfl : found = between := hvs
      exact hws
  | cons v vs => exact hvs

/-- The check of a name at the start of a tag: a check that stops at a name
with capitals, and goes on behind any other. -/
theorem Name.reported_capitals (n : Name) {size start : Nat} {u : Text}
    (hsize : start + Text.byteSize ('<' :: u) = size)
    {found otherwise : Option (Fault × Text)}
    (hstop : ∀ fault, n.uppercase? = some fault → found = some (fault, u))
    (hpass : n.uppercase? = none → found = otherwise) :
    Reported size (n.capitals (start + 1)) found otherwise := by
  cases n with
  | literal t =>
      rw [Name.capitals]
      split
      · next hupper =>
        refine ⟨u, hstop _ (if_pos hupper), ?_⟩
        rw [← hsize, Text.byteSize_cons, Nat.add_assoc]
        rfl
      · next hlower => exact hpass (if_neg hlower)
  | placeholder t => exact hpass rfl
  | property t => exact hpass rfl
  | fragment t => exact hpass rfl

theorem Name.reported_misclosed (n closing : Name) {size offset : Nat}
    {stop : Text} (hsize : offset + stop.byteSize = size) (opened : List Text)
    (ts : List Located) :
    Reported size (n.misclosed offset closing)
      (misnamed? (n.raw :: opened) (⟨.closing closing, stop⟩ :: ts))
      (misnamed? opened ts) := by
  rw [misnamed?, Name.misclosed]
  by_cases hsame : n.raw = closing.raw
  · rw [if_pos hsame, if_pos hsame.symm]
    rfl
  · rw [if_neg hsame, if_neg (Ne.symm hsame)]
    exact ⟨stop, rfl, hsize⟩

mutual

/-- The check of a node that starts at an offset finds its first violation,
and otherwise goes on behind it. -/
theorem RawNode.reported (size : Nat) :
    ∀ (n : RawNode) (start : Nat) (rest : Text)
    (opened : List Text) (ts : List Located),
      start + (n.spell ++ rest).byteSize = size →
      Reported size (n.violations start)
        (misnamed? opened (n.tokens rest ++ ts)) (misnamed? opened ts)
  | .text _, _, _, _, _, _ => by
    simp [RawNode.violations, RawNode.tokens, misnamed?, Reported]
  | .comment _, _, _, _, _, _ => by
    simp [RawNode.violations, RawNode.tokens, misnamed?, Reported]
  | .element head name as children closing, start, rest, opened, ts, hsize => by
    -- the offsets of the content and of the closing tag
    have hsum := hsize
    rw [Text.byteSize_append, RawNode.byteSize_spell_element] at hsum
    have hchildren := RawNode.reportedList size children
      (start + Text.byteSize ('<' :: (head ++ ['>'])))
        (closingTag closing.raw ++ rest)
      (name.raw :: opened) (⟨.closing closing, closingTag closing.raw
        ++ rest⟩ :: ts)
      (by rw [Text.byteSize_append, Text.byteSize_append]; omega)
    have hclosing : Reported size
        (name.misclosed (start + Text.byteSize ('<' :: (head ++ ['>']))
          + (spellList children).byteSize) closing)
        (misnamed? (name.raw :: opened)
          (⟨.closing closing, closingTag closing.raw ++ rest⟩ :: ts))
        (misnamed? opened ts) :=
      name.reported_misclosed closing
        (by rw [Text.byteSize_append]; omega) opened ts
    have hname : Reported size (name.capitals (start + 1))
        (misnamed? opened
          ((RawNode.element head name as children closing).tokens rest ++ ts))
        (misnamed? (name.raw :: opened)
          (tokensList (closingTag closing.raw ++ rest) children
          ++ ⟨.closing closing, closingTag closing.raw ++ rest⟩ :: ts)) := by
      refine name.reported_capitals hsize ?_ ?_
      · intro fault hupper
        simp [RawNode.tokens, RawNode.spell, misnamed?, hupper]
      · intro hlower
        simp [RawNode.tokens, misnamed?, hlower]
    rw [RawNode.violations]
    exact (hname.append hchildren).append hclosing
  | .selfClosing head name as, start, rest, opened, ts, hsize => by
    refine name.reported_capitals hsize ?_ ?_
    · intro fault hupper
      simp [RawNode.tokens, RawNode.spell, misnamed?, hupper]
    · intro hlower
      simp [RawNode.tokens, misnamed?, hlower]

/-- The check of some nodes in a row finds their first violation. -/
theorem RawNode.reportedList (size : Nat) :
    ∀ (ns : List RawNode) (start : Nat) (rest : Text)
    (opened : List Text) (ts : List Located),
      start + (RawNode.spellList ns ++ rest).byteSize = size →
      Reported size (RawNode.violationsList start ns)
        (misnamed? opened (RawNode.tokensList rest ns ++ ts))
        (misnamed? opened ts)
  | [], _, _, _, _, _ => rfl
  | node :: nodes, start, rest, opened, ts, hsize => by
    rw [RawNode.spellList, List.append_assoc] at hsize
    have hnode :=
      RawNode.reported size node start (spellList nodes ++ rest) opened
        (tokensList rest nodes ++ ts) hsize
    have hnodes := RawNode.reportedList size nodes (start + node.spell.byteSize)
      rest opened ts
      (by rw [Text.byteSize_append] at hsize; omega)
    simpa [RawNode.violationsList, RawNode.tokensList] using hnode.append hnodes

end

-- ============================================================ places

/-- What stands at the place of a fault: the name with capitals, or the
wrong closing tag. -/
def Fault.culprit : Fault → Text
  | .mismatched _ found => closingTag found
  | .uppercase name => name
  | .unexpected found => found.toList

/-- The violation has its culprit at its offset in the text. -/
def Violation.StandsIn (s : Text) (v : Violation) : Prop :=
  ∃ before after, s = before ++ (v.fault.culprit ++ after)
    ∧ v.offset = before.byteSize

theorem Name.eq_of_mem_capitals {n : Name} {offset : Nat} {v : Violation}
    (h : v ∈ n.capitals offset) :
    ∃ t, n = .literal t ∧ v = ⟨.uppercase t, offset⟩ := by
  cases n with
  | literal t =>
      rw [Name.capitals] at h
      split at h
      · exact ⟨t, rfl, List.mem_singleton.1 h⟩
      · cases h
  | placeholder t => cases h
  | property t => cases h
  | fragment t => cases h

theorem Name.eq_of_mem_misclosed {n closing : Name} {offset : Nat}
    {v : Violation} (h : v ∈ n.misclosed offset closing) :
    v = ⟨.mismatched n.raw closing.raw, offset⟩ := by
  rw [Name.misclosed] at h
  split at h
  · cases h
  · exact List.mem_singleton.1 h

/-- A name with capitals stands behind the `<` of its tag. -/
theorem TagHead.standsIn {h : Text} {n : Name} {as : List Attribute}
    (head : TagHead .grammar h n as) {p r : Text} {v : Violation}
    (hv : v ∈ n.capitals (p.byteSize + 1)) :
    v.StandsIn (p ++ '<' :: (h ++ r)) := by
  obtain ⟨t, rfl, rfl⟩ := Name.eq_of_mem_capitals hv
  obtain @⟨s, w, _, _, -, -, -, -⟩ := head
  refine ⟨p ++ ['<'], s ++ (w ++ r), by simp [Fault.culprit, Name.raw], ?_⟩
  rw [Text.byteSize_append]
  rfl

/-- Every violation stands at its offset in the template. -/
theorem RawDocument.standsIn {d : Text} {ns : List RawNode}
    (h : RawDocument d ns) :
    ∀ (p r : Text), ∀ v ∈ RawNode.violationsList p.byteSize ns,
      v.StandsIn (p ++ (d ++ r)) := by
  induction h with
  | nil =>
      intro p r v hv
      cases hv
  | @text t s ns _ _ _ _ ih =>
      intro p r v hv
      rw [RawNode.violationsList, RawNode.violations, RawNode.spell,
        List.nil_append, ← Text.byteSize_append] at hv
      simpa using ih (p ++ t) r v hv
  | @comment b s ns _ _ ih =>
      intro p r v hv
      rw [RawNode.violationsList, RawNode.violations, RawNode.spell,
        List.nil_append, ← Text.byteSize_append] at hv
      simpa using ih _ r v hv
  | @selfClosing h s n as ns head _ ih =>
      intro p r v hv
      rw [RawNode.violationsList,
        RawNode.violations, ← Text.byteSize_append] at hv
      rcases List.mem_append.1 hv with hv | hv
      · simpa using head.standsIn (r := "/>".toList ++ (s ++ r)) hv
      · simpa [RawNode.spell] using ih _ r v hv
  | @element h d s n closing as children ns head hcontent hclosed _
    ihcontent ih =>
      intro p r v hv
      rw [RawNode.violationsList, RawNode.violations, ← hcontent.eq_spellList,
        ← Text.byteSize_append, ← Text.byteSize_append,
        ← Text.byteSize_append] at hv
      rcases List.mem_append.1 hv with hv | hv
      · rcases List.mem_append.1 hv with hv | hv
        · rcases List.mem_append.1 hv with hv | hv
          · have hname :=
              head.standsIn (r := '>'
                :: (d ++ (closingTag closing.raw ++ (s ++ r)))) hv
            simpa using hname
          · simpa using ihcontent _ (closingTag closing.raw ++ (s ++ r)) v hv
        · obtain rfl := Name.eq_of_mem_misclosed hv
          exact ⟨_, s ++ r, by simp [Fault.culprit], rfl⟩
      · simpa [RawNode.spell, ← hcontent.eq_spellList] using ih _ r v hv

-- ============================================================ wording

/-- A fault in names, and a message about it that has the names. -/
def Fault.NamedBy (fault : Fault) (message : Text) : Prop :=
  (∃ name, fault = .uppercase name
      ∧ message = "tag name `".toList ++ name ++ "` must be lowercase".toList)
    ∨ ∃ expected found, fault = .mismatched expected found
      ∧ message
        = "expected </".toList ++ expected ++ "> but found </".toList ++ found
          ++ ">".toList

theorem Name.namedBy_of_mem_capitals {n : Name} {offset : Nat} {v : Violation}
    (h : v ∈ n.capitals offset) : v.fault.NamedBy v.fault.message := by
  obtain ⟨t, -, rfl⟩ := Name.eq_of_mem_capitals h
  exact Or.inl ⟨t, rfl, rfl⟩

mutual

/-- Every violation is a fault in names. -/
theorem RawNode.namedBy_of_mem_violations : ∀ (n : RawNode) (start : Nat),
    ∀ v ∈ n.violations start, v.fault.NamedBy v.fault.message
  | .text _, _, _, hv => by cases hv
  | .comment _, _, _, hv => by cases hv
  | .selfClosing _ _ _, _, _, hv => Name.namedBy_of_mem_capitals hv
  | .element head name as children closing, start, v, hv => by
    rw [RawNode.violations] at hv
    rcases List.mem_append.1 hv with hv | hv
    · rcases List.mem_append.1 hv with hv | hv
      · exact Name.namedBy_of_mem_capitals hv
      · exact RawNode.namedBy_of_mem_violationsList children _ v hv
    · obtain rfl := Name.eq_of_mem_misclosed hv
      exact Or.inr ⟨name.raw, closing.raw, rfl, rfl⟩

theorem RawNode.namedBy_of_mem_violationsList :
    ∀ (ns : List RawNode) (start : Nat),
    ∀ v ∈ RawNode.violationsList start ns, v.fault.NamedBy v.fault.message
  | [], _, _, hv => by cases hv
  | node :: nodes, start, v, hv => by
    rw [RawNode.violationsList] at hv
    rcases List.mem_append.1 hv with hv | hv
    · exact RawNode.namedBy_of_mem_violations node start v hv
    · exact RawNode.namedBy_of_mem_violationsList nodes _ v hv

end

-- =========================================================== reading

/-- A template without a violation is read. -/
theorem RawDocument.parse_eq_ok {s : Text} {ns : List RawNode}
    (h : RawDocument s ns) (hvs : RawNode.violationsList 0 ns = []) :
    ∃ tree, parse s = .ok tree := by
  have hfound :=
    RawNode.reportedList s.byteSize ns 0 [] [] [] (by simp [← h.eq_spellList])
  have hstuck := h.not_stuck
  rw [hvs, List.append_nil] at hfound
  have hnone : misnamed? [] (RawNode.tokensList [] ns) = none := hfound
  rw [h.readAll] at hstuck
  exact ⟨document ((RawNode.tokensList [] ns).map Located.token),
    by simp [parse, h.readAll, hstuck, hnone]⟩

/-- A template with a violation is rejected at the first. -/
theorem RawDocument.parse_eq_error {s : Text} {ns : List RawNode}
    (h : RawDocument s ns) {v : Violation} {vs : List Violation}
    (hvs : RawNode.violationsList 0 ns = v :: vs) :
    parse s = .error ⟨v.fault, .ofOffset s v.offset⟩ := by
  have hfound :=
    RawNode.reportedList s.byteSize ns 0 [] [] [] (by simp [← h.eq_spellList])
  have hstuck := h.not_stuck
  rw [hvs, List.append_nil] at hfound
  obtain ⟨rest, hsome, hsize⟩ := hfound
  rw [h.readAll] at hstuck
  have hoffset : s.byteSize - rest.byteSize = v.offset := by omega
  simp [parse, h.readAll, hstuck, hsome, TemplateError.atRest,
    Position.ofRest, hoffset]

/-- The grammar accepts a template exactly if reading it does not get stuck.
Such a template is rejected exactly if it breaks a rule on names, and the
error is that of the violation with the smallest offset. Each violation
stands at its offset, and the report of it has the names in it. -/
theorem parse_eq_error_iff_violation (s : Text) :
    ((∃ ns, RawDocument s ns)
        ↔ stuck? (Token.readAll .grammar s).2 0 (Token.readAll .grammar s).1
          = none)
      ∧ ∀ ns, RawDocument s ns →
        ((∃ e, parse s = .error e) ↔ ∃ v, v ∈ RawNode.violationsList 0 ns)
          ∧ (∀ v ∈ RawNode.violationsList 0 ns, v.StandsIn s)
          ∧ (∀ e, parse s = .error e
            ↔ ∃ v ∈ RawNode.violationsList 0 ns,
              (∀ w ∈ RawNode.violationsList 0 ns, v.offset ≤ w.offset)
                ∧ e = ⟨v.fault, .ofOffset s v.offset⟩)
          ∧ ∀ e, parse s = .error e → e.fault.NamedBy e.diagnostic.message := by
  refine ⟨rawDocument_iff s, ?_⟩
  intro ns h
  have hplaces : ∀ v ∈ RawNode.violationsList 0 ns, v.StandsIn s := by
    intro v hv
    simpa using h.standsIn [] [] v hv
  have hsorted := RawNode.violationsList_sorted ns 0
  refine ⟨?_, hplaces, ?_, ?_⟩
  · cases hvs : RawNode.violationsList 0 ns with
    | nil =>
        obtain ⟨tree, htree⟩ := h.parse_eq_ok hvs
        simp [htree]
    | cons v vs =>
        refine ⟨fun _ => ⟨v, List.mem_cons_self ..⟩,
          fun _ => ⟨_, h.parse_eq_error hvs⟩⟩
  · intro e
    cases hvs : RawNode.violationsList 0 ns with
    | nil =>
        obtain ⟨tree, htree⟩ := h.parse_eq_ok hvs
        simp [htree]
    | cons v vs =>
        rw [hvs] at hsorted
        rw [h.parse_eq_error hvs, Except.error.injEq]
        constructor
        · rintro rfl
          obtain ⟨hmem, hsmallest⟩ := hsorted.smallest_iff.2 rfl
          exact ⟨v, hmem, hsmallest, rfl⟩
        · rintro ⟨u, hmem, hsmallest, rfl⟩
          rw [hsorted.smallest_iff.1 ⟨hmem, hsmallest⟩]
  · intro e he
    cases hvs : RawNode.violationsList 0 ns with
    | nil =>
        obtain ⟨tree, htree⟩ := h.parse_eq_ok hvs
        cases he.symm.trans htree
    | cons v vs =>
        cases he.symm.trans (h.parse_eq_error hvs)
        exact RawNode.namedBy_of_mem_violationsList ns 0 v (by simp [hvs])

/-- A document between two tags without attributes. -/
theorem RawDocument.bare {d : Text} {children : List RawNode}
    (h : RawDocument d children) (n closing : Name) (hname : n.Writable)
    (hclosed : closing.Writable) :
    RawDocument ('<' :: (n.raw ++ '>' :: (d ++ closingTag closing.raw)))
      [.element n.raw n [] children closing] := by
  have hhead : TagHead .grammar (n.raw ++ ([] ++ [])) n [] :=
    .intro hname .nil (by simp) n.endsBefore_nil
  simpa using RawDocument.element hhead h hclosed .nil

/-- A tag with a capital in its name, with a wrong closing tag, inside a tag
with another: the capital comes first. -/
theorem parse_eq_error_capital :
    ∃ ns, RawDocument "<a><B>x</c></d>".toList ns
      ∧ RawNode.violationsList 0 ns
        = [⟨.uppercase "B".toList, 4⟩, ⟨.mismatched "B".toList "c".toList, 7⟩,
          ⟨.mismatched "a".toList "d".toList, 11⟩]
      ∧ parse "<a><B>x</c></d>".toList
        = .error ⟨.uppercase "B".toList, ⟨4, 1, 5⟩⟩
      ∧ Fault.NamedBy (.uppercase "B".toList)
        "tag name `B` must be lowercase".toList := by
  have htext : RawDocument "x".toList [.text "x".toList] :=
    .text (t := "x".toList) (s := []) (by decide) (by decide) rfl .nil
  have hinner := htext.bare (.literal "B".toList) (.literal "c".toList)
    ⟨rfl, by simp⟩ ⟨rfl, by simp⟩
  have houter := hinner.bare (.literal "a".toList) (.literal "d".toList)
    ⟨rfl, by simp⟩ ⟨rfl, by simp⟩
  obtain ⟨-, -, hreport, hworded⟩ := (parse_eq_error_iff_violation _).2 _ houter
  have herror : parse "<a><B>x</c></d>".toList
      = .error ⟨.uppercase "B".toList, ⟨4, 1, 5⟩⟩ := by
    refine (hreport _).2 ⟨⟨.uppercase "B".toList, 4⟩, ?_⟩
    decide +kernel
  exact ⟨_, houter, by decide +kernel, herror, hworded _ herror⟩

end Stencil
