/-
One-line calls say all about the tree. What is printed for a prepared tree
is code for it, in the sense of `Calls.Code`, and for no other tree, except
that a tag without content is the same in both its spellings
(`Node.expanded`). So the code has every attribute and every child in its
place and nothing else, and two trees with the same code are the same.
-/
import Stencil.Proofs.Output.CallGrammar
import Stencil.Proofs.Preparation

namespace Stencil

mutual

/-- A node with every tag that closes itself written with a closing tag. -/
def Node.expanded : Node → Node
  | .text v => .text v
  | .comment b => .comment b
  | .element n as children => .element n as (Node.expandedList children)
  | .selfClosing n as => .element n as []

/-- The nodes of a list so written, in order. -/
def Node.expandedList : List Node → List Node
  | [] => []
  | n :: ns => n.expanded :: Node.expandedList ns

end

theorem Node.expandedList_eq_map (ns : List Node) :
    Node.expandedList ns = ns.map Node.expanded := by
  induction ns with
  | nil => rw [Node.expandedList, List.map_nil]
  | cons n ns ih => rw [Node.expandedList, ih, List.map_cons]

/-- A reference as a name is printed without its braces. -/
theorem Name.argument_referenceMarker (m : Text) :
    Name.argument (.property (referenceMarker m)) = reference m := by
  simp [Name.argument, Name.bound?, Name.propertyExpr?, referenceMarker]

namespace Calls

-- ======================================================= expressions

theorem lookup_reference (m : Text) : Lookup (reference m) m := by
  unfold reference
  split
  · next hname => exact .dot hname
  · rw [List.append_assoc]
    exact .bracket (Json.stringLiteral_quote m)

theorem Sum.of_eq {back : Text → Text} {e v : Text}
    (operands : List (Text × Text)) (hne : operands ≠ [])
    (heach : ∀ p ∈ operands, Operand back p.1 p.2)
    (he : e = joined '+' operands) (hv : v = (operands.map Prod.snd).flatten) :
    Sum back e v := by
  subst he hv
  exact .intro hne heach

/-- The expression of a text is a sum for it, if what stands for each of
its markers is an operand for the marker. -/
theorem sum_expression {back : Text → Text} {mode : ExpressionMode} {v : Text}
    (hbraced : mode.braced = false) (hquoted : mode.quoted = true)
    (hspaced : mode.spaced = false)
    (hmarkers : ∀ m ∈ markers v,
      Operand back (Segment.operand mode (.marker m))
        (Segment.source (.marker m))) :
    Sum back (expression mode v) v := by
  by_cases hany : (Segment.split v).any Segment.isMarker
  · refine Sum.of_eq ((Segment.split v).map fun g => (g.operand mode, g.source))
      ?_ ?_ ?_ ?_
    · intro hnil
      rw [List.map_eq_nil_iff] at hnil
      simp [hnil] at hany
    · intro p hp
      obtain ⟨g, hg, rfl⟩ := List.mem_map.1 hp
      cases g with
      | literal t => exact .literal (Json.stringLiteral_quote t)
      | marker m => exact hmarkers m (List.mem_filterMap.2 ⟨_, hg, rfl⟩)
    · simp [expression, hany, hbraced, hspaced, joined, Function.comp_def]
    · rw [List.map_map, ← List.flatMap_def]
      exact (Segment.flatMap_source_split v).symm
  · refine Sum.of_eq [(v.quote, v)] (by simp) ?_ ?_ (by simp)
    · intro p hp
      obtain rfl := List.mem_singleton.1 hp
      exact .literal (Json.stringLiteral_quote v)
    · simp [expression, hany, hquoted, joined]

-- ========================================================= arguments

theorem tag_argument {n : Name} (h : n.Prepared) : Tag n.argument n := by
  cases n with
  | literal t => exact .literal (Json.stringLiteral_quote t)
  | placeholder t => cases h
  | property t =>
      obtain ⟨m, rfl⟩ := h
      rw [Name.argument_referenceMarker]
      exact .property (lookup_reference m)
  | fragment t =>
      obtain rfl : t = [] := h
      exact .fragment

theorem key_attributeKey (name : Text) : Key (attributeKey name) name := by
  unfold attributeKey
  split
  · next hname => exact .plain hname
  · exact .quoted (Json.stringLiteral_quote name)

theorem entry_attribute (step : Nat) (a : Attribute) :
    Entry (a.entry ⟨false, step⟩) a := by
  have hvalue : Sum (fun m => Segment.source (.marker m))
      (expression ⟨false, true, true, false⟩ a.value) a.value :=
    sum_expression rfl rfl rfl fun m _ => .lookup (lookup_reference m)
  have hentry := Entry.intro (key_attributeKey a.name) hvalue
  simpa [Attribute.entry, Style.space] using hentry

theorem attributes_argument (step column : Nat) (as : List Attribute) :
    Attributes (Attribute.argument ⟨false, step⟩ column as) as := by
  by_cases has : as = []
  · subst has
    exact .null
  · have heach : ∀ p ∈ as.map (fun a => (Attribute.entry ⟨false, step⟩ a, a)),
        Entry p.1 p.2 := by
      intro p hp
      obtain ⟨a, -, rfl⟩ := List.mem_map.1 hp
      exact entry_attribute step a
    have hobject := Attributes.object (by simpa using has) heach
    simpa [Attribute.argument, has, Style.space, joined, Function.comp_def]
      using hobject

-- ============================================================= nodes

/-- Where every node has an expression, none is left out. -/
theorem callsList_eq_map {style : Style} {column : Nat} {ns : List Node}
    (h : ∀ n ∈ ns, n.calls style column false ≠ []) :
    Node.callsList style column ns
      = ns.map (Node.calls style column false) := by
  induction ns with
  | nil => rw [Node.callsList, List.map_nil]
  | cons n ns ih =>
      have hn : ¬ (n.calls style column false).isEmpty := by
        simpa using h n (List.mem_cons_self ..)
      rw [Node.callsList, if_neg hn,
        ih fun m hm => h m (List.mem_cons_of_mem _ hm), List.map_cons]

theorem Code.ne_nil {s : Text} {n : Node} (h : Code false s n) : s ≠ [] := by
  intro hs
  subst hs
  rcases h.head with hhead | hhead | hhead
  · cases hhead
  · cases hhead
  · cases hhead

/-- A call on one line, from the parts it is made of. -/
theorem code_call (isRoot : Bool) {n : Name} (hname : n.Prepared)
    (as : List Attribute) (step column : Nat) {items : List (Text × Node)}
    (hitems : ∀ p ∈ items, Code false p.1 p.2) :
    Code isRoot
      (callHead ⟨false, step⟩ column isRoot n as
        ++ childrenArgument ⟨false, step⟩ column (items.map Prod.fst) ++ [')'])
      (.element n as (items.map Prod.snd)) := by
  have hcall : Code isRoot _ _ :=
    .call (tag_argument hname) (attributes_argument step column as) hitems
  have hcontent : childrenArgument ⟨false, step⟩ column (items.map Prod.fst)
      = '[' :: (joined ',' items ++ [']']) := by
    unfold childrenArgument
    split
    · next hempty => simp_all [joined]
    · simp [spread, Style.lead, joined]
  rw [hcontent, callHead]
  simpa [Style.space] using hcall

/-- What is printed for a prepared node is code for it. -/
theorem code_calls {n : Node} (h : n.Prepared) (step : Nat) :
    ∀ (column : Nat) (isRoot : Bool), (isRoot → n.isTag) →
      Code isRoot (n.calls ⟨false, step⟩ column isRoot) n.expanded := by
  induction h with
  | @text v hresolved =>
      intro column isRoot hroot
      cases isRoot with
      | true => cases hroot rfl
      | false =>
          rw [Node.calls, Node.expanded]
          refine .text (sum_expression rfl rfl rfl ?_)
          -- a marker holds the reference that is printed for it
          intro m hm
          obtain ⟨name, rfl⟩ := hresolved m hm
          exact .lookup (lookup_reference name)
  | @element n as children hname _ ih =>
      intro column isRoot _
      have hitems : ∀ p ∈ children.map (fun c =>
          (c.calls ⟨false, step⟩ (column + step) false, c.expanded)),
            Code false p.1 p.2 := by
        intro p hp
        obtain ⟨c, hc, rfl⟩ := List.mem_map.1 hp
        exact ih c hc (column + step) false (by simp)
      have hlist : Node.callsList ⟨false, step⟩ (column + step) children
          = children.map (Node.calls ⟨false, step⟩ (column + step) false) :=
        callsList_eq_map fun c hc =>
          (ih c hc (column + step) false (by simp)).ne_nil
      have hcall := code_call isRoot hname as step column hitems
      rw [List.map_map, List.map_map] at hcall
      rw [Node.calls, Node.expanded, Node.expandedList_eq_map, hlist]
      exact hcall
  | @selfClosing n as hname =>
      intro column isRoot _
      have hitems : ∀ p ∈ ([] : List (Text × Node)),
          Code false p.1 p.2 := by simp
      rw [Node.calls, Node.expanded]
      exact code_call isRoot hname as step column hitems

end Calls

-- ========================================================== the code

/-- The code of a template on one line. -/
theorem code_callBody {s : Text} {ns : List Node} (h : parse s = .ok ns)
    (keep : Bool) (step column : Nat) (names : CallNames) :
    Calls.Code true
      (callBody ⟨false, step⟩ column names (normalRoot keep ns)).result
      (normalRoot keep ns).expanded := by
  have htag := isTag_normalRoot keep ns
  rw [callBody_eq, Node.asRoot_of_isTag htag]
  exact Calls.code_calls (prepared_normalRoot h keep)
    step column true fun _ => htag

/-- The code of a template on one line reads back as its tree and as no
other, and two templates with the same code have the same tree. -/
theorem callBody_readBack {s : Text} {ns : List Node} (h : parse s = .ok ns)
    (keep : Bool) (step column : Nat) (names : CallNames) :
    (∀ n, Calls.Code true (callBody ⟨false, step⟩ column names
      (normalRoot keep ns)).result n
        ↔ n = (normalRoot keep ns).expanded)
      ∧ ∀ {s' : Text} {ns' : List Node}, parse s' = .ok ns' →
        ∀ (keep' : Bool) (step' column' : Nat) (names' : CallNames),
          (callBody ⟨false, step⟩ column names (normalRoot keep ns)).result
              = (callBody ⟨false, step'⟩ column' names'
                (normalRoot keep' ns')).result →
            (normalRoot keep ns).expanded
              = (normalRoot keep' ns').expanded := by
  have hcode := code_callBody h keep step column names
  refine ⟨?_, ?_⟩
  · intro n
    constructor
    · intro hn
      exact hn.unique hcode
    · intro hn
      rw [hn]
      exact hcode
  · intro s' ns' h' keep' step' column' names' heq
    rw [heq] at hcode
    exact hcode.unique (code_callBody h' keep' step' column' names')

/-- The tree of a greeting. -/
theorem parse_greeting : parse "<p>hi \x7ba\x7d</p>".toList
    = .ok [.element (.literal "p".toList) []
      [.text "hi \x7ba\x7d".toList]] := by
  have hcontent : Document "hi \x7ba\x7d".toList
      [.text "hi \x7ba\x7d".toList] :=
    .textAlone (by decide) (by decide)
  exact (hcontent.bare (n := .literal "p".toList) ⟨rfl, by simp⟩
    (by simp [Name.IsLower])).parse_eq

/-- The greeting and its code. -/
theorem callBody_readBack_greeting :
    ∃ ns, parse "<p>hi \x7ba\x7d</p>".toList = .ok ns
      ∧ ∀ n, Calls.Code true "jsxs(\"p\",null,[\"hi \"+props.a])".toList n
        ↔ n = (normalRoot false ns).expanded := by
  have hcode : (callBody ⟨false, 2⟩ 0 {} (normalRoot false
      [.element (.literal "p".toList) [] [.text "hi \x7ba\x7d".toList]])).result
      = "jsxs(\"p\",null,[\"hi \"+props.a])".toList := by decide +kernel
  refine ⟨_, parse_greeting, ?_⟩
  rw [← hcode]
  exact (callBody_readBack parse_greeting false 2 0 {}).1

end Stencil
