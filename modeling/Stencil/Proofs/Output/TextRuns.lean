/-
Texts next to each other in markup. A marker that a template has in one of
its texts comes out as a reference. But a comment between two texts leaves
nothing behind, and the markup joins what stood on its two sides, so that
an opening brace on one side can meet a closing brace on the other. What
then stands between the two is no reference: it is whatever the template
has there.

The main result says when this happens. A run of texts has the markers of
its texts, all of them references, exactly if none of its texts opens a
brace that a later one closes (`textRun_markers_iff`); there is a template
for which it fails (`textRun_alert`).

Escaping line breaks, which is all that one-line markup does to a text,
gives every character some characters of its own and touches no brace.
Whatever is said about braces therefore holds of a text before and after.
-/
import Stencil.Proofs.Preparation

namespace Stencil

-- ================================================ escaped line breaks

theorem markupText_append (style : Style) (s t : Text) :
    markupText style (s ++ t) = markupText style s ++ markupText style t := by
  unfold markupText
  split
  · rfl
  · exact List.flatMap_append

theorem markupText_cons (style : Style) (c : Char) (t : Text) :
    markupText style (c :: t) = markupText style [c] ++ markupText style t :=
  markupText_append style [c] t

@[simp]
theorem markupText_nil (style : Style) : markupText style [] = [] := by
  unfold markupText
  split <;> rfl

/-- Only a line break is written as anything else. -/
theorem markupText_singleton (style : Style) {c : Char} (hc : c ≠ '\n') :
    markupText style [c] = [c] := by
  unfold markupText
  split
  · rfl
  · simp [hc]

/-- What a line break is written as has no brace. -/
theorem mem_markupText_break (style : Style) {c : Char}
    (hc : c ∈ markupText style ['\n']) :
    c ≠ '{' ∧ c ≠ '}' := by
  unfold markupText at hc
  split at hc
  · obtain rfl := List.mem_singleton.1 hc
    decide
  · have hletter : c = '\\' ∨ c = 'n' := by simpa using hc
    rcases hletter with rfl | rfl
    · decide
    · decide

theorem markupText_ne_nil (style : Style) {t : Text} (h : t ≠ []) :
    markupText style t ≠ [] := by
  cases t with
  | nil => exact absurd rfl h
  | cons c t =>
      rw [markupText_cons]
      by_cases hc : c = '\n'
      · subst hc
        unfold markupText
        split <;> simp
      · simp [markupText_singleton style hc]

/-- Without line breaks there is nothing to escape. -/
theorem markupText_eq_self (style : Style) {t : Text} (h : '\n' ∉ t) :
    markupText style t = t := by
  induction t with
  | nil => exact markupText_nil style
  | cons c t ih =>
      have hc : c ≠ '\n' := fun hc => h (hc ▸ List.mem_cons_self ..)
      rw [markupText_cons, markupText_singleton style hc,
        ih fun hmem => h (List.mem_cons_of_mem _ hmem), List.singleton_append]

/-- The characters that escaping leaves alone and never writes. -/
def IsBrace (d : Char) : Prop := d = '{' ∨ d = '}'

/-- The characters of a text other than `d` are written without `d`. -/
theorem notMem_markupText_singleton (style : Style) {c d : Char}
    (hd : IsBrace d) (hc : c ≠ d) : d ∉ markupText style [c] := by
  intro hmem
  by_cases hbreak : c = '\n'
  · subst hbreak
    rcases hd with rfl | rfl
    · exact (mem_markupText_break style hmem).1 rfl
    · exact (mem_markupText_break style hmem).2 rfl
  · rw [markupText_singleton style hbreak, List.mem_singleton] at hmem
    exact hc hmem.symm

theorem IsBrace.markupText_singleton {d : Char} (hd : IsBrace d)
    (style : Style) :
    markupText style [d] = [d] :=
  Stencil.markupText_singleton style (by rcases hd with rfl | rfl <;> decide)

/-- A character that a text lacks stands behind it. -/
theorem Text.exists_of_append_eq {p w a b : Text} {d : Char} (hp : d ∉ p)
    (h : p ++ w = a ++ d :: b) : ∃ a', a = p ++ a' ∧ w = a' ++ d :: b := by
  rcases List.append_eq_append_iff.1 h with ⟨a', rfl, hw⟩ | ⟨q, rfl, hq⟩
  · exact ⟨a', rfl, hw⟩
  · cases q with
    | nil => exact ⟨[], by simp, hq.symm⟩
    | cons x q =>
        obtain ⟨rfl, -⟩ := List.cons.inj hq
        exact absurd (by simp) hp

/-- A brace that is written was there, with what is written on its sides. -/
theorem markupText_eq_append_cons (style : Style) {d : Char} (hd : IsBrace d)
    {v : Text} :
    ∀ {a b : Text}, markupText style v = a ++ d :: b →
      ∃ a' b', v = a' ++ d :: b' ∧ a = markupText style a'
        ∧ b = markupText style b' := by
  induction v with
  | nil =>
      intro a b h
      simp at h
  | cons c v ih =>
      intro a b h
      rw [markupText_cons] at h
      by_cases hc : c = d
      · subst hc
        rw [hd.markupText_singleton, List.singleton_append] at h
        cases a with
        | nil =>
            obtain ⟨-, rfl⟩ := List.cons.inj h
            exact ⟨[], v, rfl, (markupText_nil style).symm, rfl⟩
        | cons x a =>
            obtain ⟨rfl, htail⟩ := List.cons.inj h
            obtain ⟨a', b', rfl, rfl, rfl⟩ := ih htail
            refine ⟨c :: a', b', rfl, ?_, rfl⟩
            rw [markupText_cons, hd.markupText_singleton, List.singleton_append]
      · -- the brace lies behind everything that `c` is written as
        have hnot := notMem_markupText_singleton style hd hc
        obtain ⟨a', rfl, htail⟩ := Text.exists_of_append_eq hnot h
        obtain ⟨a', b', rfl, rfl, rfl⟩ := ih htail
        exact ⟨c :: a', b', rfl, (markupText_cons ..).symm, rfl⟩

/-- A brace is written exactly if it is there. -/
theorem IsBrace.mem_markupText_iff {d : Char} (hd : IsBrace d) (style : Style)
    {v : Text} :
    d ∈ markupText style v ↔ d ∈ v := by
  constructor
  · intro hmem
    obtain ⟨a, b, hsplit⟩ := List.append_of_mem hmem
    obtain ⟨a', b', rfl, -⟩ := markupText_eq_append_cons style hd hsplit
    simp
  · intro hmem
    obtain ⟨a, b, rfl⟩ := List.append_of_mem hmem
    rw [markupText_append, markupText_cons, hd.markupText_singleton]
    simp

-- ================================================= markers as written

/-- Nothing before the first opening brace is in a marker. -/
theorem markers_append_of_notMem {p : Text} (hp : '{' ∉ p) (t : Text) :
    markers (p ++ t) = markers t := by
  rw [markers_append]
  · have hnil : markers p = [] := by
      induction p with
      | nil => exact markers_nil
      | cons c p ih =>
          have hc : c ≠ '{' := fun hc => hp (hc ▸ List.mem_cons_self ..)
          rw [markers_plain hc, ih fun hmem => hp (List.mem_cons_of_mem _ hmem)]
    rw [hnil, List.nil_append]
  · intro hopens
    obtain ⟨a, b, -, -, rfl, -⟩ := hopens
    exact hp (by simp)

/-- A text is written with its markers as they are written. -/
theorem markers_markupText (style : Style) (t : Text) :
    markers (markupText style t) = (markers t).map (markupText style) := by
  have hopen : markupText style ['{'] = ['{'] :=
    markupText_singleton style (by decide)
  have hclose : markupText style ['}'] = ['}'] :=
    markupText_singleton style (by decide)
  have hmem : ∀ {v : Text}, '}' ∉ v → '}' ∉ markupText style v := by
    intro v hv h
    exact hv ((IsBrace.mem_markupText_iff (Or.inr rfl) style).1 h)
  induction t using Text.braceInduction with
  | nil => simp
  | plain c t hc ih =>
      rw [markupText_cons, markers_plain hc,
        markers_append_of_notMem
          (notMem_markupText_singleton style (Or.inl rfl) hc), ih]
  | marker m r hm hne ih =>
      rw [markers_marker hm hne, List.map_cons, ← ih,
        ← markers_marker (hmem hm) (markupText_ne_nil style hne)]
      rw [markupText_cons, markupText_append, markupText_cons style '}',
        hopen, hclose]
      rfl
  | hollow t ih =>
      have hrest : markupText style ('}' :: t) = '}' :: markupText style t := by
        rw [markupText_cons, hclose, List.singleton_append]
      rw [markupText_cons, hopen, markers_stray (Or.inr ⟨t, rfl⟩), ← ih]
      exact markers_stray (Or.inr ⟨_, hrest⟩)
  | unclosed t ht ih =>
      rw [markupText_cons, hopen, markers_stray (Or.inl ht), ← ih]
      exact markers_stray (Or.inl (hmem ht))

/-- A marker spans two texts as they are written exactly if it spans them. -/
theorem opensInto_markupText_iff (style : Style) {v w : Text} :
    OpensInto (markupText style v) (markupText style w) ↔ OpensInto v w := by
  have hopen : markupText style ['{'] = ['{'] :=
    markupText_singleton style (by decide)
  have hclose : markupText style ['}'] = ['}'] :=
    markupText_singleton style (by decide)
  have hmem : ∀ {v : Text}, '}' ∉ markupText style v ↔ '}' ∉ v :=
    not_congr (IsBrace.mem_markupText_iff (Or.inr rfl) style)
  constructor
  · intro h
    obtain ⟨a, b, p, q, hv, hb, hw, hp, hne⟩ := h
    obtain ⟨a, b, rfl, rfl, rfl⟩ :=
      markupText_eq_append_cons style (Or.inl rfl) hv
    obtain ⟨p, q, rfl, rfl, rfl⟩ :=
      markupText_eq_append_cons style (Or.inr rfl) hw
    refine ⟨a, b, p, q, rfl, hmem.1 hb, rfl, hmem.1 hp, ?_⟩
    intro hnil
    rw [← markupText_append, hnil] at hne
    exact hne (markupText_nil style)
  · intro h
    obtain ⟨a, b, p, q, rfl, hb, rfl, hp, hne⟩ := h
    refine ⟨markupText style a, markupText style b, markupText style p,
      markupText style q, ?_, hmem.2 hb, ?_, hmem.2 hp, ?_⟩
    · rw [markupText_append, markupText_cons, hopen, List.singleton_append]
    · rw [markupText_append, markupText_cons, hclose, List.singleton_append]
    · rw [← markupText_append]
      exact markupText_ne_nil style hne

theorem flatten_map_markupText (style : Style) (run : List Text) :
    (run.map (markupText style)).flatten = markupText style run.flatten := by
  induction run with
  | nil => simp
  | cons v run ih =>
      rw [List.map_cons, List.flatten_cons, ih, List.flatten_cons,
        markupText_append]

theorem spansRun_markupText_iff (style : Style) (run : List Text) :
    SpansRun (run.map (markupText style)) ↔ SpansRun run := by
  induction run with
  | nil => rfl
  | cons v run ih =>
      rw [List.map_cons, SpansRun, SpansRun, ih, flatten_map_markupText,
        opensInto_markupText_iff]

-- ================================================= nodes in the code

theorem Node.markupList_append (style : Style) (b : Bindings) (column : Nat)
    (ns ns' : List Node) : Node.markupList style b column (ns ++ ns')
      = Node.markupList style b column ns
        ++ Node.markupList style b column ns' := by
  induction ns with
  | nil => rfl
  | cons n ns ih =>
      rw [List.cons_append, Node.markupList, ih, Node.markupList,
        List.append_assoc]

/-- On one line, texts next to each other are written without a break. -/
theorem Node.markupList_texts (step : Nat) (b : Bindings) (column : Nat)
    (run : List Text) :
    Node.markupList ⟨false, step⟩ b column (run.map .text)
      = (run.map (markupText ⟨false, step⟩)).flatten := by
  induction run with
  | nil => rfl
  | cons v run ih =>
      rw [List.map_cons, Node.markupList, ih, Node.markup, List.map_cons,
        List.flatten_cons]
      rfl

theorem Node.markup_infix_markupList (style : Style) (b : Bindings)
    (column : Nat) {n : Node} {ns : List Node} (h : n ∈ ns) :
    n.markup style b column <:+: Node.markupList style b column ns := by
  obtain ⟨before, after, rfl⟩ := List.append_of_mem h
  rw [Node.markupList_append, Node.markupList]
  exact ⟨_, _, List.append_assoc ..⟩

theorem Node.markupList_infix_markup (style : Style) (b : Bindings)
    (column : Nat) (name : Name) (attributes : List Attribute)
    (children : List Node) :
    Node.markupList style b (column + style.step) children
      <:+: (Node.element name attributes children).markup style b column := by
  rw [Node.markup]
  exact ⟨_, _, rfl⟩

/-- The markup of a tree has that of every node in it. -/
theorem Node.Contains.markup_infix {r n : Node} (h : r.Contains n)
    (style : Style) (b : Bindings) (column : Nat) :
    ∃ inner, n.markup style b inner <:+: r.markup style b column := by
  induction h generalizing column with
  | root => exact ⟨column, List.infix_rfl⟩
  | child hmem _ ih =>
      obtain ⟨inner, hinner⟩ := ih (column + style.step)
      refine ⟨inner, hinner.trans ?_⟩
      exact (Node.markup_infix_markupList style b _ hmem).trans
        (Node.markupList_infix_markup ..)

/-- A text that starts and ends with a character has no white space around
it. -/
theorem Text.trim_eq_self {t : Text} {c d : Char} (hfirst : t.head? = some c)
    (hlast : t.getLast? = some d) (hc : isBlank c = false)
    (hd : isBlank d = false) :
    trim t = t := by
  obtain ⟨u, rfl⟩ := List.head?_eq_some_iff.1 hfirst
  have hstart : trimStart (c :: u) = c :: u :=
    List.dropWhile_cons_of_neg (by simp [hc])
  obtain ⟨w, hw⟩ := List.getLast?_eq_some_iff.1 hlast
  rw [trim, hstart, hw, trimEnd, List.reverse_append, List.reverse_singleton,
    List.singleton_append, List.dropWhile_cons_of_neg (by simp [hd])]
  simp

/-- The code of a tag on one line is its markup as it is. -/
theorem markupBody_result {n : Node} (h : n.isTag) (step column : Nat) :
    (markupBody ⟨false, step⟩ column n).result
      = n.markup ⟨false, step⟩ n.bindings column := by
  have hends : (n.markup ⟨false, step⟩ n.bindings column).head? = some '<'
      ∧ (n.markup ⟨false, step⟩ n.bindings column).getLast? = some '>' := by
    cases n with
    | text v => cases h
    | comment b => cases h
    | element name as children =>
        simp [Node.markup, tagHead, openTag, tagEnd, closeTag, Style.lead,
          List.getLast?_cons]
    | selfClosing name as =>
        simp [Node.markup, tagHead, openTag, Style.lead, List.getLast?_cons]
  rw [markupBody_eq, Node.asRoot_of_isTag h]
  simp only [Bool.false_and, Bool.false_eq_true, if_false]
  exact Text.trim_eq_self hends.1 hends.2 (by decide) (by decide)

-- ============================================================ the run

/-- A reference is written as it is. -/
theorem markupText_reference (style : Style) (name : Text) :
    markupText style (reference name) = reference name := by
  refine markupText_eq_self style fun hmem => ?_
  have hshown := (of_mem_reference hmem).1
  revert hshown
  decide

/-- The markers of a prepared text as it is written hold references. -/
theorem reference_of_mem_markers {style : Style} {v m : Text}
    (hv : (Node.text v).Prepared) (hm : m ∈ markers (markupText style v)) :
    ∃ name, m = reference name := by
  cases hv with
  | text hresolved =>
      rw [markers_markupText] at hm
      obtain ⟨m, hmem, rfl⟩ := List.mem_map.1 hm
      obtain ⟨name, rfl⟩ := hresolved m hmem
      exact ⟨name, markupText_reference style name⟩

/-- Take any texts next to each other in a tag of a prepared template, and
what one-line markup writes for them. Joining them makes no new marker, and
every marker is a reference, exactly if none of the texts opens a brace that
a later one closes. -/
theorem textRun_markers_iff {s : Text} {ns : List Node}
    (hparse : parse s = .ok ns) (keep : Bool) (step column : Nat) {name : Name}
    {attributes : List Attribute} {before after : List Node} {run : List Text}
    (htag : (normalRoot keep ns).Contains
      (.element name attributes (before ++ run.map .text ++ after))) :
    let style : Style := ⟨false, step⟩
    let root := normalRoot keep ns
    let joined := Node.markupList style root.bindings column (run.map .text)
    joined <:+: (markupBody style column root).result ∧
      ((markers joined = run.flatMap (fun v => markers (markupText style v))
          ∧ ∀ m ∈ markers joined, ∃ name, m = reference name)
        ↔ ¬ SpansRun run) := by
  intro style root joined
  have hjoined : joined = (run.map (markupText style)).flatten :=
    Node.markupList_texts step root.bindings column run
  have hprepared : ∀ v ∈ run, (Node.text v).Prepared := by
    intro v hv
    cases (prepared_normalRoot hparse keep).of_contains htag with
    | element _ hcontent =>
        refine hcontent (.text v) ?_
        simp [hv]
  have hmarkers : markers joined
      = run.flatMap (fun v => markers (markupText style v))
      ↔ ¬ SpansRun run := by
    rw [← spansRun_markupText_iff style, ← markers_flatten_iff, hjoined,
      List.flatMap_map]
  refine ⟨?_, ?_, ?_⟩
  · -- the markup of the run lies in that of its tag, and this in the code
    obtain ⟨inner, hinner⟩ := htag.markup_infix style root.bindings column
    have hrun : joined
        <:+: Node.markupList style root.bindings (inner + style.step)
        (before ++ run.map .text ++ after) := by
      rw [Node.markupList_append, Node.markupList_append,
        Node.markupList_texts, ← hjoined]
      exact ⟨_, _, rfl⟩
    rw [markupBody_result (isTag_normalRoot keep ns)]
    exact (hrun.trans (Node.markupList_infix_markup ..)).trans hinner
  · intro h
    exact hmarkers.1 h.1
  · intro hspan
    refine ⟨hmarkers.2 hspan, ?_⟩
    intro m hm
    rw [hmarkers.2 hspan] at hm
    obtain ⟨v, hv, hm⟩ := List.mem_flatMap.1 hm
    exact reference_of_mem_markers (hprepared v hv) hm

/-- A paragraph that holds a text, an empty comment and another text. -/
theorem parse_paragraph {t u : Text} (ht : t ≠ []) (htplain : '<' ∉ t)
    (hu : u ≠ []) (huplain : '<' ∉ u) :
    parse ("<p>".toList ++ (t ++ ("<!---->".toList ++ u)) ++ "</p>".toList)
      = .ok [.element (.literal "p".toList) [] [.text t, .comment [],
        .text u]] := by
  have hcontent : Document (t ++ ("<!---->".toList ++ u)) [.text t, .comment [],
      .text u] := by
    refine .text ht htplain rfl (.comment (b := []) ?_ (.textAlone hu huplain))
    unfold IsCommentBody
    decide
  have hbare :=
    hcontent.bare (n := .literal "p".toList) ⟨rfl, by simp⟩
      (by simp [Name.IsLower])
  simpa [Name.raw, closingTag] using hbare.parse_eq

/-- Preparing it drops the comment. -/
theorem normalRoot_paragraph {keep : Bool} {t t' u u' : Text}
    (ht : normalText keep t = t') (hu : normalText keep u = u') (hne : t' ≠ [])
    (hne' : u' ≠ []) :
    normalRoot keep [.element (.literal "p".toList) [] [.text t,
      .comment [], .text u]]
      = .element (.literal "p".toList) [] ([t', u'].map .text) := by
  subst ht hu
  simp [normalRoot, Node.normalList, Node.normal?, Name.normal, Node.isTag,
    hne, hne']

/-- A marker and a text on the two sides of a comment stay apart. -/
theorem textRun_markers_greeting :
    ∃ ns, parse "<p>\x7ba\x7d<!---->!</p>".toList = .ok ns
      ∧ ∀ m
        ∈ markers (Node.markupList ⟨false, 2⟩ (normalRoot false ns).bindings 0
          (["\x7bprops.a\x7d".toList, "!".toList].map .text)), ∃ name,
            m = reference name := by
  have hparse :=
    parse_paragraph (t := "\x7ba\x7d".toList) (u := "!".toList) (by decide)
      (by decide) (by decide) (by decide)
  have hmarker : normalText false "\x7ba\x7d".toList
      = "\x7bprops.a\x7d".toList := by
    decide +kernel
  have htext : normalText false "!".toList = "!".toList := by decide +kernel
  have hroot := normalRoot_paragraph hmarker htext (by decide) (by decide)
  have hspan : ¬ SpansRun ["\x7bprops.a\x7d".toList, "!".toList] := by
    intro h
    rcases h with h | h | h
    · exact absurd h.close_mem (by decide)
    · exact absurd h.close_mem (by decide)
    · exact h
  have htag : Node.Contains _ (.element (.literal "p".toList) []
      ([] ++ ["\x7bprops.a\x7d".toList, "!".toList].map .text ++ [])) :=
        .of_eq hroot
  exact ⟨_, hparse, ((textRun_markers_iff hparse false 2 0 htag).2.2 hspan).2⟩

/-- A comment between two halves of a brace lets the template write code. -/
theorem textRun_alert :
    ∃ ns, parse "<p>\x7ba<!---->lert(1)\x7d</p>".toList = .ok ns
      ∧ normalRoot false ns = .element (.literal "p".toList) []
          (["\x7ba".toList, "lert(1)\x7d".toList].map .text)
      ∧ (markupBody ⟨false, 2⟩ 0 (normalRoot false ns)).result
        = "<p>\x7balert(1)\x7d</p>".toList
      ∧ markers (Node.markupList ⟨false, 2⟩ (normalRoot false ns).bindings 0
          (["\x7ba".toList, "lert(1)\x7d".toList].map .text))
            = ["alert(1)".toList]
      ∧ ∀ name, "alert(1)".toList ≠ reference name := by
  have hopen : normalText false "\x7ba".toList = "\x7ba".toList := by
    decide +kernel
  have hclose : normalText false "lert(1)\x7d".toList
      = "lert(1)\x7d".toList := by decide +kernel
  have hroot := normalRoot_paragraph hopen hclose (by decide) (by decide)
  have hparse :=
    parse_paragraph (t := "\x7ba".toList) (u := "lert(1)\x7d".toList)
      (by decide) (by decide) (by decide) (by decide)
  refine ⟨_, hparse, hroot, ?_, ?_, ?_⟩
  · rw [hroot]
    decide +kernel
  · rw [hroot]
    decide +kernel
  · intro name h
    unfold reference at h
    split at h
    · simp at h
    · simp at h

end Stencil
