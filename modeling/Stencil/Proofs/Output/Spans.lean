/-
Looking for a mark in code. A reader of code who looks for a mark, such as
the `>` that ends a tag, does not look into strings: `Lexer.span` cuts a
text before the first character of a class that stands outside of them.

Code is put together from pieces, and so is what is said about the cut.
`Lexer.Passes` is about a piece in front of any text: the reader goes past
the whole piece, and goes on behind it as it would have started there. The
place where the reader is behind the piece is part of it, so that pieces
can be put together inside of a string as well as outside.
-/
import Stencil.Proofs.Output.Erasure

namespace Stencil

-- ============================================================ the cut

/-- A text up to the first character of the class outside of strings, and
from there on. -/
def Lexer.span (stop : Char → Bool) : Lexer → Text → Text × Text
  | _, [] => ([], [])
  | state, c :: t =>
    if state = .code && stop c then ([], c :: t)
    else (c :: ((state.next c).span stop t).1, ((state.next c).span stop t).2)

theorem Lexer.length_span_le (stop : Char → Bool) (state : Lexer) (t : Text) :
    (state.span stop t).2.length ≤ t.length := by
  induction t generalizing state with
  | nil => rw [Lexer.span]
  | cons c t ih =>
      rw [Lexer.span]
      split
      · exact Nat.le_refl _
      · exact Nat.le_succ_of_le (ih (state.next c))

/-- In front of any text the reader goes past `s`, and is then at
`behind`. -/
def Lexer.Passes (stop : Char → Bool) (state : Lexer) (s : Text)
    (behind : Lexer) : Prop :=
  ∀ r, state.span stop (s ++ r)
    = (s ++ (behind.span stop r).1, (behind.span stop r).2)

/-- Outside of strings the reader goes past `s`, and is outside of strings
behind it. -/
def Passes (stop : Char → Bool) (s : Text) : Prop :=
  Lexer.code.Passes stop s .code

variable {stop : Char → Bool}

/-- The cut behind a piece that the reader goes past. -/
theorem Passes.span_mark {s : Text} (h : Passes stop s) {c : Char} (hc : stop c)
    (r : Text) :
    Lexer.code.span stop (s ++ c :: r) = (s, c :: r) := by
  have hstop : Lexer.code.span stop (c :: r) = ([], c :: r) := by
    rw [Lexer.span, if_pos (by simp [hc])]
  rw [h, hstop, List.append_nil]

theorem Passes.span_end {s : Text} (h : Passes stop s) :
    Lexer.code.span stop s = (s, []) := by
  have hs := h []
  rwa [List.append_nil, Lexer.span, List.append_nil] at hs

-- ============================================================= pieces

theorem Lexer.Passes.nil {state : Lexer} : state.Passes stop [] state :=
  fun _ => rfl

theorem Lexer.Passes.append {a b c : Lexer} {s t : Text}
    (hs : a.Passes stop s b) (ht : b.Passes stop t c) :
    a.Passes stop (s ++ t) c := by
  intro r
  rw [List.append_assoc, hs, ht, List.append_assoc]

theorem Lexer.Passes.cons {state behind : Lexer} {c : Char} {t : Text}
    (hc : ¬ (state = .code ∧ stop c))
    (ht : (state.next c).Passes stop t behind) :
    state.Passes stop (c :: t) behind := by
  intro r
  rw [List.cons_append, Lexer.span, if_neg (by simpa using hc), ht]
  rfl

theorem Passes.nil : Passes stop [] := Lexer.Passes.nil

theorem Passes.append {s t : Text} (hs : Passes stop s) (ht : Passes stop t) :
    Passes stop (s ++ t) :=
  Lexer.Passes.append hs ht

/-- A text that holds neither a quote nor a character of the class. -/
theorem Passes.plain {s : Text} (h : s.all fun c => !stop c && c != '"') :
    Passes stop s := by
  induction s with
  | nil => exact .nil
  | cons c s ih =>
      rw [List.all_cons, Bool.and_eq_true, Bool.and_eq_true] at h
      obtain ⟨⟨hstop, hquote⟩, hs⟩ := h
      have hnext : Lexer.code.next c = .code := by
        rw [Lexer.next, if_neg (by simpa using hquote)]
      refine Lexer.Passes.cons (by simpa using hstop) ?_
      rw [hnext]
      exact ih hs

theorem Passes.of_forall {s : Text} (h : ∀ c ∈ s, stop c = false ∧ c ≠ '"') :
    Passes stop s :=
  .plain (List.all_eq_true.2 fun c hc => by simpa using h c hc)

/-- A character of a class is none that is not in it. -/
theorem ne_of_class {p : Char → Bool} {c d : Char} (hc : p c)
    (hd : p d = false) : c ≠ d := by
  intro hcd
  rw [hcd, hd] at hc
  cases hc

/-- A text in a class of characters that has neither the mark nor a
quote. -/
theorem Passes.of_class {p : Char → Bool} {mark : Char} (hmark : p mark = false)
    (hquote : p '"' = false) {s : Text} (hs : ∀ c ∈ s, p c) :
    Passes (· == mark) s :=
  .of_forall fun c hc =>
    ⟨beq_eq_false_iff_ne.2 (ne_of_class (hs c hc) hmark),
      ne_of_class (hs c hc) hquote⟩

-- ============================================================= layout

theorem isLayout_lead (style : Style) (column : Nat) :
    ∀ c ∈ style.lead column, isLayout c := by
  unfold Style.lead
  split
  · exact isLayout_newline
  · simp

theorem isLayout_space (style : Style) : ∀ c ∈ style.space, isLayout c := by
  unfold Style.space
  split
  · simp [isLayout]
  · simp

/-- The reader goes past layout. -/
theorem Passes.layout {mark : Char} (h : isLayout mark = false) {s : Text}
    (hs : ∀ c ∈ s, isLayout c) : Passes (· == mark) s :=
  .of_class h rfl hs

-- ============================================================ strings

/-- In a string the reader goes past what a character is written as, and
is still in the string. -/
theorem Text.Escaped.passes {c : Char} {e : Text} (h : Text.Escaped c e) :
    Lexer.string.Passes stop e .string := by
  have hstring : ∀ {d : Char} {t : Text}, Lexer.string.next d = .string →
      Lexer.string.Passes stop t .string
        → Lexer.string.Passes stop (d :: t) .string := by
    intro d t hd ht
    exact .cons (by simp) (by rwa [hd])
  have hescape : ∀ {d : Char} {t : Text}, Lexer.string.Passes stop t .string →
      Lexer.string.Passes stop ('\\' :: d :: t) .string := by
    intro d t ht
    exact .cons (by simp) (.cons (by simp [Lexer.next]) ht)
  cases h with
  | plain hquote hback _ => exact hstring (Lexer.next_string hquote hback) .nil
  | short _ _ => exact hescape .nil
  | code _ _ hdigits _ _ =>
      exact hescape (hstring rfl
        (hstring rfl (hstring (Lexer.next_alphanum hdigits.1)
        (hstring (Lexer.next_alphanum hdigits.2) .nil))))

theorem Lexer.passes_flatMap_escape (t : Text) :
    Lexer.string.Passes stop (t.flatMap Text.escape) .string := by
  induction t with
  | nil => exact .nil
  | cons c t ih =>
      rw [List.flatMap_cons]
      exact (Text.escaped_escape c).passes.append ih

/-- The reader goes past a quoted text, whatever it holds. -/
theorem Passes.quote (hquote : stop '"' = false) (t : Text) :
    Passes stop t.quote := by
  refine Lexer.Passes.cons (by simp [hquote]) ?_
  have hclose : Lexer.string.Passes stop ['"'] .code := .cons (by simp) .nil
  exact (Lexer.passes_flatMap_escape t).append hclose

-- ======================================================== expressions

/-- The marks that no reference has outside of strings: neither the quote,
nor a letter or digit, nor one of the other characters of a reference. -/
structure IsMark (stop : Char → Bool) : Prop where
  quote : stop '"' = false
  alphanum : ∀ c : Char, c.isAlphanum → stop c = false
  plain : stop '$' = false ∧ stop '.' = false ∧ stop '[' = false
    ∧ stop ']' = false

theorem isMark_beq {d : Char} (h : d.isAlphanum = false)
    (hd : ['"', '$', '.', '[', ']'].all (· != d)) : IsMark (· == d) := by
  have hne : '"' ≠ d ∧ '$' ≠ d ∧ '.' ≠ d ∧ '[' ≠ d ∧ ']' ≠ d := by
    simpa using hd
  obtain ⟨hquote, hplain⟩ := hne
  refine ⟨beq_eq_false_iff_ne.2 hquote, ?_, by simpa using hplain⟩
  intro c hc
  exact beq_eq_false_iff_ne.2 (ne_of_class hc h)

theorem Passes.variableName (h : IsMark stop) {m : Text}
    (hm : isVariableName m) :
    Passes stop m := by
  refine .of_forall fun c hc => ?_
  rcases of_mem_variableName hm hc with halnum | hdollar
  · exact ⟨h.alphanum c halnum, ne_of_class halnum rfl⟩
  · subst hdollar
    exact ⟨h.plain.1, by decide⟩

theorem Passes.reference (h : IsMark stop) (m : Text) :
    Passes stop (reference m) := by
  obtain ⟨-, hdot, hopen, hclose⟩ := h.plain
  have hletters : ∀ c ∈ "props".toList, c.isAlphanum :=
    List.all_eq_true.1 (by decide)
  have hprops : Passes stop "props".toList :=
    .of_forall fun c hc => ⟨h.alphanum c (hletters c hc),
      ne_of_class (hletters c hc) rfl⟩
  unfold Stencil.reference
  split
  · next hname =>
    have hlookup : Passes stop "props.".toList :=
      hprops.append (t := ['.']) (.plain (by simp [hdot]))
    exact hlookup.append (.variableName h hname)
  · have hlookup : Passes stop "props[".toList :=
      hprops.append (t := ['[']) (.plain (by simp [hopen]))
    exact (hlookup.append (.quote h.quote m)).append (.plain (by simp [hclose]))

/-- What is kept by putting pieces together holds of pieces between
separators. -/
theorem Text.intercalate_of_append {p : Text → Prop} (hnil : p [])
    (happend : ∀ {s t : Text}, p s → p t → p (s ++ t)) {separator : Text}
    (hsep : p separator) {items : List Text} (h : ∀ item ∈ items, p item) :
    p (separator.intercalate items) := by
  induction items with
  | nil => exact hnil
  | cons item items ih =>
      obtain ⟨hitem, hitems⟩ := List.forall_mem_cons.1 h
      cases items with
      | nil => simpa using hitem
      | cons next items =>
          rw [List.intercalate_cons_cons]
          exact happend (happend hitem hsep) (ih hitems)

/-- Pieces between separators. -/
theorem Passes.intercalate {separator : Text} (hsep : Passes stop separator)
    {α : Type} {f : α → Text} {xs : List α} (h : ∀ x ∈ xs, Passes stop (f x)) :
    Passes stop (separator.intercalate (xs.map f)) := by
  refine Text.intercalate_of_append .nil .append hsep fun item hitem => ?_
  obtain ⟨x, hx, rfl⟩ := List.mem_map.1 hitem
  exact h x hx

/-- The sum of the segments of a text, where the reader goes past the
markers that are not looked up. -/
theorem Passes.sum (h : IsMark stop) {mode : ExpressionMode} {plus v : Text}
    (hplus : Passes stop plus)
    (hmarkers : mode.resolved = false → ∀ m ∈ markers v, Passes stop m) :
    Passes stop (plus.intercalate
      ((Segment.split v).map (Segment.operand mode))) := by
  refine .intercalate hplus fun g hg => ?_
  cases g with
  | literal t => exact .quote h.quote t
  | marker m =>
      rw [Segment.operand]
      by_cases hresolved : mode.resolved
      · rw [if_pos hresolved]
        exact .reference h m
      · rw [if_neg hresolved]
        exact hmarkers (by simpa using hresolved) m
          (List.mem_filterMap.2 ⟨_, hg, rfl⟩)

/-- The expression of a text without braces around it. -/
theorem Passes.expression (h : IsMark stop) (hspace : stop ' ' = false)
    (hplus : stop '+' = false) {mode : ExpressionMode}
    (hbraced : mode.braced = false) (hquoted : mode.quoted = true) {v : Text}
    (hmarkers : mode.resolved = false → ∀ m ∈ markers v, Passes stop m) :
    Passes stop (expression mode v) := by
  unfold Stencil.expression
  by_cases hany : (Segment.split v).any Segment.isMarker
  · simp only [hany, hbraced, if_true, Bool.false_eq_true, if_false]
    refine .sum h ?_ hmarkers
    split
    · exact .plain (by simp [hspace, hplus])
    · exact .plain (by simp [hplus])
  · simp only [hany, hquoted, Bool.false_eq_true, if_false, if_true]
    exact .quote h.quote v

end Stencil
