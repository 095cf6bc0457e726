/-
Text in a prepared tree and the same text as the value of an attribute.
Preparation writes a reference into every marker of a text, and the text
is cut into segments a second time when it is printed; the value of an
attribute is cut once, and its markers are resolved on the way. Both give
the same expression.

# Cutting twice

A reference holds no closing brace unless the marker did, and nothing else
of a text changes, so the segments of a resolved text are those of the
text with each marker resolved (`Segment.split_resolveMarkers`). None is
merged, split, made or lost, whatever the markers hold and whatever braces
stand between them.

# Trimming

A text is trimmed after its markers are resolved, a value before. Since a
resolved text starts and ends with the characters of the text, and braces
are no white space, the two orders give the same (`resolveMarkers_trim`).
-/
import Stencil.Output.Calls
import Stencil.Proofs.Interpolation.Markers

namespace Stencil

-- ====================================================== cutting twice

theorem referenceMarker_append (m r : Text) :
    referenceMarker m ++ r = '{' :: (reference m ++ '}' :: r) := by
  simp [referenceMarker]

/-- A segment with its marker, if it is one, as a marker of the reference. -/
def Segment.resolved : Segment → Segment
  | .literal t => .literal t
  | .marker m => .marker (reference m)

theorem Segment.map_resolved_extend (c : Char) (segments : List Segment) :
    (Segment.extend c segments).map Segment.resolved
      = Segment.extend c (segments.map Segment.resolved) := by
  cases segments with
  | nil => rfl
  | cons g segments =>
      cases g with
      | literal t => rfl
      | marker m => rfl

/-- The segments of a resolved text are those of the text, resolved. -/
theorem Segment.split_resolveMarkers (t : Text) :
    Segment.split (resolveMarkers t)
      = (Segment.split t).map Segment.resolved := by
  induction t using Text.braceInduction with
  | nil => simp [resolveMarkers, Segment.split]
  | plain c t hc ih =>
      rw [resolveMarkers_plain hc, Segment.split_plain hc,
        Segment.split_plain hc, ih, Segment.map_resolved_extend]
  | marker m r hm hne ih =>
      rw [resolveMarkers_marker hm hne, referenceMarker_append,
        Segment.split_marker (close_notMem_reference hm) (reference_ne_nil m),
        Segment.split_marker hm hne, ih]
      rfl
  | hollow t ih =>
      have hclose : resolveMarkers ('}' :: t) = '}' :: resolveMarkers t :=
        resolveMarkers_plain (by decide)
      rw [resolveMarkers_stray (Or.inr ⟨t, rfl⟩),
        Segment.split_stray (Or.inr ⟨_, hclose⟩), ih,
        Segment.split_stray (Or.inr ⟨t, rfl⟩), Segment.map_resolved_extend]
  | unclosed t ht ih =>
      have hself : '}' ∉ resolveMarkers t := by rwa [resolveMarkers_eq_self ht]
      rw [resolveMarkers_stray (Or.inl ht),
        Segment.split_stray (Or.inl hself), ih, Segment.split_stray (Or.inl ht),
        Segment.map_resolved_extend]

theorem Segment.isMarker_resolved (g : Segment) :
    g.resolved.isMarker = g.isMarker := by
  cases g with
  | literal t => rfl
  | marker m => rfl

/-- A resolved text has, with its markers taken verbatim, the expression
that the text has with its markers resolved. -/
theorem expression_resolveMarkers (braced quoted spaced : Bool) (t : Text) :
    expression ⟨braced, quoted, false, spaced⟩ (resolveMarkers t)
      = expression ⟨braced, quoted, true, spaced⟩ t := by
  have hoperand : ∀ g : Segment,
      g.resolved.operand ⟨braced, quoted, false, spaced⟩
      = g.operand ⟨braced, quoted, true, spaced⟩ := by
    intro g
    cases g with
    | literal u => rfl
    | marker m => rfl
  have hany : (Segment.split (resolveMarkers t)).any Segment.isMarker
      = (Segment.split t).any Segment.isMarker := by
    rw [Segment.split_resolveMarkers, List.any_map]
    exact congrArg (List.any _) (funext Segment.isMarker_resolved)
  have hoperands : (Segment.split (resolveMarkers t)).map
        (Segment.operand ⟨braced, quoted, false, spaced⟩)
      = (Segment.split t).map
        (Segment.operand ⟨braced, quoted, true, spaced⟩) := by
    rw [Segment.split_resolveMarkers, List.map_map]
    exact List.map_congr_left fun g _ => hoperand g
  simp only [expression, hany, hoperands]
  cases hmarker : (Segment.split t).any Segment.isMarker with
  | true => rfl
  | false =>
      rw [resolveMarkers, Segment.flatMap_of_no_marker (fun _ => rfl) hmarker]

-- =========================================================== trimming

theorem resolveMarkers_append_left {w : Text} (hw : '{' ∉ w) (t : Text) :
    resolveMarkers (w ++ t) = w ++ resolveMarkers t := by
  induction w with
  | nil => rfl
  | cons c w ih =>
      rw [List.mem_cons, not_or] at hw
      rw [List.cons_append, resolveMarkers_plain (Ne.symm hw.1), ih hw.2,
        List.cons_append]

theorem resolveMarkers_append_right {w : Text} (hw : '}' ∉ w) (t : Text) :
    resolveMarkers (t ++ w) = resolveMarkers t ++ w := by
  induction t using Text.braceInduction with
  | nil =>
      have hnil : resolveMarkers [] = [] := by
        simp [resolveMarkers, Segment.split]
      rw [List.nil_append, resolveMarkers_eq_self hw, hnil, List.nil_append]
  | plain c t hc ih =>
      rw [List.cons_append, resolveMarkers_plain hc,
        resolveMarkers_plain hc, ih, List.cons_append]
  | marker m r hm hne ih =>
      have hassoc : '{' :: (m ++ '}' :: r) ++ w
          = '{' :: (m ++ '}' :: (r ++ w)) := by simp
      rw [hassoc, resolveMarkers_marker hm hne,
        resolveMarkers_marker hm hne, ih, List.append_assoc]
  | hollow t ih =>
      rw [List.cons_append, List.cons_append,
        resolveMarkers_stray (Or.inr ⟨_, rfl⟩), resolveMarkers_stray
          (Or.inr ⟨_, rfl⟩), ← List.cons_append, ih, List.cons_append]
  | unclosed t ht ih =>
      have hboth : '}' ∉ t ++ w := by simp [ht, hw]
      rw [List.cons_append, resolveMarkers_stray (Or.inl hboth),
        resolveMarkers_stray (Or.inl ht), ih, List.cons_append]

/-- A resolved text starts as the text does. -/
theorem head?_resolveMarkers (t : Text) :
    (resolveMarkers t).head? = t.head? := by
  induction t using Text.braceInduction with
  | nil => simp [resolveMarkers, Segment.split]
  | plain c t hc _ => rw [resolveMarkers_plain hc]; rfl
  | marker m r hm hne _ => rw [resolveMarkers_marker hm hne]; rfl
  | hollow t _ => rw [resolveMarkers_stray (Or.inr ⟨t, rfl⟩)]; rfl
  | unclosed t ht _ => rw [resolveMarkers_stray (Or.inl ht)]; rfl

/-- A resolved text ends as the text does. -/
theorem getLast?_resolveMarkers (t : Text) :
    (resolveMarkers t).getLast? = t.getLast? := by
  induction t using Text.braceInduction with
  | nil => simp [resolveMarkers, Segment.split]
  | plain c t hc ih =>
      rw [resolveMarkers_plain hc, List.getLast?_cons, List.getLast?_cons, ih]
  | marker m r hm hne ih =>
      have hlast : ∀ m r : Text,
          ('{' :: (m ++ '}' :: r)).getLast? = r.getLast?.or (some '}') := by
        intro m r
        rw [← List.cons_append, List.getLast?_append, List.getLast?_cons]
        cases r.getLast? with
        | none => rfl
        | some c => rfl
      rw [resolveMarkers_marker hm hne, referenceMarker_append, hlast,
        hlast, ih]
  | hollow t ih =>
      rw [resolveMarkers_stray (Or.inr ⟨t, rfl⟩), List.getLast?_cons,
        List.getLast?_cons, ih]
  | unclosed t ht ih =>
      rw [resolveMarkers_stray (Or.inl ht), List.getLast?_cons,
        List.getLast?_cons, ih]

theorem resolveMarkers_trimStart (t : Text) :
    resolveMarkers t.trimStart = (resolveMarkers t).trimStart := by
  obtain ⟨hcut, hblank, hstop⟩ :=
    (Text.scan_eq_iff Text.isBlank t _ _).1 ⟨rfl, rfl⟩
  have hopen : '{' ∉ t.takeWhile Text.isBlank := by
    intro hmem
    have hbrace := hblank '{' hmem
    rw [isBlank_braces.1] at hbrace
    cases hbrace
  have hresolved : resolveMarkers t
      = t.takeWhile Text.isBlank ++ resolveMarkers t.trimStart := by
    rw [← resolveMarkers_append_left hopen]
    exact congrArg resolveMarkers hcut
  rw [hresolved]
  refine (Text.dropWhile_append_stop hblank ?_).symm
  rw [head?_resolveMarkers]
  exact hstop

theorem resolveMarkers_trimEnd (t : Text) :
    resolveMarkers t.trimEnd = (resolveMarkers t).trimEnd := by
  obtain ⟨hcut, hblank, hstop⟩ :=
    (Text.scan_eq_iff Text.isBlank t.reverse _ _).1 ⟨rfl, rfl⟩
  have hclose : '}' ∉ (t.reverse.takeWhile Text.isBlank).reverse := by
    intro hmem
    have hbrace := hblank '}' (List.mem_reverse.1 hmem)
    rw [isBlank_braces.2] at hbrace
    cases hbrace
  have hresolved : resolveMarkers t
      = resolveMarkers t.trimEnd
        ++ (t.reverse.takeWhile Text.isBlank).reverse := by
    rw [← resolveMarkers_append_right hclose,
      Text.trimEnd, ← List.reverse_append, ← hcut, List.reverse_reverse]
  have hlast : ∀ c ∈ (resolveMarkers t.trimEnd).reverse.head?, Text.isBlank c
      = false := by
    rw [List.head?_reverse, getLast?_resolveMarkers, Text.trimEnd,
      List.getLast?_reverse]
    exact hstop
  calc resolveMarkers t.trimEnd
      = (resolveMarkers t.trimEnd
        ++ (t.reverse.takeWhile Text.isBlank).reverse).trimEnd := by
        simp only [Text.trimEnd] at hlast ⊢
        rw [List.reverse_append, List.reverse_reverse,
          Text.dropWhile_append_stop hblank hlast, List.reverse_reverse]
    _ = (resolveMarkers t).trimEnd := by rw [← hresolved]

/-- Resolving and trimming can be done in either order. -/
theorem resolveMarkers_trim (t : Text) :
    resolveMarkers t.trim = (resolveMarkers t).trim := by
  rw [Text.trim, resolveMarkers_trimEnd, resolveMarkers_trimStart, Text.trim]

/-- The value of a prepared text, resolved last. -/
theorem normalText_eq (keep : Bool) (t : Text) :
    normalText keep t = resolveMarkers (if keep then t else t.trim) := by
  cases keep with
  | true => rfl
  | false => exact (resolveMarkers_trim t).symm

-- ==================================================== one expression

/-- A prepared text, cut again, has the expression of the text that is cut
once. So what is printed for a text is what stands behind the key of an
attribute with the same value. -/
theorem expression_normalText (keep spaced braced : Bool) (t : Text) :
    expression ⟨braced, true, false, spaced⟩ (normalText keep t)
        = expression ⟨braced, true, true, spaced⟩ (if keep then t else t.trim)
      ∧ ∀ node, (Node.text t).normal? keep = some node →
        ∀ (style : Style) (column : Nat) (name : Text),
          Attribute.entry style ⟨name, if keep then t else t.trim⟩
            = attributeKey name ++ [':'] ++ style.space
              ++ node.calls style column false := by
  have hvalue : ∀ braced spaced,
      expression ⟨braced, true, false, spaced⟩ (normalText keep t)
        = expression ⟨braced, true, true, spaced⟩ (if keep then t
          else t.trim) := by
    intro braced spaced
    rw [normalText_eq, expression_resolveMarkers]
  refine ⟨hvalue braced spaced, ?_⟩
  intro node hnode style column name
  rw [Node.normal?] at hnode
  split at hnode
  · cases hnode
  · cases hnode
    rw [Node.calls, hvalue, Attribute.entry]

/-- A text with empty and stray braces, a name in brackets and a brace inside
a marker, between white space. -/
theorem expression_normalText_stray :
    ∃ node,
      (Node.text
          " \x7b\x7d \x7ba b\x7d\x7d \x7b\x7bx\x7d\x7b\n".toList).normal? false
        = some node
      ∧ Attribute.entry ⟨false, 2⟩
          ⟨"title".toList, "\x7b\x7d \x7ba b\x7d\x7d \x7b\x7bx\x7d\x7b".toList⟩
        = "title:".toList ++ node.calls ⟨false, 2⟩ 0 false := by
  have hvalue : normalText false
      " \x7b\x7d \x7ba b\x7d\x7d \x7b\x7bx\x7d\x7b\n".toList
      = "\x7b\x7d \x7bprops[\"a b\"]\x7d\x7d \x7bprops[\"\x7bx\"]\x7d\x7b".toList := by
    decide +kernel
  have hnode : (Node.text
      " \x7b\x7d \x7ba b\x7d\x7d \x7b\x7bx\x7d\x7b\n".toList).normal? false
      = some (.text
        "\x7b\x7d \x7bprops[\"a b\"]\x7d\x7d \x7bprops[\"\x7bx\"]\x7d\x7b".toList) := by
    rw [Node.normal?, hvalue]
    rfl
  have hentry := (expression_normalText false false false _).2 _ hnode
    ⟨false, 2⟩ 0 "title".toList
  exact ⟨_, hnode, hentry⟩

end Stencil
