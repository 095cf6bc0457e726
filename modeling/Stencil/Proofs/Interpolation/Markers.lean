/-
Markers of a text. Read from left to right, a text falls into four shapes
at each point: a character other than an opening brace; an opening brace
that starts a marker; an opening brace with its closing brace right after
it, which starts none; and an opening brace with no closing brace anywhere
behind it. `Text.braceInduction` is induction over these shapes, and the
segments and the markers of a text each have one equation for each shape,
so that no proof needs to open the search for a marker again.

Two facts carry what is done with markers elsewhere. Cutting a text into
segments loses nothing (`Segment.flatMap_source_split`). And resolving the
markers of a text changes what they hold and nothing else
(`markers_resolveMarkers`): the reference that takes the place of a marker
is found again, as one marker, and no other appears.
-/
import Stencil.Normal
import Stencil.Proofs.Text.Quoted
import Stencil.Proofs.Text.Scan

namespace Stencil

-- ========================================================= the shapes

/-- A marker has something before its closing brace. -/
theorem Segment.readMarker?_eq_some_iff {s m r : Text} :
    Segment.readMarker? s = some (m, r)
      ↔ s = m ++ '}' :: r ∧ '}' ∉ m ∧ m ≠ [] := by
  rw [← and_assoc, ← Text.scan_mark_iff]
  unfold Segment.readMarker?
  rcases Text.dropWhile_mark_cases '}' s with hnil | ⟨r', hr'⟩
  · simp [hnil]
  · simp only [hr', List.isEmpty_iff]
    constructor
    · intro h
      split at h
      · cases h
      · next hne =>
        simp only [Option.some.injEq, Prod.mk.injEq] at h
        obtain ⟨rfl, rfl⟩ := h
        exact ⟨⟨rfl, rfl⟩, hne⟩
    · intro h
      obtain ⟨⟨rfl, hr⟩, hne⟩ := h
      rw [if_neg hne, (List.cons.inj hr).2]

/-- Where no marker starts, there is no closing brace or it comes at once. -/
theorem Segment.readMarker?_eq_none_iff {s : Text} :
    Segment.readMarker? s = none ↔ '}' ∉ s ∨ ∃ t, s = '}' :: t := by
  constructor
  · intro h
    by_cases hmem : '}' ∈ s
    · obtain ⟨m, r, rfl, hm⟩ := List.eq_append_cons_of_mem hmem
      cases m with
      | nil => exact Or.inr ⟨r, rfl⟩
      | cons c m =>
          have hsome := Segment.readMarker?_eq_some_iff.2
            ⟨(rfl : c :: m ++ '}' :: r = _), hm, by simp⟩
          rw [hsome] at h
          cases h
    · exact Or.inl hmem
  · intro h
    cases hread : Segment.readMarker? s with
    | none => rfl
    | some p =>
        obtain ⟨m, r⟩ := p
        obtain ⟨rfl, hm, hne⟩ := Segment.readMarker?_eq_some_iff.1 hread
        rcases h with h | ⟨t, ht⟩
        · exact absurd (by simp) h
        · obtain ⟨c, m, rfl⟩ := List.exists_cons_of_ne_nil hne
          obtain ⟨rfl, -⟩ := List.cons.inj ht
          exact absurd (List.mem_cons_self ..) hm

/-- Induction over the shapes of a text at its braces. -/
theorem Text.braceInduction {motive : Text → Prop} (nil : motive [])
    (plain : ∀ c t, c ≠ '{' → motive t → motive (c :: t))
    (marker : ∀ m r, '}' ∉ m → m ≠ [] → motive r
      → motive ('{' :: (m ++ '}' :: r)))
    (hollow : ∀ t, motive ('}' :: t) → motive ('{' :: '}' :: t))
    (unclosed : ∀ t, '}' ∉ t → motive t → motive ('{' :: t)) (t : Text) :
    motive t := by
  fun_induction Segment.split t with
  | case1 => exact nil
  | case2 t m r hread ih =>
      obtain ⟨rfl, hm, hne⟩ := Segment.readMarker?_eq_some_iff.1 hread
      exact marker m r hm hne ih
  | case3 t hread ih =>
      rcases Segment.readMarker?_eq_none_iff.1 hread with hmem | ⟨t, rfl⟩
      · exact unclosed t hmem ih
      · exact hollow t ih
  | case4 c t hc ih => exact plain c t hc ih

-- ======================================================= the segments

theorem Segment.split_plain {c : Char} {t : Text} (hc : c ≠ '{') :
    Segment.split (c :: t) = Segment.extend c (Segment.split t) := by
  rw [Segment.split, if_neg hc]

theorem Segment.split_marker {m r : Text} (hm : '}' ∉ m) (hne : m ≠ []) :
    Segment.split ('{' :: (m ++ '}' :: r)) = .marker m :: Segment.split r := by
  have hread :=
    Segment.readMarker?_eq_some_iff.2 ⟨(rfl : m ++ '}' :: r = _), hm, hne⟩
  rw [Segment.split, if_pos rfl]
  split
  · next hsome =>
    rw [hread] at hsome
    cases hsome
    rfl
  · next hnone => rw [hread] at hnone; cases hnone

/-- An opening brace that starts no marker stands for itself. -/
theorem Segment.split_stray {t : Text} (h : '}' ∉ t ∨ ∃ r, t = '}' :: r) :
    Segment.split ('{' :: t) = Segment.extend '{' (Segment.split t) := by
  have hread := Segment.readMarker?_eq_none_iff.2 h
  rw [Segment.split, if_pos rfl]
  split
  · next hsome => rw [hread] at hsome; cases hsome
  · rfl

/-- The characters of a text that a segment was cut from. -/
def Segment.source : Segment → Text
  | .literal t => t
  | .marker m => '{' :: (m ++ ['}'])

theorem Segment.flatMap_source_extend (c : Char) (segments : List Segment) :
    (Segment.extend c segments).flatMap Segment.source
      = c :: segments.flatMap Segment.source := by
  unfold Segment.extend
  split <;> simp [Segment.source]

/-- The segments of a text, put together, are the text. -/
theorem Segment.flatMap_source_split (t : Text) :
    (Segment.split t).flatMap Segment.source = t := by
  induction t using Text.braceInduction with
  | nil => simp [Segment.split]
  | plain c t hc ih =>
      rw [Segment.split_plain hc, Segment.flatMap_source_extend, ih]
  | marker m r hm hne ih =>
      rw [Segment.split_marker hm hne, List.flatMap_cons, ih]
      simp [Segment.source]
  | hollow t ih =>
      rw [Segment.split_stray (Or.inr ⟨t, rfl⟩),
        Segment.flatMap_source_extend, ih]
  | unclosed t ht ih =>
      rw [Segment.split_stray (Or.inl ht), Segment.flatMap_source_extend, ih]

/-- Without a marker, what keeps literals keeps the text. -/
theorem Segment.flatMap_of_no_marker {f : Segment → Text}
    (hf : ∀ u, f (.literal u) = u) {t : Text}
    (h : (Segment.split t).any Segment.isMarker = false) :
    (Segment.split t).flatMap f = t := by
  have hsource : ∀ g ∈ Segment.split t, f g = g.source := by
    intro g hg
    cases g with
    | literal u => exact hf u
    | marker m => exact absurd rfl (List.any_eq_false.1 h _ hg)
  rw [List.flatMap_def, List.map_congr_left hsource, ← List.flatMap_def,
    Segment.flatMap_source_split]

-- ======================================================== the markers

/-- What a segment holds, if it is a marker. -/
def Segment.content? : Segment → Option Text
  | .literal _ => none
  | .marker m => some m

/-- What the markers of a text hold, in order. -/
def markers (t : Text) : List Text :=
  (Segment.split t).filterMap Segment.content?

theorem Segment.filterMap_content?_extend (c : Char) (segments : List Segment) :
    (Segment.extend c segments).filterMap Segment.content?
      = segments.filterMap Segment.content? := by
  unfold Segment.extend
  split <;> simp [List.filterMap_cons, Segment.content?]

@[simp]
theorem markers_nil : markers [] = [] := by simp [markers, Segment.split]

theorem markers_plain {c : Char} {t : Text} (hc : c ≠ '{') :
    markers (c :: t) = markers t := by
  rw [markers, Segment.split_plain hc,
    Segment.filterMap_content?_extend, markers]

theorem markers_marker {m r : Text} (hm : '}' ∉ m) (hne : m ≠ []) :
    markers ('{' :: (m ++ '}' :: r)) = m :: markers r := by
  rw [markers, Segment.split_marker hm hne]
  rfl

theorem markers_stray {t : Text} (h : '}' ∉ t ∨ ∃ r, t = '}' :: r) :
    markers ('{' :: t) = markers t := by
  rw [markers, Segment.split_stray h,
    Segment.filterMap_content?_extend, markers]

/-- A closing brace closes nothing by itself. -/
@[simp]
theorem markers_close (t : Text) : markers ('}' :: t) = markers t :=
  markers_plain (by decide)

/-- Without a closing brace there is no marker. -/
theorem markers_eq_nil {t : Text} (h : '}' ∉ t) : markers t = [] := by
  induction t with
  | nil => exact markers_nil
  | cons c t ih =>
      have ht : '}' ∉ t := fun hmem => h (List.mem_cons_of_mem _ hmem)
      by_cases hc : c = '{'
      · subst hc
        rw [markers_stray (Or.inl ht), ih ht]
      · rw [markers_plain hc, ih ht]

-- ====================================================== joined texts

/-- A closing brace of `w` ends a marker that starts in `v`: after some
opening brace of `v` there is no closing brace in `v`, and between it and
the first closing brace of `w` stands at least one character. -/
def OpensInto (v w : Text) : Prop :=
  ∃ a b p q, v = a ++ '{' :: b ∧ '}' ∉ b ∧ w = p ++ '}' :: q ∧ '}' ∉ p
    ∧ b ++ p ≠ []

theorem OpensInto.close_mem {v w : Text} (h : OpensInto v w) : '}' ∈ w := by
  obtain ⟨a, b, p, q, -, -, rfl, -⟩ := h
  simp

theorem OpensInto.append_left {v w : Text} (h : OpensInto v w) (u : Text) :
    OpensInto (u ++ v) w := by
  obtain ⟨a, b, p, q, rfl, hrest⟩ := h
  exact ⟨u ++ a, b, p, q, by simp, hrest⟩

/-- What comes before the last closing brace does not matter. -/
theorem OpensInto.of_append {u v w : Text} (h : OpensInto (u ++ v) w)
    (hv : '}' ∈ v ∨ '{' ∉ u) : OpensInto v w := by
  obtain ⟨a, b, p, q, hsplit, hb, hw⟩ := h
  rcases List.append_eq_append_iff.1 hsplit with ⟨a', rfl, rfl⟩ | ⟨c, rfl, hc⟩
  · exact ⟨a', b, p, q, rfl, hb, hw⟩
  · -- the opening brace stands in `u`, or at the start of `v`
    cases c with
    | nil => exact ⟨[], b, p, q, hc.symm, hb, hw⟩
    | cons d c =>
        obtain ⟨rfl, rfl⟩ := List.cons.inj hc
        rcases hv with hv | hu
        · exact absurd (List.mem_append_right _ hv) hb
        · exact absurd (by simp) hu

/-- Texts that no marker spans have the markers of each. -/
theorem markers_append {v w : Text} (h : ¬ OpensInto v w) :
    markers (v ++ w) = markers v ++ markers w := by
  induction v using Text.braceInduction with
  | nil => simp
  | plain c t hc ih =>
      rw [List.cons_append, markers_plain hc, markers_plain hc]
      exact ih fun ht => h (ht.append_left [c])
  | marker m r hm hne ih =>
      have hassoc : '{' :: (m ++ '}' :: r) ++ w
          = '{' :: (m ++ '}' :: (r ++ w)) := by simp
      rw [hassoc, markers_marker hm hne, markers_marker hm hne,
        List.cons_append, ih]
      intro hr
      exact h (by simpa using hr.append_left ('{' :: (m ++ ['}'])))
  | hollow t ih =>
      rw [List.cons_append, List.cons_append, markers_stray (Or.inr ⟨_, rfl⟩),
        markers_stray (Or.inr ⟨_, rfl⟩)]
      exact ih fun ht => h (ht.append_left ['{'])
  | unclosed t ht ih =>
      have hstray : '}' ∉ t ++ w ∨ ∃ r, t ++ w = '}' :: r := by
        by_cases hw : '}' ∈ w
        · -- the first closing brace of `w` comes at once, or a marker spans
          obtain ⟨p, q, rfl, hp⟩ := List.eq_append_cons_of_mem hw
          have hnil : t ++ p = [] := by
            by_contra hne
            exact h ⟨[], t, p, q, rfl, ht, rfl, hp, hne⟩
          obtain ⟨rfl, rfl⟩ := List.append_eq_nil_iff.1 hnil
          exact Or.inr ⟨q, rfl⟩
        · exact Or.inl (by simp [ht, hw])
      rw [List.cons_append, markers_stray hstray, markers_stray (Or.inl ht)]
      exact ih fun ht => h (ht.append_left ['{'])

/-- The size of some markers, their braces counted as one character. -/
def markersSize : List Text → Nat
  | [] => 0
  | m :: ms => m.length + 1 + markersSize ms

theorem markersSize_append (ms ms' : List Text) :
    markersSize (ms ++ ms') = markersSize ms + markersSize ms' := by
  induction ms with
  | nil => rw [List.nil_append, markersSize, Nat.zero_add]
  | cons m ms ih =>
      rw [List.cons_append, markersSize, markersSize, ih]
      omega

/-- A marker that ends at the first closing brace lies before it. -/
theorem markersSize_closing_le {p q : Text} (hp : '}' ∉ p) :
    markersSize (markers (p ++ '}' :: q))
      ≤ p.length + markersSize (markers q) := by
  induction p with
  | nil => simp
  | cons c p ih =>
      have hp' : '}' ∉ p := fun hmem => hp (List.mem_cons_of_mem _ hmem)
      have hle := ih hp'
      rw [List.cons_append, List.length_cons]
      by_cases hc : c = '{'
      · subst hc
        by_cases hne : p = []
        · subst hne
          rw [List.nil_append, markers_stray (Or.inr ⟨q, rfl⟩), markers_close]
          omega
        · rw [markers_marker hp' hne, markersSize]
      · rw [markers_plain hc]
        omega

/-- A marker that spans two texts takes more than the markers it replaces. -/
theorem OpensInto.markersSize_lt {v w : Text} (h : OpensInto v w) :
    markersSize (markers v ++ markers w) < markersSize (markers (v ++ w)) := by
  induction v using Text.braceInduction with
  | nil =>
      obtain ⟨a, b, p, q, hv, -⟩ := h
      simp at hv
  | plain c t hc ih =>
      rw [List.cons_append, markers_plain hc, markers_plain hc]
      exact ih (h.of_append (u := [c]) (Or.inr (by simpa using hc.symm)))
  | marker m r hm hne ih =>
      have hr : OpensInto ('}' :: r) w :=
        h.of_append (u := '{' :: m) (v := '}' :: r) (Or.inl (by simp))
      have hassoc : '{' :: (m ++ '}' :: r) ++ w
          = '{' :: (m ++ '}' :: (r ++ w)) := by simp
      rw [hassoc, markers_marker hm hne, markers_marker hm hne]
      have hlt := ih (hr.of_append (u := ['}']) (Or.inr (by decide)))
      simp only [List.cons_append, markersSize]
      omega
  | hollow t ih =>
      rw [List.cons_append, List.cons_append, markers_stray (Or.inr ⟨_, rfl⟩),
        markers_stray (Or.inr ⟨_, rfl⟩)]
      exact ih (h.of_append (u := ['{']) (Or.inl (by simp)))
  | unclosed t ht ih =>
      obtain ⟨a, b, p, q, hv, hb, rfl, hp, hne⟩ := h
      have hlen : t ++ p ≠ [] := by
        intro hnil
        obtain ⟨rfl, rfl⟩ := List.append_eq_nil_iff.1 hnil
        cases a with
        | nil => simp_all
        | cons d a => simp at hv
      have hspan : markers ('{' :: t ++ (p ++ '}' :: q))
          = (t ++ p) :: markers q := by
        rw [← markers_marker (by simp [ht, hp]) hlen]
        simp
      have hle := markersSize_closing_le (q := q) hp
      rw [hspan, markers_stray (Or.inl ht), markers_eq_nil ht, List.nil_append,
        markersSize, List.length_append]
      omega

/-- Of some texts in a row, one starts a marker that ends in a later one. -/
def SpansRun : List Text → Prop
  | [] => False
  | v :: vs => OpensInto v vs.flatten ∨ SpansRun vs

/-- The markers of texts in a row take at least what those of each take. -/
theorem markersSize_flatten_le (vs : List Text) :
    markersSize (vs.flatMap markers) ≤ markersSize (markers vs.flatten) := by
  induction vs with
  | nil => simp
  | cons v vs ih =>
      rw [List.flatMap_cons, List.flatten_cons, markersSize_append]
      by_cases h : OpensInto v vs.flatten
      · have hlt := h.markersSize_lt
        rw [markersSize_append] at hlt
        omega
      · rw [markers_append h, markersSize_append]
        omega

/-- Texts in a row have the markers of each, and no others, exactly if no
marker spans them. -/
theorem markers_flatten_iff (vs : List Text) :
    markers vs.flatten = vs.flatMap markers ↔ ¬ SpansRun vs := by
  induction vs with
  | nil => simp [SpansRun]
  | cons v vs ih =>
      rw [List.flatMap_cons, List.flatten_cons, SpansRun, not_or, ← ih]
      by_cases h : OpensInto v vs.flatten
      · -- the sizes tell the two lists apart
        have hlt := h.markersSize_lt
        have hle := markersSize_flatten_le vs
        rw [markersSize_append] at hlt
        refine ⟨fun heq => ?_, fun hboth => absurd h hboth.1⟩
        rw [heq, markersSize_append] at hlt
        omega
      · rw [markers_append h, List.append_cancel_left_eq]
        simp [h]

-- ========================================================= references

/-- A variable name is made of letters, digits and dollar signs. -/
theorem of_mem_variableName {d : Char} {name : Text} (h : isVariableName name)
    (hd : d ∈ name) : d.isAlphanum ∨ d = '$' := by
  cases name with
  | nil => cases hd
  | cons c t =>
      simp only [isVariableName, Bool.and_eq_true, Bool.or_eq_true,
        decide_eq_true_eq, List.all_eq_true] at h
      rcases List.mem_cons.1 hd with rfl | hd
      · rcases h.1 with halpha | rfl
        · exact Or.inl (by simp [Char.isAlphanum, halpha])
        · exact Or.inr rfl
      · exact h.2 d hd

/-- A reference shows every character of it, and holds a closing brace only
if the name does. -/
theorem of_mem_reference {d : Char} {name : Text} (h : d ∈ reference name) :
    0x20 ≤ d.toNat ∧ (d = '}' → d ∈ name) := by
  unfold reference at h
  split at h
  · next hvar =>
    rcases List.mem_append.1 h with h | h
    · have hall : ∀ x ∈ "props.".toList, 0x20 ≤ x.toNat ∧ x ≠ '}' := by simp
      exact ⟨(hall d h).1, fun hd => absurd hd (hall d h).2⟩
    · refine ⟨?_, fun _ => h⟩
      rcases of_mem_variableName hvar h with halnum | rfl
      · exact Text.le_toNat_of_isAlphanum halnum
      · decide
  · rcases List.mem_append.1 h with h | h
    · rcases List.mem_append.1 h with h | h
      · have hall : ∀ x ∈ "props[".toList, 0x20 ≤ x.toNat ∧ x ≠ '}' := by simp
        exact ⟨(hall d h).1, fun hd => absurd hd (hall d h).2⟩
      · obtain ⟨hshown, hd⟩ := Text.of_mem_quote h
        refine ⟨hshown, ?_⟩
        intro hclose
        subst hclose
        simpa using hd
    · obtain rfl := List.mem_singleton.1 h
      exact ⟨by decide, fun hd => absurd hd (by decide)⟩

theorem reference_ne_nil (name : Text) : reference name ≠ [] := by
  unfold reference
  split <;> simp

theorem close_notMem_reference {name : Text} (h : '}' ∉ name) :
    '}' ∉ reference name :=
  fun hmem => h ((of_mem_reference hmem).2 rfl)

/-- A braced reference is one marker, whatever follows it. -/
theorem Segment.split_referenceMarker {name : Text} (h : '}' ∉ name)
    (r : Text) :
    Segment.split (referenceMarker name ++ r)
      = .marker (reference name) :: Segment.split r := by
  have hassoc : referenceMarker name ++ r
      = '{' :: (reference name ++ '}' :: r) := by
    simp [referenceMarker]
  rw [hassoc, Segment.split_marker (close_notMem_reference h)
    (reference_ne_nil name)]

theorem markers_referenceMarker {name : Text} (h : '}' ∉ name) (r : Text) :
    markers (referenceMarker name ++ r) = reference name :: markers r := by
  rw [markers, Segment.split_referenceMarker h, markers]
  rfl

-- =================================================== resolved markers

theorem Segment.flatMap_resolve_extend (c : Char) (segments : List Segment) :
    (Segment.extend c segments).flatMap Segment.resolve
      = c :: segments.flatMap Segment.resolve := by
  unfold Segment.extend
  split <;> simp [Segment.resolve]

theorem resolveMarkers_plain {c : Char} {t : Text} (hc : c ≠ '{') :
    resolveMarkers (c :: t) = c :: resolveMarkers t := by
  rw [resolveMarkers, Segment.split_plain hc, Segment.flatMap_resolve_extend,
    resolveMarkers]

theorem resolveMarkers_marker {m r : Text} (hm : '}' ∉ m) (hne : m ≠ []) :
    resolveMarkers ('{' :: (m ++ '}' :: r))
      = referenceMarker m ++ resolveMarkers r := by
  rw [resolveMarkers, Segment.split_marker hm hne, List.flatMap_cons]
  rfl

theorem resolveMarkers_stray {t : Text} (h : '}' ∉ t ∨ ∃ r, t = '}' :: r) :
    resolveMarkers ('{' :: t) = '{' :: resolveMarkers t := by
  rw [resolveMarkers, Segment.split_stray h, Segment.flatMap_resolve_extend,
    resolveMarkers]

/-- Without a closing brace there is nothing to resolve. -/
theorem resolveMarkers_eq_self {t : Text} (h : '}' ∉ t) :
    resolveMarkers t = t := by
  induction t with
  | nil => simp [resolveMarkers, Segment.split]
  | cons c t ih =>
      have ht : '}' ∉ t := fun hmem => h (List.mem_cons_of_mem _ hmem)
      by_cases hc : c = '{'
      · subst hc
        rw [resolveMarkers_stray (Or.inl ht), ih ht]
      · rw [resolveMarkers_plain hc, ih ht]

/-- Resolving markers turns each into a reference and makes no other. -/
theorem markers_resolveMarkers (t : Text) :
    markers (resolveMarkers t) = (markers t).map reference := by
  induction t using Text.braceInduction with
  | nil => simp [resolveMarkers, Segment.split]
  | plain c t hc ih =>
      rw [resolveMarkers_plain hc, markers_plain hc, markers_plain hc, ih]
  | marker m r hm hne ih =>
      rw [resolveMarkers_marker hm hne, markers_referenceMarker hm,
        markers_marker hm hne, ih, List.map_cons]
  | hollow t ih =>
      have hclose : resolveMarkers ('}' :: t) = '}' :: resolveMarkers t :=
        resolveMarkers_plain (by decide)
      rw [resolveMarkers_stray (Or.inr ⟨t, rfl⟩),
        markers_stray (Or.inr ⟨_, hclose⟩), ih, markers_stray (Or.inr ⟨t, rfl⟩)]
  | unclosed t ht ih =>
      have hself : '}' ∉ resolveMarkers t := by rwa [resolveMarkers_eq_self ht]
      rw [resolveMarkers_stray (Or.inl ht), markers_stray (Or.inl hself), ih,
        markers_stray (Or.inl ht)]

-- =============================================== white space and lines

/-- Neither brace is white space. -/
theorem isBlank_braces :
    Text.isBlank '{' = false ∧ Text.isBlank '}' = false := by decide

theorem markers_trimStart (t : Text) : markers t.trimStart = markers t := by
  unfold Text.trimStart
  induction t with
  | nil => rfl
  | cons c t ih =>
      by_cases hc : Text.isBlank c
      · have hne : c ≠ '{' := by
          intro hopen
          subst hopen
          simp [isBlank_braces.1] at hc
        rw [List.dropWhile_cons_of_pos hc, markers_plain hne, ih]
      · rw [List.dropWhile_cons_of_neg hc]

theorem markers_trimEnd (t : Text) : markers t.trimEnd = markers t := by
  have hcut : t = t.trimEnd ++ (t.reverse.takeWhile Text.isBlank).reverse := by
    rw [Text.trimEnd, ← List.reverse_append, List.takeWhile_append_dropWhile,
      List.reverse_reverse]
  have hclose : '}' ∉ (t.reverse.takeWhile Text.isBlank).reverse := by
    intro hmem
    have hblank := List.mem_takeWhile_imp (List.mem_reverse.1 hmem)
    simp [isBlank_braces.2] at hblank
  have hjoin : ¬ OpensInto t.trimEnd
      (t.reverse.takeWhile Text.isBlank).reverse :=
    fun h => hclose h.close_mem
  have happend := markers_append hjoin
  rw [← hcut, markers_eq_nil hclose, List.append_nil] at happend
  exact happend.symm

/-- The markers of a prepared text are the references of its markers. -/
theorem markers_normalText (keep : Bool) (t : Text) :
    markers (normalText keep t) = (markers t).map reference := by
  unfold normalText Text.trim
  split
  · exact markers_resolveMarkers t
  · rw [markers_trimEnd, markers_trimStart, markers_resolveMarkers]

end Stencil
