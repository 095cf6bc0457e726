/-
What an expression is worth. An expression of a text is a sum of string
literals and lookups of properties; `evaluate` reads it from left to right
and gives the text it stands for, if the properties have the values given.
It knows of the grammar of sums only, not of the text that the sum was
made from.

What the value should be is said of the text (`Interpolates`): from left
to right, a marker goes over into the value of the property it names, and
a character that starts no marker stays what it is.

The two meet in the segments of the text. Each operand reads alone, up to
the plus sign or the end behind it (`readOperand?_append`), so that a sum
of operands is worth their values, joined; and the values of the segments,
joined, are what the text goes over into.
-/
import Stencil.Proofs.Output.CallReading
import Mathlib.Data.List.Infix

namespace Stencil

-- ========================================================= evaluation

/-- Reads the rest of a string literal after its opening quote. -/
def readLiteral? (s : Text) : Option (Text × Text) :=
  match Json.readString .strict s with
  | .ok taken => some (taken.value, taken.rest)
  | .error _ => none

/-- Reads the lookup of a property. Gives the name of the property. -/
def readLookup? : Text → Option (Text × Text)
  | 'p' :: 'r' :: 'o' :: 'p' :: 's' :: '.' :: s =>
    let name := s.takeWhile fun c => c.isAlphanum || c = '$'
    if isVariableName name then
      some (name, s.dropWhile fun c => c.isAlphanum || c = '$')
    else none
  | 'p' :: 'r' :: 'o' :: 'p' :: 's' :: '[' :: '"' :: s =>
    match readLiteral? s with
    | some (name, ']' :: r) => some (name, r)
    | _ => none
  | _ => none

/-- Reads an operand. Gives its value. -/
def readOperand? (props : Text → Text) : Text → Option (Text × Text)
  | '"' :: s => readLiteral? s
  | s => (readLookup? s).map fun (name, r) => (props name, r)

theorem length_lt_of_readLiteral? {s v r : Text}
    (h : readLiteral? s = some (v, r)) :
    r.length < s.length := by
  unfold readLiteral? at h
  split at h
  · next taken _ =>
    cases h
    exact taken.shorter
  · cases h

theorem length_lt_of_readLookup? {s m r : Text}
    (h : readLookup? s = some (m, r)) :
    r.length < s.length := by
  unfold readLookup? at h
  split at h
  · next s =>
    dsimp only at h
    split at h
    · cases h
      have hle := Text.length_dropWhile_le (fun c => c.isAlphanum || c = '$') s
      simp only [List.length_cons]
      omega
    · cases h
  · next s =>
    split at h
    · next hread =>
      cases h
      have hlt := length_lt_of_readLiteral? hread
      simp only [List.length_cons] at hlt ⊢
      omega
    · cases h
  · cases h

theorem length_lt_of_readOperand? {props : Text → Text} {s v r : Text}
    (h : readOperand? props s = some (v, r)) : r.length < s.length := by
  unfold readOperand? at h
  split at h
  · have hlt := length_lt_of_readLiteral? h
    simp only [List.length_cons]
    omega
  · obtain ⟨⟨m, r'⟩, hread, heq⟩ := Option.map_eq_some_iff.1 h
    cases heq
    exact length_lt_of_readLookup? hread

/-- The value of a sum, given the values of the properties. Nothing if the
text is no sum. -/
def evaluate (props : Text → Text) (s : Text) : Option Text :=
  match _h : readOperand? props s with
  | none => none
  | some (v, r) =>
    match _hr : r.dropWhile (· == ' ') with
    | [] => some v
    | '+' :: more => (evaluate props (more.dropWhile (· == ' '))).map (v ++ ·)
    | _ => none
termination_by s.length
decreasing_by
  have h₁ := length_lt_of_readOperand? _h
  have h₂ := Text.length_dropWhile_le (· == ' ') r
  have h₃ := Text.length_dropWhile_le (· == ' ') more
  rw [_hr, List.length_cons] at h₂
  omega

-- =========================================================== operands

theorem readLiteral?_eq_some_iff {s v r : Text} :
    readLiteral? s = some (v, r)
      ↔ Json.Takes (Json.readString .strict s) v r := by
  unfold readLiteral?
  cases Json.readString .strict s with
  | error e => simp [Json.not_takes_error]
  | ok taken => simp [Json.takes_ok]

/-- A string literal reads up to its closing quote. -/
theorem readLiteral?_append {s t : Text}
    (h : Json.Takes (Json.readString .strict s) t []) (r : Text) :
    readLiteral? (s ++ r) = some (t, r) :=
  readLiteral?_eq_some_iff.2 (h.readString_append r)

theorem readLookup?_append {l m r : Text} (h : Calls.Lookup l m)
    (hr : Calls.EndsName r) :
    readLookup? (l ++ r) = some (m, r) := by
  cases h with
  | dot hname =>
      have hchars : ∀ c ∈ m, (c.isAlphanum || c = '$') := fun c hc => by
        simpa using of_mem_variableName hname hc
      obtain ⟨htake, hdrop⟩ :=
        (Text.scan_eq_iff _ (m ++ r) m r).2 ⟨rfl, hchars, hr⟩
      show (if isVariableName ((m ++ r).takeWhile _) then
        some ((m ++ r).takeWhile _, (m ++ r).dropWhile _) else none) = _
      rw [htake, hdrop, if_pos hname]
  | bracket hkey =>
      obtain ⟨s, rfl, hs⟩ := hkey
      have hread := readLiteral?_append hs (']' :: r)
      simp [readLookup?, hread]

/-- An operand reads alone, in front of what does not go on with a name. -/
theorem readOperand?_append {props : Text → Text} {l v r : Text}
    (h : Calls.Operand props l v) (hr : Calls.EndsName r) :
    readOperand? props (l ++ r) = some (v, r) := by
  cases h with
  | literal hstring =>
      obtain ⟨s, rfl, hs⟩ := hstring
      exact readLiteral?_append hs r
  | lookup hlookup =>
      have hread := readLookup?_append hlookup hr
      have hquote : ∀ s, l ++ r ≠ '"' :: s := by
        intro s
        rw [← List.singleton_append]
        exact Calls.ne_of_head hlookup.head rfl (by decide)
      unfold readOperand?
      split
      · next s heq => exact absurd heq (hquote s)
      · rw [hread]
        rfl

-- =============================================================== sums

/-- The value of the last operand. -/
theorem evaluate_of_end {props : Text → Text} {s v : Text}
    (h : readOperand? props s = some (v, [])) : evaluate props s = some v := by
  rw [evaluate]
  split
  · next hnone => rw [h] at hnone; cases hnone
  · next hsome =>
    rw [h] at hsome
    cases hsome
    rfl

/-- The value of an operand in front of others. -/
theorem evaluate_of_plus {props : Text → Text} {s v r more : Text}
    (h : readOperand? props s = some (v, r))
    (hr : r.dropWhile (· == ' ') = '+' :: more) :
    evaluate props s
      = (evaluate props (more.dropWhile (· == ' '))).map (v ++ ·) := by
  rw [evaluate]
  split
  · next hnone => rw [h] at hnone; cases hnone
  · next hsome =>
    rw [h] at hsome
    cases hsome
    split
    · next hnil => rw [hr] at hnil; cases hnil
    · next hplus =>
      rw [hr] at hplus
      cases hplus
      rfl
    · next hother => exact absurd hr (hother more)

/-- The plus sign between operands, with or without spaces around it. -/
def plusSign (spaced : Bool) : Text := if spaced then " + " else "+"

/-- A plus sign and what stands behind it. -/
theorem evaluate_plusSign {props : Text → Text} {l v : Text}
    (h : Calls.Operand props l v) (spaced : Bool) {s : Text}
    (hs : s.head? ≠ some ' ') :
    evaluate props (l ++ (plusSign spaced ++ s))
      = (evaluate props s).map (v ++ ·) := by
  have hends : Calls.EndsName (plusSign spaced ++ s) := by
    intro c hc
    cases spaced with
    | true =>
        obtain rfl : ' ' = c := by simpa [plusSign] using hc
        rfl
    | false =>
        obtain rfl : '+' = c := by simpa [plusSign] using hc
        rfl
  have hskip : s.dropWhile (· == ' ') = s := by
    cases s with
    | nil => rfl
    | cons c s =>
        have hc : ¬ (c == ' ') = true := by simpa using hs
        exact List.dropWhile_cons_of_neg hc
  have hplus : ∃ more, (plusSign spaced ++ s).dropWhile (· == ' ') = '+' :: more
      ∧ more.dropWhile (· == ' ') = s := by
    cases spaced with
    | true => exact ⟨' ' :: s, rfl, hskip⟩
    | false => exact ⟨s, rfl, hskip⟩
  obtain ⟨more, hdrop, hmore⟩ := hplus
  rw [evaluate_of_plus (readOperand?_append h hends) hdrop, hmore]

/-- Operands with plus signs between them are worth their values, joined. -/
theorem evaluate_intercalate (props : Text → Text) (spaced : Bool)
    (operands : List (Text × Text)) (hne : operands ≠ [])
    (h : ∀ p ∈ operands, Calls.Operand props p.1 p.2) :
    evaluate props ((plusSign spaced).intercalate (operands.map Prod.fst))
      = some (operands.map Prod.snd).flatten := by
  induction operands with
  | nil => exact absurd rfl hne
  | cons p operands ih =>
      have hp := h p (List.mem_cons_self ..)
      cases operands with
      | nil =>
          have hread :=
            readOperand?_append hp (r := []) (by simp [Calls.EndsName])
          rw [List.append_nil] at hread
          simpa using evaluate_of_end hread
      | cons q operands =>
          have hrest := ih (by simp) fun p hp => h p (List.mem_cons_of_mem _ hp)
          have hhead : ((plusSign spaced).intercalate
              ((q :: operands).map Prod.fst)).head?
              ≠ some ' ' := by
            obtain ⟨r, hr⟩ : ∃ r, (plusSign spaced).intercalate
                ((q :: operands).map Prod.fst)
                = q.1 ++ r := by
              cases operands with
              | nil => exact ⟨[], by simp⟩
              | cons p operands => exact ⟨_, by simp; rfl⟩
            rw [hr, List.head?_append]
            rcases (h q (by simp)).head with hhead | hhead
            · simp [hhead]
            · simp [hhead]
          have hstep := evaluate_plusSign hp spaced hhead
          rw [hrest] at hstep
          simpa using hstep

-- ====================================================== interpolation

/-- A marker stands at the front of the text. -/
def StartsMarker (s : Text) : Prop :=
  ∃ m r, s = '{' :: (m ++ '}' :: r) ∧ m ≠ [] ∧ '}' ∉ m

/-- A marker stands somewhere in the text. -/
def HasMarker (t : Text) : Prop := ∃ s, s <:+ t ∧ StartsMarker s

/-- What a text goes over into: from left to right, each marker into the
value of the property it names, every other character into itself. -/
inductive Interpolates (props : Text → Text) : Text → Text → Prop
  | nil : Interpolates props [] []
  | marker {m r u : Text} (nonempty : m ≠ []) (inside : '}' ∉ m)
      (rest : Interpolates props r u) :
      Interpolates props ('{' :: (m ++ '}' :: r)) (props m ++ u)
  | kept {c : Char} {t u : Text} (plain : ¬ StartsMarker (c :: t))
      (rest : Interpolates props t u) : Interpolates props (c :: t) (c :: u)

theorem startsMarker_iff {c : Char} {t : Text} :
    StartsMarker (c :: t) ↔ c = '{' ∧ Segment.readMarker? t ≠ none := by
  constructor
  · rintro ⟨m, r, heq, hne, hm⟩
    obtain ⟨rfl, rfl⟩ := List.cons.inj heq
    rw [Segment.readMarker?_eq_some_iff.2 ⟨rfl, hm, hne⟩]
    exact ⟨rfl, by simp⟩
  · rintro ⟨rfl, hsome⟩
    obtain ⟨⟨m, r⟩, hread⟩ := Option.ne_none_iff_exists'.1 hsome
    obtain ⟨rfl, hm, hne⟩ := Segment.readMarker?_eq_some_iff.1 hread
    exact ⟨m, r, rfl, hne, hm⟩

/-- Induction from left to right over the markers of a text and the
characters that start none. -/
theorem Text.markerInduction {motive : Text → Prop} (nil : motive [])
    (kept : ∀ c t, ¬ StartsMarker (c :: t) → motive t → motive (c :: t))
    (marker : ∀ m r, m ≠ [] → '}' ∉ m → motive r
      → motive ('{' :: (m ++ '}' :: r)))
    (t : Text) : motive t := by
  fun_induction Segment.split t with
  | case1 => exact nil
  | case2 t m r hread ih =>
      obtain ⟨rfl, hm, hne⟩ := Segment.readMarker?_eq_some_iff.1 hread
      exact marker m r hne hm ih
  | case3 t hread ih =>
      exact kept _ t (fun h => (startsMarker_iff.1 h).2 hread) ih
  | case4 c t hc ih => exact kept c t (fun h => hc (startsMarker_iff.1 h).1) ih

/-- A character that starts no marker stands for itself. -/
theorem Segment.split_kept {c : Char} {t : Text} (h : ¬ StartsMarker (c :: t)) :
    Segment.split (c :: t) = Segment.extend c (Segment.split t) := by
  by_cases hc : c = '{'
  · subst hc
    rw [startsMarker_iff, not_and, not_not] at h
    exact Segment.split_stray (Segment.readMarker?_eq_none_iff.1 (h rfl))
  · exact Segment.split_plain hc

/-- The value of a segment. -/
def Segment.value (props : Text → Text) : Segment → Text
  | .literal t => t
  | .marker m => props m

theorem Segment.flatMap_value_extend (props : Text → Text) (c : Char)
    (segments : List Segment) :
    (Segment.extend c segments).flatMap (Segment.value props)
      = c :: segments.flatMap (Segment.value props) := by
  unfold Segment.extend
  split <;> simp [Segment.value]

/-- A text goes over into the values of its segments, and into nothing
else. -/
theorem interpolates_iff (props : Text → Text) (t v : Text) :
    Interpolates props t v
      ↔ v = (Segment.split t).flatMap (Segment.value props) := by
  constructor
  · intro h
    induction h with
    | nil => simp [Segment.split]
    | marker hne hm _ ih =>
        rw [Segment.split_marker hm hne, List.flatMap_cons, ih]
        rfl
    | kept hplain _ ih =>
        rw [Segment.split_kept hplain, Segment.flatMap_value_extend, ih]
  · rintro rfl
    induction t using Text.markerInduction with
    | nil => simpa [Segment.split] using Interpolates.nil
    | kept c t hplain ih =>
        rw [Segment.split_kept hplain, Segment.flatMap_value_extend]
        exact .kept hplain ih
    | marker m r hne hm ih =>
        rw [Segment.split_marker hm hne, List.flatMap_cons]
        exact .marker hne hm ih

/-- Where a marker stands in a text, one of its segments is a marker. -/
theorem HasMarker.any_isMarker {t : Text} (h : HasMarker t) :
    (Segment.split t).any Segment.isMarker := by
  have hextend : ∀ (c : Char) (segments : List Segment),
      (Segment.extend c segments).any Segment.isMarker
        = segments.any Segment.isMarker := by
    intro c segments
    unfold Segment.extend
    split <;> simp [Segment.isMarker]
  obtain ⟨s, hs, hstarts⟩ := h
  induction t using Text.markerInduction with
  | nil =>
      obtain rfl := List.suffix_nil.1 hs
      obtain ⟨m, r, heq, -⟩ := hstarts
      cases heq
  | kept c t hplain ih =>
      rw [Segment.split_kept hplain, hextend]
      rcases List.suffix_cons_iff.1 hs with rfl | hs
      · exact absurd hstarts hplain
      · exact ih hs
  | marker m r hne hm _ => simp [Segment.split_marker hm hne, Segment.isMarker]

-- ========================================================= the value

/-- The expression of a text is worth the values of its segments, joined. -/
theorem evaluate_expression_eq (props : Text → Text) (spaced : Bool)
    (t : Text) :
    evaluate props (expression ⟨false, true, true, spaced⟩ t)
      = some ((Segment.split t).flatMap (Segment.value props)) := by
  cases hany : (Segment.split t).any Segment.isMarker with
  | true =>
      have hsum := evaluate_intercalate props spaced
        ((Segment.split t).map fun g =>
          (g.operand ⟨false, true, true, spaced⟩, g.value props)) ?_ ?_
      · rw [List.map_map, List.map_map] at hsum
        simp only [expression, hany, if_true, Bool.false_eq_true, if_false]
        exact hsum
      · intro hnil
        rw [List.map_eq_nil_iff] at hnil
        rw [hnil] at hany
        cases hany
      · intro p hp
        obtain ⟨g, -, rfl⟩ := List.mem_map.1 hp
        cases g with
        | literal u => exact .literal (Json.stringLiteral_quote u)
        | marker m => exact .lookup (Calls.lookup_reference m)
  | false =>
      have hquote : Calls.Operand props t.quote t :=
        .literal (Json.stringLiteral_quote t)
      have hread :=
        readOperand?_append hquote (r := []) (by simp [Calls.EndsName])
      rw [List.append_nil] at hread
      rw [Segment.flatMap_of_no_marker (fun _ => rfl) hany]
      simpa [expression, hany] using evaluate_of_end hread

/-- The expression of a text is worth what the text goes over into. Braces
around the expression of a text with a marker add nothing else. -/
theorem evaluate_expression (props : Text → Text) (spaced : Bool) (t : Text) :
    (∃ u, evaluate props (expression ⟨false, true, true, spaced⟩ t) = some u
        ∧ ∀ v, Interpolates props t v ↔ v = u)
      ∧ (HasMarker t → ∀ quoted, expression ⟨true, quoted, true, spaced⟩ t
        = '{' :: (expression ⟨false, true, true, spaced⟩ t ++ ['}'])) := by
  refine ⟨⟨_, evaluate_expression_eq props spaced t, interpolates_iff props t⟩,
    ?_⟩
  intro hmarker quoted
  have hoperand : Segment.operand ⟨true, quoted, true, spaced⟩
      = Segment.operand ⟨false, true, true, spaced⟩ := by
    funext g
    cases g with
    | literal u => rfl
    | marker m => rfl
  simp [expression, hmarker.any_isMarker, hoperand]

/-- A text with quotes, a plus sign, a brace inside a marker and empty
braces, for properties that hold their names in capitals. -/
theorem evaluate_expression_quotes :
    (∀ v, Interpolates (·.map Char.toUpper)
      "\"+\" \x7b\x7bwho\x7d \x7b\x7d".toList v
        ↔ v = "\"+\" \x7bWHO \x7b\x7d".toList)
      ∧ HasMarker "\"+\" \x7b\x7bwho\x7d \x7b\x7d".toList
      ∧ expression ⟨true, true, true, true⟩
        "\"+\" \x7b\x7bwho\x7d \x7b\x7d".toList
        = "\x7b\"\\\"+\\\" \" + props[\"\x7bwho\"] + \" \x7b\x7d\"\x7d".toList := by
  have hmarker : HasMarker "\"+\" \x7b\x7bwho\x7d \x7b\x7d".toList :=
    ⟨"\x7b\x7bwho\x7d \x7b\x7d".toList, ⟨"\"+\" ".toList, rfl⟩,
      "\x7bwho".toList, " \x7b\x7d".toList, rfl, by decide, by decide⟩
  obtain ⟨⟨u, hvalue, hu⟩, hbraced⟩ :=
    evaluate_expression (·.map Char.toUpper) true
      "\"+\" \x7b\x7bwho\x7d \x7b\x7d".toList
  have hread : evaluate (·.map Char.toUpper)
      (expression ⟨false, true, true, true⟩
        "\"+\" \x7b\x7bwho\x7d \x7b\x7d".toList)
      = some "\"+\" \x7bWHO \x7b\x7d".toList := by decide +kernel
  obtain rfl : "\"+\" \x7bWHO \x7b\x7d".toList = u :=
    Option.some.inj (hread.symm.trans hvalue)
  refine ⟨hu, hmarker, ?_⟩
  rw [hbraced hmarker true]
  decide +kernel

end Stencil
