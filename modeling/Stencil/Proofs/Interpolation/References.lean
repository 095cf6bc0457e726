/-
Quoted texts and references, read again. Whatever a text holds, its quoted
form is a JSON string for it that ends at its own end, and its reference is
the lookup of a property of that name and of no other. This is what lets
template text stand in generated code as data.

# Where a literal ends

A reader of a literal may look for its end without knowing the escapes: it
is the first quote behind the opening one that is not escaped, and a
character is escaped if an odd number of backslashes stands right before it
(`Text.EscapesNext`). The written form of a character leaves nothing
escaped behind it, so that each is looked at by itself
(`Text.escapesNext_append`), and the only quote in one of them stands behind
its backslash.
-/
import Stencil.Proofs.Json.Scalars
import Stencil.Proofs.Output.CallReading
import Mathlib.Data.List.DropRight

namespace Stencil

-- ======================================================== escaped quotes

namespace Text

/-- A character behind the text would be escaped: an odd number of
backslashes stands right before it. -/
def EscapesNext (t : Text) : Prop := (t.rtakeWhile (· == '\\')).length % 2 = 1

theorem not_escapesNext_nil : ¬ EscapesNext [] := by simp [EscapesNext]

theorem escapesNext_concat (t : Text) (c : Char) :
    EscapesNext (t ++ [c]) ↔ c = '\\' ∧ ¬ EscapesNext t := by
  rw [EscapesNext, List.rtakeWhile_concat]
  by_cases hc : c = '\\'
  · rw [if_pos (by simp [hc]), List.length_append, List.length_singleton,
      EscapesNext, and_iff_right hc]
    omega
  · simp [hc]

/-- Behind a text that leaves nothing escaped, escaping starts anew. -/
theorem escapesNext_append {s : Text} (hs : ¬ EscapesNext s) (t : Text) :
    EscapesNext (s ++ t) ↔ EscapesNext t := by
  induction t using List.reverseRecOn with
  | nil => simp [hs, not_escapesNext_nil]
  | append_singleton t c ih =>
      rw [← List.append_assoc, escapesNext_concat, escapesNext_concat, ih]

theorem escapesNext_backslash : EscapesNext ['\\'] :=
  (escapesNext_concat [] '\\').2 ⟨rfl, not_escapesNext_nil⟩

/-- The written form of a character leaves nothing escaped. -/
theorem Escaped.not_escapesNext {c : Char} {e : Text} (h : Escaped c e) :
    ¬ EscapesNext e := by
  cases h with
  | plain _ hback _ =>
      intro hnext
      exact hback ((escapesNext_concat [] c).1 hnext).1
  | @short d _ _ =>
      intro hnext
      exact ((escapesNext_concat ['\\'] d).1 hnext).2 escapesNext_backslash
  | @code a b _ _ _ _ hdigits _ _ =>
      intro hnext
      obtain ⟨rfl, -⟩ := (escapesNext_concat ['\\', 'u', '0', '0', a] b).1 hnext
      cases hdigits.2

/-- A quote in the written form of a character is escaped. -/
theorem Escaped.escapesNext {c : Char} {e : Text} (h : Escaped c e) {a b : Text}
    (he : e = a ++ '"' :: b) : EscapesNext a := by
  cases h with
  | plain hquote _ _ =>
      cases a with
      | nil => exact absurd (List.cons.inj he).1 hquote
      | cons _ a => simp at he
  | @short d _ _ =>
      cases a with
      | nil => simp at he
      | cons x a =>
          obtain ⟨rfl, hd⟩ := List.cons.inj he
          cases a with
          | nil => exact escapesNext_backslash
          | cons _ a => simp at hd
  | @code x y _ _ _ _ hdigits _ _ =>
      have hquote : '"' ∈ ['\\', 'u', '0', '0', x, y] := by simp [he]
      have hdigit : '"' = x ∨ '"' = y := by simpa using hquote
      rcases hdigit with rfl | rfl
      · cases hdigits.1
      · cases hdigits.2

theorem not_escapesNext_flatMap_escape (t : Text) :
    ¬ EscapesNext (t.flatMap escape) := by
  induction t with
  | nil => exact not_escapesNext_nil
  | cons c t ih =>
      rw [List.flatMap_cons,
        escapesNext_append (escaped_escape c).not_escapesNext]
      exact ih

theorem escapesNext_of_flatMap_escape {t a b : Text}
    (h : t.flatMap escape = a ++ '"' :: b) :
    EscapesNext a := by
  induction t generalizing a with
  | nil => simp at h
  | cons c t ih =>
      have hc := escaped_escape c
      rw [List.flatMap_cons] at h
      rcases List.append_eq_append_iff.1 h with ⟨a', rfl, ht⟩ | ⟨e', he, hb⟩
      · exact (escapesNext_append hc.not_escapesNext a').2 (ih ht)
      · cases e' with
        | nil => exact absurd (ih (a := []) hb.symm) not_escapesNext_nil
        | cons d e' =>
            obtain ⟨rfl, -⟩ := List.cons.inj hb
            exact hc.escapesNext he

/-- The first quote behind the opening one that is not escaped is the last
character of a quoted text. -/
theorem quote_closes {t a b : Text} (h : t.quote = '"' :: (a ++ '"' :: b)) :
    ¬ EscapesNext a ↔ b = [] := by
  have hbody : t.flatMap escape ++ ['"'] = a ++ '"' :: b := (List.cons.inj h).2
  cases b using List.reverseRecOn with
  | nil =>
      obtain rfl := List.append_cancel_right hbody
      exact iff_of_true (not_escapesNext_flatMap_escape t) rfl
  | append_singleton b c =>
      rw [← List.cons_append, ← List.append_assoc] at hbody
      obtain ⟨hquoted, -⟩ := List.append_inj' hbody rfl
      exact iff_of_false (not_not_intro (escapesNext_of_flatMap_escape hquoted))
        (by simp)

end Text

-- ============================================================ strings

/-- A quoted text spells the text by the grammar of JSON. -/
theorem Json.spells_quote (t : Text) :
    Json.Spells .strict t.quote (.string t) := by
  obtain ⟨p, hp, hspells⟩ :=
    Json.stringSpells_of_read (Json.takes_readString_quote t [])
  obtain rfl := List.append_cancel_right hp
  exact .string hspells

theorem Text.quote_append_inj {s s' u u' : Text}
    (h : s.quote ++ u = s'.quote ++ u') :
    s = s' ∧ u = u' :=
  ((Json.stringLiteral_quote s).unique (Json.stringLiteral_quote s') h).2

-- ========================================================== references

theorem Calls.lookup_reference_iff (s m : Text) :
    Calls.Lookup (reference s) m ↔ m = s := by
  have hreference := Calls.lookup_reference s
  constructor
  · intro h
    have hend : Calls.EndsName [] := by simp [Calls.EndsName]
    exact (hreference.readAlone _ _ [] [] h hend hend rfl).2.1.symm
  · rintro rfl
    exact hreference

-- ============================================================ both

/-- What is read from a quoted text and from a reference. The quoted text is
a JSON string for the text and for no other, shows all its characters, and
ends at its first quote that is not escaped, so that it can be told from
what follows it. The reference is a lookup of the text and of no other, and
one marker between braces unless the text has a closing brace. -/
theorem quote_reference_readBack (s : Text) :
    Json.Spells .strict s.quote (.string s)
      ∧ (∀ t, Json.StringLiteral s.quote t ↔ t = s)
      ∧ (∀ c ∈ s.quote, 0x20 ≤ c.toNat)
      ∧ (∀ a b, s.quote = '"' :: (a ++ '"' :: b)
        → (¬ Text.EscapesNext a ↔ b = []))
      ∧ (∀ s' u u' : Text, s.quote ++ u = s'.quote ++ u' → s = s' ∧ u = u')
      ∧ (∀ m, Calls.Lookup (reference s) m ↔ m = s)
      ∧ (∀ s', reference s = reference s' → s = s')
      ∧ ('}' ∉ s → '}' ∉ reference s
        ∧ ∀ r, Segment.split (referenceMarker s ++ r)
          = .marker (reference s) :: Segment.split r) := by
  refine ⟨Json.spells_quote s, ?_, fun c hc => (Text.of_mem_quote hc).1,
    fun a b => Text.quote_closes, fun s' u u' => Text.quote_append_inj,
    Calls.lookup_reference_iff s, ?_,
    fun h => ⟨close_notMem_reference h, Segment.split_referenceMarker h⟩⟩
  · intro t
    have hliteral := Json.stringLiteral_quote s
    constructor
    · intro h
      have hsame : s.quote ++ [] = s.quote ++ [] := rfl
      exact (h.unique hliteral hsame).2.1
    · rintro rfl
      exact hliteral
  · intro s' h
    have hlookup : Calls.Lookup (reference s) s' :=
      h ▸ Calls.lookup_reference s'
    exact ((Calls.lookup_reference_iff s s').1 hlookup).symm

/-- A text with a quote, a backslash, a line break and an opening brace. -/
theorem quote_reference_readBack_mixed :
    let s : Text := "\"\\\n\x7b"
    s.quote = "\"\\\"\\\\\\n\x7b\"".toList
      ∧ Json.StringLiteral s.quote s
      ∧ ¬ Text.EscapesNext "\\\"\\\\\\n\x7b".toList
      ∧ '}' ∉ reference s
      ∧ Segment.split (referenceMarker s) = [.marker (reference s)] := by
  intro s
  obtain ⟨-, hliteral, -, hcloses, -, -, -, hmarker⟩ :=
    quote_reference_readBack s
  obtain ⟨hclose, hsplit⟩ := hmarker (by decide)
  refine ⟨by decide, (hliteral s).2 rfl, (hcloses _ [] (by decide)).2 rfl,
    hclose, ?_⟩
  have hwhole := hsplit []
  rwa [List.append_nil, Segment.split] at hwhole

end Stencil
