/-
Documents of options. A document is an object, whose members may come in
any order and among others that are only passed over, or an array;
`Options.Document` gives its texts and the value they spell.

For a document the reader gives the options that its value describes
(`Options.Document.ofText_eq_ok_iff`), and it gives none for any other
text. A number that the reader cannot hold makes a text no document; that
is decided by the rounded value, and so is not always a matter of its size
(`Options.number_below_largest_refused`).
-/
import Stencil.Proofs.Options.Assignments

namespace Stencil

-- =============================================================== texts

namespace Options

/-- How many brackets may lie one inside the other in the value of a field.
Of the levels that the reader has, the document takes one and the last is
not entered. -/
def depthLimit : Nat := 126

/-- A text for the value of a field. -/
def FieldSpells (p : Text) (v : Json) : Prop :=
  Json.Spells .strict p v ∧ v.depth ≤ depthLimit

/-- A text for the value behind a key. Where the key is that of no field
the value is passed over, and may be anything. -/
def MemberSpells (key p : Text) (v : Json) : Prop :=
  if (OptionField.ofKey? key).isSome then FieldSpells p v
  else ∃ v', Json.Spells .loose p v'

/-- The texts of documents, each with a value that it spells. -/
inductive Document : Text → Json → Prop
  | object {w q w' : Text} {ms : List (Text × Json)} (space : Json.IsSpace w)
      (members : Json.Listed (Json.Keyed .strict MemberSpells) true q ms)
      (space' : Json.IsSpace w') :
      Document (w ++ '{' :: (q ++ '}' :: w')) (.object ms)
  | array {w q w' : Text} {vs : List Json} (space : Json.IsSpace w)
      (items : Json.Listed FieldSpells true q vs) (space' : Json.IsSpace w') :
      Document (w ++ '[' :: (q ++ ']' :: w')) (.array vs)

end Options

-- =========================================================== documents

namespace Options

theorem assigns_iff_describedBy {ms : List (Text × Json)} {o : Options} :
    OptionsReader.Assigns [] ms {} o ↔ o.DescribedBy (.object ms) := by
  rw [OptionsReader.assigns_iff, DescribedBy]
  simp [OptionsReader.Says, Json.members?]

/-- An array of the first fields describes what the object with their keys
does. -/
theorem describedBy_array_iff {vs : List Json} {o : Options} :
    o.DescribedBy (.array vs)
      ↔ vs.length ≤ OptionField.all.length
        ∧ o.DescribedBy (.object (Options.keys.zip vs)) := by
  rw [DescribedBy, DescribedBy, Json.members?, Json.members?, Options.keys,
    List.length_map]
  by_cases h : vs.length ≤ OptionField.all.length
  · rw [if_pos h, and_iff_right h]
  · simp [h]

/-- Only space may follow what the reader has read. -/
theorem endsInSpace_iff {document : Except OptionsError (Options × Text)}
    {o : Options} :
    (match document with
      | .error e => .error e
      | .ok (o, rest) =>
        if (Json.skipSpace rest).isEmpty then .ok o else .error .malformed
      : Except OptionsError Options) = .ok o
    ↔ ∃ rest, Json.IsSpace rest ∧ document = .ok (o, rest) := by
  have hspace : ∀ rest, (Json.skipSpace rest).isEmpty ↔ Json.IsSpace rest := by
    intro rest
    simp [Json.skipSpace, Json.IsSpace, List.dropWhile_eq_nil_iff]
  simp only [← hspace]
  grind

/-- The reader starts at the first character that is no space, and only
space may follow what it reads. -/
theorem ofText_eq_ok_iff {s : Text} {o : Options} :
    ofText s = .ok o
      ↔ ∃ r rest, Json.IsSpace rest
        ∧ ((Json.skipSpace s = '[' :: r
            ∧ OptionsReader.readArray {} true r OptionField.all = .ok (o, rest))
          ∨ (Json.skipSpace s = '{' :: r
            ∧ OptionsReader.readObject {} [] true r = .ok (o, rest))) := by
  refine endsInSpace_iff.trans ?_
  split
  · next r hs =>
    rw [hs]
    grind
  · next r hs => grind
  · next harray hobject => grind

theorem itemTakes_of_spells {p w r : Text} {v : Json} (h : FieldSpells p v)
    (hw : Json.IsSpace w) (hr : NumberText.EndsBefore r) :
    OptionsReader.ItemTakes (w ++ (p ++ r)) v r := by
  obtain ⟨v', hv', hvalue⟩ :=
    @Json.Spells.reads OptionsReader.levels p v h.1 h.2 w r hw hr
  obtain rfl := hvalue rfl
  exact hv'

theorem spells_of_itemTakes {s r : Text} {v : Json}
    (h : OptionsReader.ItemTakes s v r) :
    ∃ w p, Json.IsSpace w ∧ s = w ++ (p ++ r) ∧ FieldSpells p v :=
  Json.spells_of_readValue h

theorem memberTakes_of_spells {key p w r : Text} {v : Json}
    (h : MemberSpells key p v) (hw : Json.IsSpace w)
    (hr : NumberText.EndsBefore r) :
    OptionsReader.MemberTakes key (w ++ (p ++ r)) v r := by
  unfold MemberSpells at h
  unfold OptionsReader.MemberTakes
  split at h
  · next hfield =>
    rw [if_pos hfield]
    exact itemTakes_of_spells h hw hr
  · next hfield =>
    rw [if_neg hfield]
    obtain ⟨v', hspells⟩ := h
    obtain ⟨v'', hv'', -⟩ :=
      @Json.Spells.reads none p v' hspells trivial w r hw hr
    exact ⟨v'', hv''⟩

theorem spells_of_memberTakes {key s r : Text} {v : Json}
    (h : OptionsReader.MemberTakes key s v r) :
    ∃ w p, Json.IsSpace w ∧ s = w ++ (p ++ r) ∧ MemberSpells key p v := by
  unfold OptionsReader.MemberTakes at h
  unfold MemberSpells
  split at h
  · next hfield =>
    simp only [if_pos hfield]
    exact spells_of_itemTakes h
  · next hfield =>
    simp only [if_neg hfield]
    obtain ⟨v', hv'⟩ := h
    obtain ⟨w, p, hw, hs, hspells, -⟩ := Json.spells_of_readValue hv'
    exact ⟨w, p, hw, hs, v', hspells⟩

/-- The members of a document are taken by the reader. -/
theorem takesList_of_members {q : Text} {ms : List (Text × Json)}
    (members : Json.Listed (Json.Keyed .strict MemberSpells) true q ms)
    (rest : Text) :
    Json.TakesList '}' (Json.TakesKeyed .strict OptionsReader.MemberTakes) true
      (q ++ '}' :: rest) ms rest := by
  obtain ⟨ms', hms', hsame⟩ : ∃ ms', Json.TakesList '}'
      (Json.TakesKeyed .strict OptionsReader.MemberTakes) true
        (q ++ '}' :: rest) ms' rest
      ∧ (True → ms' = ms) := by
    refine members.takesList (.inr rfl) ?_ ?_ rest
    · intro p m hp
      cases hp
      exact ⟨'"', _, rfl, by decide⟩
    · intro p m w r hp hw hr
      refine hp.takesKeyed (fun _ => rfl) hw fun key key' p v w hkey hv hw => ?_
      obtain rfl := hkey rfl
      exact ⟨v, memberTakes_of_spells hv hw hr, fun _ => rfl⟩
  rwa [← hsame trivial]

theorem takesList_of_items {q : Text} {vs : List Json}
    (items : Json.Listed FieldSpells true q vs) (rest : Text) :
    Json.TakesList ']' OptionsReader.ItemTakes true (q ++ ']' :: rest)
      vs rest := by
  obtain ⟨vs', hvs', hsame⟩ : ∃ vs',
      Json.TakesList ']' OptionsReader.ItemTakes true
      (q ++ ']' :: rest) vs' rest ∧ (True → vs' = vs) := by
    refine items.takesList (.inl rfl) ?_ ?_ rest
    · intro p v hp
      obtain ⟨c, u, rfl, hspace, hclose, -⟩ := hp.1.head
      exact ⟨c, u, rfl, hspace, hclose⟩
    · intro p v w r hp hw hr
      exact ⟨v, itemTakes_of_spells hp hw hr, fun _ => rfl⟩
  rwa [← hsame trivial]

/-- For a document the reader gives the options that its value describes. -/
theorem Document.ofText_eq_ok_iff {s : Text} {j : Json} (h : Document s j)
    {o : Options} :
    ofText s = .ok o ↔ o.DescribedBy j := by
  rw [Options.ofText_eq_ok_iff]
  cases h with
  | @object w q w' ms space members space' =>
      have hs : Json.skipSpace (w ++ '{' :: (q ++ '}' :: w'))
          = '{' :: (q ++ '}' :: w') :=
        Json.skipSpace_append_cons space (by decide)
      have htakes := takesList_of_members members w'
      constructor
      · intro h
        obtain ⟨r, rest, -, ⟨hskip, -⟩ | ⟨hskip, hread⟩⟩ := h
        · rw [hs] at hskip
          exact absurd (List.cons.inj hskip).1 (by decide)
        · rw [hs] at hskip
          obtain rfl := (List.cons.inj hskip).2
          obtain ⟨-, hassigns⟩ :=
            (OptionsReader.readObject_of_takesList htakes).1 hread
          exact assigns_iff_describedBy.1 hassigns
      · intro h
        refine ⟨_, w', space', .inr ⟨hs, ?_⟩⟩
        rw [OptionsReader.readObject_of_takesList htakes]
        exact ⟨rfl, assigns_iff_describedBy.2 h⟩
  | @array w q w' vs space items space' =>
      have hs : Json.skipSpace (w ++ '[' :: (q ++ ']' :: w'))
          = '[' :: (q ++ ']' :: w') :=
        Json.skipSpace_append_cons space (by decide)
      have htakes := takesList_of_items items w'
      have hfields : OptionField.all.Nodup := by decide
      have hseen : ∀ field ∈ OptionField.all,
          field ∉ ([] : List OptionField) := by simp
      rw [describedBy_array_iff, ← assigns_iff_describedBy]
      constructor
      · intro h
        obtain ⟨r, rest, -, ⟨hskip, hread⟩ | ⟨hskip, -⟩⟩ := h
        · rw [hs] at hskip
          obtain rfl := (List.cons.inj hskip).2
          obtain ⟨hlength, -, hassigns⟩ :=
            (OptionsReader.readArray_of_takesList htakes hfields hseen).1 hread
          exact ⟨hlength, hassigns⟩
        · rw [hs] at hskip
          exact absurd (List.cons.inj hskip).1 (by decide)
      · intro h
        refine ⟨_, w', space', .inl ⟨hs, ?_⟩⟩
        rw [OptionsReader.readArray_of_takesList htakes hfields hseen]
        exact ⟨h.1, rfl, h.2⟩

/-- The reader gives no options for any other text. -/
theorem document_of_ofText {s : Text} {o : Options} (h : ofText s = .ok o) :
    ∃ j, Document s j := by
  obtain ⟨r, rest, hrest, ⟨hs, hread⟩ | ⟨hs, hread⟩⟩ :=
    Options.ofText_eq_ok_iff.1 h
  · obtain ⟨-, w, hw, rfl⟩ := Json.skipSpace_eq_cons_iff.1 hs
    obtain ⟨vs, hvs⟩ := OptionsReader.takesList_of_readArray hread
    obtain ⟨q, rfl, hitems⟩ :=
      hvs.listed fun _ _ _ _ hv => spells_of_itemTakes hv
    exact ⟨.array vs, .array hw hitems hrest⟩
  · obtain ⟨-, w, hw, rfl⟩ := Json.skipSpace_eq_cons_iff.1 hs
    obtain ⟨ms, hms⟩ := OptionsReader.takesList_of_readObject hread
    obtain ⟨q, rfl, hmembers⟩ := hms.listed fun _ _ _ _ hm =>
      hm.keyed fun _ _ _ _ hv => spells_of_memberTakes hv
    exact ⟨.object ms, .object hw hmembers hrest⟩

/-- Options are read field by field. A document is read if each key of a
field stands at most once with a value valid for it, whatever stands
between, and gives the value of each key that stands and the default of
each other field. An array, at each of the three places for one, is read
as the object with the first keys. -/
theorem ofText_field_by_field :
    (∀ s j, Document s j → ((∃ o, ofText s = .ok o) ↔ Valid j)
      ∧ ∀ o, ofText s = .ok o → o.DescribedBy j)
    ∧ (∀ s s' vs, Document s (.array vs)
      → Document s' (.object (Options.keys.zip vs)) →
      vs.length ≤ Options.keys.length → ∀ o, ofText s = .ok o
        ↔ ofText s' = .ok o)
    ∧ (∀ vs, vs.length ≤ Layout.keys.length →
      PrettySetting.ofJson? (.array vs)
        = PrettySetting.ofJson? (.object (Layout.keys.zip vs)))
    ∧ ∀ vs, vs.length ≤ CallNames.keys.length →
      JsxSetting.ofJson? (.array vs)
        = JsxSetting.ofJson? (.object (CallNames.keys.zip vs)) := by
  refine ⟨?_, ?_, fun vs => PrettySetting.ofJson?_array,
    fun vs => JsxSetting.ofJson?_array⟩
  · intro s j h
    refine ⟨?_, fun o ho => h.ofText_eq_ok_iff.1 ho⟩
    rw [← exists_describedBy_iff]
    exact exists_congr fun o => h.ofText_eq_ok_iff
  · intro s s' vs h h' hlength o
    rw [h.ofText_eq_ok_iff, h'.ofText_eq_ok_iff, describedBy_array_iff]
    exact and_iff_right hlength

/-- A document whose members come in another order than the fields, with
one between them that is passed over. -/
def mixedDocument : Text :=
  " \x7b \"x\" : [1e999, \x7b\"y\":\"\\ud800\"\x7d],\n\"jsx\":".toList
    ++ "\x7b\"z\":null,\"jsx\":\"h\"\x7d, \"pretty\":[4]\x7d".toList

theorem ofText_field_by_field_mixed :
    ∃ j, Document mixedDocument j
      ∧ ofText mixedDocument
        = .ok { pretty := .layout ⟨4, 2⟩, jsx := .names { jsx := "h" } }
      ∧ DescribedBy
          { pretty := .layout ⟨4, 2⟩, jsx := .names { jsx := "h" } } j := by
  have hread : ofText mixedDocument
      = .ok { pretty := .layout ⟨4, 2⟩, jsx := .names { jsx := "h" } } := by
    decide +kernel
  obtain ⟨j, hj⟩ := document_of_ofText hread
  exact ⟨j, hj, hread, (ofText_field_by_field.1 mixedDocument j hj).2 _ hread⟩

/-- A number below the largest of double precision makes a document
unreadable, if its leading digits and its power of ten, each rounded, have
a product beyond it. -/
theorem number_below_largest_refused :
    decimalValue "17976931348623156225" * Nat.pow 10 289
      < (Nat.pow 2 53 - 1) * Nat.pow 2 971
      ∧ NumberText.Spells "17976931348623156225e289"
        ⟨false, "17976931348623156225", none, some (false, "289")⟩
      ∧ ofText "\x7b\"pretty\":\x7b\"x\":17976931348623156225e289\x7d\x7d"
        = .error .malformed
      ∧ ofText "\x7b\"pretty\":\x7b\"x\":0\x7d\x7d"
        = .ok { pretty := .layout {} } := by
  refine ⟨by decide +kernel, ?_, by decide +kernel, by decide +kernel⟩
  have hread : Json.readNumberText "17976931348623156225e289"
      = .ok (⟨false, "17976931348623156225", none, some (false, "289")⟩,
        []) := by
    decide +kernel
  obtain ⟨p, hp, hspells⟩ := NumberText.spells_of_read hread
  rw [hp, List.append_nil]
  exact hspells

end Options

end Stencil
