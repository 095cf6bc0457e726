/-
What the reader of options does. It goes through the members of an object
or the items of an array one by one and changes the options at each.
`Assigns` is that, member after member; field by field it is what the
members say (`assigns_iff`).

The two readers are shown to be such assignments where they take members
or items (`readObject_of_takesList`, `readArray_of_takesList`), and to give
options nowhere else.
-/
import Stencil.Proofs.Json.Values
import Stencil.Proofs.Options.Settings

namespace Stencil

-- ========================================================= assignments

/-- Options before and after one of their fields is set. -/
def OptionField.Sets (field : OptionField) (v : Json) (o o' : Options) : Prop :=
  field.Holds v o' ∧ ∀ other : OptionField, other ≠ field → other.Same o' o

/-- A field can be given the value that it has in other options. -/
theorem OptionField.exists_sets {field : OptionField} {v : Json} {o' : Options}
    (h : field.Holds v o') (o : Options) :
    ∃ mid, field.Sets v o mid ∧ field.Same o' mid := by
  simp only [Sets, forall_iff]
  cases field with
  | componentName =>
      exact ⟨{ o with componentName := o'.componentName }, by simp_all
        [Holds, Same]⟩
  | pretty => exact ⟨{ o with pretty := o'.pretty }, by simp_all [Holds, Same]⟩
  | jsx => exact ⟨{ o with jsx := o'.jsx }, by simp_all [Holds, Same]⟩
  | preserveWhitespace =>
      exact ⟨{ o with preserveWhitespace := o'.preserveWhitespace }, by simp_all
        [Holds, Same]⟩

namespace OptionsReader

open Taken (Gives gives_ok not_gives_error gives_map_iff gives_cases)

/-- Options before and after the members of an object, given the fields
that had their turn before: no field has two. -/
def Assigns (seen : List OptionField) :
    List (Text × Json) → Options → Options → Prop
  | [], o, o' => o' = o
  | (key, v) :: ms, o, o' =>
    match OptionField.ofKey? key with
    | some field =>
      field ∉ seen ∧ ∃ mid, field.Sets v o mid
        ∧ Assigns (field :: seen) ms mid o'
    | none => Assigns seen ms o o'

/-- What members say about a field, given the fields that had their turn
before. -/
def Says (seen : List OptionField) (ms : List (Text × Json)) (o o' : Options)
    (field : OptionField) : Prop :=
  if field ∈ seen then field.key ∉ ms.map Prod.fst ∧ field.Same o' o
  else Json.Given ms field.key (field.Holds · o') (field.Same o' o)

theorem says_cons_self {seen : List OptionField} {ms : List (Text × Json)}
    {o o' : Options} {field : OptionField} {v : Json} (hseen : field ∉ seen) :
    Says seen ((field.key, v) :: ms) o o' field
      ↔ field.key ∉ ms.map Prod.fst ∧ field.Holds v o' := by
  rw [Says, if_neg hseen, Json.given_cons_self]

/-- A field is not concerned with the turn of another one. -/
theorem says_cons_of_ne {seen : List OptionField} {ms : List (Text × Json)}
    {o mid o' : Options} {field other : OptionField} {v : Json}
    (hother : other ≠ field) (hsame : other.Same mid o) :
    Says seen ((field.key, v) :: ms) o o' other
      ↔ Says (field :: seen) ms mid o' other := by
  have hne : field.key ≠ other.key := OptionField.key_injective.ne hother.symm
  have hiff : other.Same o' mid ↔ other.Same o' o :=
    ⟨fun h => h.trans hsame, fun h => h.trans hsame.symm⟩
  rw [Says, Says, Json.given_cons_of_ne hne, hiff]
  simp only [List.mem_cons, hother, hne.symm, List.map_cons, false_or]

/-- Setting one field after another is what the members say of each. -/
theorem assigns_iff {seen : List OptionField} {ms : List (Text × Json)}
    {o o' : Options} :
    Assigns seen ms o o' ↔ ∀ field, Says seen ms o o' field := by
  induction ms generalizing seen o with
  | nil => simp [Assigns, Says, Json.Given, ← OptionField.forall_same_iff]
  | cons m ms ih =>
    obtain ⟨key, v⟩ := m
    cases hkey : OptionField.ofKey? key with
    | none =>
        simp only [Assigns, hkey, ih]
        refine forall_congr' fun field => ?_
        have hne := OptionField.ofKey?_eq_none_iff.1 hkey field
        rw [Says, Says, Json.given_cons_of_ne hne.symm]
        simp [hne]
    | some field =>
        simp only [Assigns, hkey, ih]
        obtain rfl := OptionField.ofKey?_eq_some_iff.1 hkey
        constructor
        · intro h other
          obtain ⟨hseen, mid, ⟨hholds, hothers⟩, htold⟩ := h
          by_cases hother : other = field
          · subst hother
            have hself := htold other
            rw [Says, if_pos (List.mem_cons_self ..)] at hself
            exact (says_cons_self hseen).2 ⟨hself.1, hholds.of_same hself.2⟩
          · exact (says_cons_of_ne hother (hothers other hother)).2
              (htold other)
        · intro h
          have hseen : field ∉ seen := by
            intro hmem
            have hself := h field
            rw [Says, if_pos hmem] at hself
            exact hself.1 (List.mem_cons_self ..)
          obtain ⟨hkeys, hholds⟩ := (says_cons_self hseen).1 (h field)
          obtain ⟨mid, hsets, hmid⟩ := OptionField.exists_sets hholds o
          refine ⟨hseen, mid, hsets, fun other => ?_⟩
          by_cases hother : other = field
          · subst hother
            rw [Says, if_pos (List.mem_cons_self ..)]
            exact ⟨hkeys, hmid⟩
          · exact (says_cons_of_ne hother (hsets.2 other hother)).1 (h other)

-- ============================================================== fields

theorem gives_readForm_iff {α : Type} {unknown : OptionsError}
    {ofJson? : Json → Option α} {s rest : Text} {a : α} :
    Gives (readForm unknown ofJson? s) a rest
      ↔ ∃ v, Json.Takes (Json.readValue levels s) v rest
        ∧ ofJson? v = some a := by
  unfold readForm
  cases Json.readValue levels s with
  | error e => simp [not_gives_error, Json.not_takes_error]
  | ok t =>
      simp only [Json.takes_ok]
      cases hvalue : ofJson? t.value with
      | none => grind [not_gives_error]
      | some b => grind [gives_ok, Taken.map]

theorem gives_readFitting_iff {α : Type} {expected : Expectation}
    {fits : Json → Option α} {s rest : Text} {a : α} :
    Gives (readFitting expected fits s) a rest
      ↔ ∃ v, Json.Takes (Json.readScalar .strict (Json.skipSpace s)) v rest
        ∧ fits v = some a := by
  unfold readFitting
  cases Json.readScalar .strict (Json.skipSpace s) with
  | error e => simp [not_gives_error, Json.not_takes_error]
  | ok t =>
      simp only [Json.takes_ok]
      cases hvalue : fits t.value with
      | none => grind [not_gives_error]
      | some b => grind [gives_ok, Taken.map, Taken.ofTail]

/-- A value without brackets is a value like any other. -/
theorem takes_readValue_flat_iff {s rest : Text} {v : Json}
    (hflat : v.depth = 0) :
    Json.Takes (Json.readValue levels s) v rest
      ↔ Json.Takes (Json.readScalar .strict (Json.skipSpace s)) v rest := by
  rw [Json.takes_readValue_iff]
  constructor
  · intro h
    obtain ⟨c, r, hs, ⟨-, _, vs, -, -, rfl⟩ | ⟨-, _, ms, -, -, rfl⟩
        | ⟨-, -, h⟩⟩ := h
    · simp [Json.depth] at hflat
    · simp [Json.depth] at hflat
    · rw [hs]
      exact h
  · intro h
    obtain ⟨p, hp, hspells, -⟩ := Json.spells_of_readScalar h
    obtain ⟨c, u, rfl, -, -, hhead⟩ := hspells.head
    rw [hp] at h
    exact ⟨c, u ++ rest, hp, .inr (.inr ⟨(hhead hflat).1, (hhead hflat).2, h⟩)⟩

/-- A reader of one kind of value without brackets. -/
theorem gives_readFitting_flat_iff {α : Type} {expected : Expectation}
    {fits : Json → Option α} (wrap : α → Json) (hflat : ∀ a, (wrap a).depth = 0)
    (hfits : ∀ v a, fits v = some a ↔ v = wrap a) {s rest : Text} {a : α} :
    Gives (readFitting expected fits s) a rest
      ↔ Json.Takes (Json.readValue levels s) (wrap a) rest := by
  simp only [gives_readFitting_iff, takes_readValue_flat_iff (hflat a), hfits,
    exists_eq_right]

theorem gives_readText_iff {s t rest : Text} :
    Gives (readText s) t rest
      ↔ Json.Takes (Json.readValue levels s) (.string t) rest :=
  gives_readFitting_flat_iff Json.string (fun _ => rfl) fun v a => by
    cases v <;> simp

theorem gives_readBool_iff {s rest : Text} {b : Bool} :
    Gives (readBool s) b rest
      ↔ Json.Takes (Json.readValue levels s) (.bool b) rest :=
  gives_readFitting_flat_iff Json.bool (fun _ => rfl) fun v a => by
    cases v <;> simp

/-- A field is set to the value that stands there. -/
theorem gives_readField_iff {o o' : Options} {field : OptionField}
    {s rest : Text} :
    Gives (readField o field s) o' rest
      ↔ ∃ v, Json.Takes (Json.readValue levels s) v rest
        ∧ field.Sets v o o' := by
  obtain ⟨name', pretty', jsx', keep'⟩ := o'
  simp only [OptionField.Sets, OptionField.forall_iff]
  cases field with
  | componentName =>
      rw [readField, gives_map_iff (fun t => { o with componentName := t })
        (by simp [Taken.map])]
      simp only [gives_readText_iff]
      grind [OptionField.Holds, OptionField.Same]
  | pretty =>
      rw [readField, gives_map_iff (fun p => { o with pretty := p })
        (by simp [Taken.map])]
      simp only [gives_readForm_iff, PrettySetting.ofJson?_eq_some_iff]
      grind [OptionField.Holds, OptionField.Same]
  | jsx =>
      rw [readField, gives_map_iff (fun j => { o with jsx := j })
        (by simp [Taken.map])]
      simp only [gives_readForm_iff, JsxSetting.ofJson?_eq_some_iff]
      grind [OptionField.Holds, OptionField.Same]
  | preserveWhitespace =>
      rw [readField, gives_map_iff (fun b => { o with preserveWhitespace := b })
        (by simp [Taken.map])]
      simp only [gives_readBool_iff]
      grind [OptionField.Holds, OptionField.Same]

/-- Where a value stands, the field can only be set to that. -/
theorem gives_readField_of_takes {o mid : Options} {field : OptionField}
    {s rest rest' : Text} {v : Json}
    (h : Json.Takes (Json.readValue levels s) v rest) :
    Gives (readField o field s) mid rest'
      ↔ rest' = rest ∧ field.Sets v o mid := by
  rw [gives_readField_iff]
  constructor
  · intro hread
    obtain ⟨v', hv', hsets⟩ := hread
    obtain ⟨rfl, rfl⟩ := hv'.unique h
    exact ⟨rfl, hsets⟩
  · intro hsets
    obtain ⟨rfl, hsets⟩ := hsets
    exact ⟨v, h, hsets⟩

-- ============================================================= members

/-- What the reader takes for the value behind a key. -/
def MemberTakes (key s : Text) (v : Json) (rest : Text) : Prop :=
  if (OptionField.ofKey? key).isSome then
    Json.Takes (Json.readValue levels s) v rest
  else ∃ v', Json.Takes (Json.readValue none s) v' rest

theorem gives_readMember_iff {o o' : Options} {field : Option OptionField}
    {s rest : Text} :
    Gives (readMember o field s) o' rest
      ↔ ∃ r, Json.Takes (Json.readColon s) () r
        ∧ match field with
          | some field => Gives (readField o field r) o' rest
          | none =>
            (∃ v, Json.Takes (Json.readValue none r) v rest) ∧ o' = o := by
  unfold readMember
  cases Json.readColon s with
  | error e => simp [not_gives_error, Json.not_takes_error]
  | ok colon =>
      simp only [Json.takes_ok, true_and, exists_eq_left']
      cases field with
      | some field =>
          simp only
          rw [gives_map_iff id (by simp [Taken.ofTail])]
          simp
      | none =>
          simp only [skipValue]
          rw [gives_map_iff (fun _ => o) (by simp [Taken.ofTail, Taken.map])]
          cases Json.readValue none colon.rest with
          | error e => simp [not_gives_error, Json.not_takes_error]
          | ok t => simp [gives_ok, Json.takes_ok, Taken.map]

/-- One turn of the reader of members, where it takes one. -/
theorem readObject_of_member {o : Options} {seen : List OptionField}
    {isFirst : Bool} {s r rest : Text} {m : Text × Json} {out : Options × Text}
    (place : Json.ItemAt '}' isFirst s r)
    (head : Json.TakesKeyed .strict MemberTakes r m rest) :
    readObject o seen isFirst s = .ok out
      ↔ match OptionField.ofKey? m.1 with
        | some field => field ∉ seen ∧ ∃ mid, field.Sets m.2 o mid
          ∧ readObject mid (field :: seen) false rest = .ok out
        | none => readObject o seen false rest = .ok out := by
  obtain ⟨h, hnext⟩ := (Json.nextItem_item_iff (.inr rfl)).2 place
  obtain ⟨u, r', ⟨k, hk, hkey, rfl⟩, hcolon, hvalue⟩ := head
  rw [readObject]
  simp only [hnext, hk, hkey]
  cases hfield : OptionField.ofKey? m.1 with
  | none =>
      rw [MemberTakes, hfield] at hvalue
      have hmember : Gives (readMember o none k.rest) o rest :=
        gives_readMember_iff.2 ⟨r', hcolon, hvalue, rfl⟩
      obtain ⟨t, ht, hkept, rfl⟩ := hmember
      simp [ht, hkept]
  | some field =>
      rw [MemberTakes, hfield] at hvalue
      have hmember : ∀ mid rest',
          Gives (readMember o (some field) k.rest) mid rest'
          ↔ rest' = rest ∧ field.Sets m.2 o mid := by
        intro mid rest'
        rw [← gives_readField_of_takes hvalue, gives_readMember_iff]
        constructor
        · intro h
          obtain ⟨r'', hcolon', hread⟩ := h
          obtain ⟨-, rfl⟩ := hcolon.unique hcolon'
          exact hread
        · intro hread
          exact ⟨r', hcolon, hread⟩
      by_cases hseen : field ∈ seen
      · simp [hseen, Option.filter]
      · simp only [Option.filter, hseen, decide_false,
          Bool.false_eq_true, if_false, not_false_eq_true, true_and,
          Option.toList_some, List.singleton_append]
        rcases gives_cases hmember with ⟨e, hread, hnone⟩
          | ⟨t, hread, hrest, hvalue⟩
        · simp [hread, hnone]
        · simp [hread, hrest, hvalue]

/-- Where the reader takes members, it sets the fields as they say. -/
theorem readObject_of_takesList {o o' : Options} {seen : List OptionField}
    {isFirst : Bool} {s rest rest' : Text} {ms : List (Text × Json)}
    (h : Json.TakesList '}' (Json.TakesKeyed .strict MemberTakes)
      isFirst s ms rest) :
    readObject o seen isFirst s = .ok (o', rest')
      ↔ rest' = rest ∧ Assigns seen ms o o' := by
  induction h generalizing o seen with
  | @nil isFirst s rest closed =>
      obtain ⟨_, hnext⟩ : ∃ h, Json.nextItem '}' isFirst s
          = .ok (.closed rest h) :=
        (Json.nextItem_closed_iff (.inr rfl)).2 closed
      rw [readObject, Assigns]
      simp only [hnext, Except.ok.injEq, Prod.mk.injEq]
      grind
  | @cons isFirst s r r' rest m ms place head tail ih =>
      rw [readObject_of_member place head, Assigns]
      cases OptionField.ofKey? m.1 with
      | none => exact ih
      | some field =>
          simp only [ih]
          grind

/-- The reader gives options only where it takes members. -/
theorem takesList_of_readObject {o o' : Options} {seen : List OptionField}
    {isFirst : Bool} {s rest : Text}
    (h : readObject o seen isFirst s = .ok (o', rest)) :
    ∃ ms, Json.TakesList '}' (Json.TakesKeyed .strict MemberTakes)
      isFirst s ms rest := by
  fun_induction readObject o seen isFirst s with
  | case1 => cases h
  | case2 o seen isFirst s r hr hnext =>
      cases h
      exact ⟨[], .nil ((Json.nextItem_closed_iff (.inr rfl)).1 ⟨_, hnext⟩)⟩
  | case3 => cases h
  | case4 => cases h
  | case5 => cases h
  | case6 o seen isFirst s r hr hnext key hkey field hfilter t ht hkshort
    htshort ih =>
      obtain ⟨ms, hms⟩ := ih h
      obtain ⟨u, hcolon, hvalue⟩ := gives_readMember_iff.1 ⟨t, ht, rfl, rfl⟩
      obtain ⟨v, hv⟩ : ∃ v, MemberTakes key.value u v t.rest := by
        simp only [MemberTakes]
        change match OptionField.ofKey? key.value with
          | some field => Gives (readField o field u) t.value t.rest
          | none =>
            (∃ v, Json.Takes (Json.readValue none u) v t.rest)
              ∧ t.value = o at hvalue
        cases hfield : OptionField.ofKey? key.value with
        | none =>
            rw [hfield] at hvalue
            exact ⟨.null, hvalue.1⟩
        | some f =>
            rw [hfield] at hvalue
            obtain ⟨v, hv, -⟩ := gives_readField_iff.1 hvalue
            exact ⟨v, hv⟩
      exact ⟨(key.value, v) :: ms,
        .cons ((Json.nextItem_item_iff (.inr rfl)).1 ⟨_, hnext⟩)
        ⟨key.rest, u, ⟨key, hkey, rfl, rfl⟩, hcolon, hv⟩ hms⟩

-- =============================================================== items

/-- What the reader takes for an item of an array. -/
def ItemTakes (s : Text) (v : Json) (rest : Text) : Prop :=
  Json.Takes (Json.readValue levels s) v rest

/-- One turn of the reader of an array, where it takes an item. -/
theorem readArray_of_item {o : Options} {isFirst : Bool} {s r rest : Text}
    {v : Json} {field : OptionField} {fields : List OptionField}
    {out : Options × Text} (place : Json.ItemAt ']' isFirst s r)
    (head : ItemTakes r v rest) :
    readArray o isFirst s (field :: fields) = .ok out
      ↔ ∃ mid, field.Sets v o mid
        ∧ readArray mid false rest fields = .ok out := by
  obtain ⟨h, hnext⟩ := (Json.nextItem_item_iff (.inl rfl)).2 place
  have hfield : ∀ mid rest', Gives (readField o field r) mid rest'
      ↔ rest' = rest ∧ field.Sets v o mid :=
        fun _ _ => gives_readField_of_takes head
  simp only [readArray, hnext]
  rcases gives_cases hfield with ⟨e, hread, hnone⟩ | ⟨t, hread, hrest, hvalue⟩
  · simp [hread, hnone]
  · simp [hread, hrest, hvalue]

theorem skipSpace_of_itemAt {close : Char} {isFirst : Bool} {s r : Text}
    (hclose : Json.IsClosing close) (h : Json.ItemAt close isFirst s r) :
    ∃ c u, Json.skipSpace s = c :: u ∧ c ≠ close := by
  cases isFirst with
  | true => exact h.2
  | false =>
      obtain ⟨w, hw, rfl⟩ := h
      exact ⟨',', r, Json.skipSpace_append_cons hw (by decide),
        hclose.ne_comma.symm⟩

theorem readArray_of_closed {o : Options} {isFirst : Bool} {s rest : Text}
    {fields : List OptionField} (closed : Json.Closes ']' s rest) :
    readArray o isFirst s fields = .ok (o, rest) := by
  cases fields with
  | nil =>
      obtain ⟨w, hw, rfl⟩ := closed
      have hs : Json.skipSpace (w ++ ']' :: rest) = ']' :: rest :=
        Json.skipSpace_append_cons hw (by decide)
      simp [readArray, hs]
  | cons field fields =>
      obtain ⟨_, hnext⟩ : ∃ h, Json.nextItem ']' isFirst s
          = .ok (.closed rest h) :=
        (Json.nextItem_closed_iff (.inl rfl)).2 closed
      simp [readArray, hnext]

/-- Where the reader takes items, it sets the fields in their order, as the
members of an object with the first keys would. -/
theorem readArray_of_takesList {o o' : Options} {seen fields : List OptionField}
    {isFirst : Bool} {s rest rest' : Text} {vs : List Json}
    (h : Json.TakesList ']' ItemTakes isFirst s vs rest)
    (hfields : fields.Nodup) (hseen : ∀ field ∈ fields, field ∉ seen) :
    readArray o isFirst s fields = .ok (o', rest')
      ↔ vs.length ≤ fields.length ∧ rest' = rest
        ∧ Assigns seen ((fields.map OptionField.key).zip vs) o o' := by
  induction h generalizing o seen fields with
  | nil closed =>
      rw [readArray_of_closed closed, List.zip_nil_right, Assigns]
      simp only [Except.ok.injEq, Prod.mk.injEq, List.length_nil]
      grind
  | @cons isFirst s r r' rest v vs place head tail ih =>
      cases fields with
      | nil =>
          obtain ⟨c, u, hs, hc⟩ := skipSpace_of_itemAt (.inl rfl) place
          simp [readArray, hs, hc]
      | cons field fields =>
          obtain ⟨hfield, hfields⟩ := List.nodup_cons.1 hfields
          obtain ⟨hfresh, hrest⟩ := List.forall_mem_cons.1 hseen
          have hseen' : ∀ other ∈ fields, other ∉ field :: seen := by
            intro other hother hmem
            rcases List.mem_cons.1 hmem with rfl | hmem
            · exact hfield hother
            · exact hrest other hother hmem
          rw [readArray_of_item place head, List.map_cons,
            List.zip_cons_cons, Assigns, OptionField.ofKey?_eq_some_iff.2 rfl]
          simp only [ih hfields hseen', hfresh, List.length_cons]
          grind

/-- The reader gives options only where it takes items. -/
theorem takesList_of_readArray {o o' : Options} {fields : List OptionField}
    {isFirst : Bool} {s rest : Text}
    (h : readArray o isFirst s fields = .ok (o', rest)) :
    ∃ vs, Json.TakesList ']' ItemTakes isFirst s vs rest := by
  fun_induction readArray o isFirst s fields with
  | case1 => cases h
  | case2 o isFirst s r hs =>
      cases h
      obtain ⟨-, w, hw, rfl⟩ := Json.skipSpace_eq_cons_iff.1 hs
      exact ⟨[], .nil ⟨w, hw, rfl⟩⟩
  | case3 => cases h
  | case4 => cases h
  | case5 o isFirst s field fields r hr hnext =>
      cases h
      exact ⟨[], .nil ((Json.nextItem_closed_iff (.inl rfl)).1 ⟨_, hnext⟩)⟩
  | case6 => cases h
  | case7 o isFirst s field fields r hr hnext t ht ih =>
      obtain ⟨vs, hvs⟩ := ih h
      obtain ⟨v, hv, -⟩ := gives_readField_iff.1 ⟨t, ht, rfl, rfl⟩
      exact ⟨v :: vs,
        .cons ((Json.nextItem_item_iff (.inl rfl)).1 ⟨_, hnext⟩) hv hvs⟩

end OptionsReader

end Stencil
