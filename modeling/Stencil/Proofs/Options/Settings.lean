/-
What a JSON value says about options. `Json.Given` is the rule for one key
of a record: its value where the key stands, once, and the default where it
does not; a record is an object, or an array of the values of its first
keys (`Json.members?`). A layout, the names of nested calls and the options
themselves are described by that rule, key by key and in no order.

The three functions that read a setting from a JSON value accept what
describes one and nothing else.
-/
import Stencil.Options.Reader
import Mathlib.Data.List.Nodup

namespace Stencil

-- ============================================================= records

namespace Json

/-- The members of a record: those of an object, or the items of an array
under the first of its keys. -/
def members? (keys : List Text) : Json → Option (List (Text × Json))
  | .object members => some members
  | .array items =>
    if items.length ≤ keys.length then some (keys.zip items) else none
  | _ => none

/-- What members say about a key: it stands there once with a value that
holds, or not at all and the default does. -/
def Given (members : List (Text × Json)) (key : Text) (holds : Json → Prop)
    (default : Prop) :
    Prop :=
  (∃ value, members.filter (·.1 = key) = [(key, value)] ∧ holds value)
    ∨ (key ∉ members.map Prod.fst ∧ default)

/-- The value of a key, if it stands there at most once. -/
def found? (members : List (Text × Json)) (key : Text) : Option (Option Json) :=
  match members.filter (·.1 = key) with
  | [] => some none
  | [(_, value)] => some (some value)
  | _ => none

theorem filter_key_eq_nil_iff {members : List (Text × Json)} {key : Text} :
    members.filter (·.1 = key) = [] ↔ key ∉ members.map Prod.fst := by
  simp only [List.filter_eq_nil_iff, decide_eq_true_eq, List.mem_map,
    not_exists, not_and]

/-- A member with another key says nothing about a key. -/
theorem given_cons_of_ne {members : List (Text × Json)} {k key : Text}
    {v : Json} {holds : Json → Prop} {default : Prop} (h : k ≠ key) :
    Given ((k, v) :: members) key holds default
      ↔ Given members key holds default := by
  simp [Given, h, h.symm]

/-- A member says what its key is given as, if no other has the key. -/
theorem given_cons_self {members : List (Text × Json)} {key : Text} {v : Json}
    {holds : Json → Prop} {default : Prop} :
    Given ((key, v) :: members) key holds default
      ↔ key ∉ members.map Prod.fst ∧ holds v := by
  rw [← filter_key_eq_nil_iff]
  simp only [Given, List.filter_cons, decide_true, if_true, List.map_cons,
    List.mem_cons, true_or, not_true_eq_false, false_and, or_false,
    List.cons.injEq, Prod.mk.injEq, true_and]
  constructor
  · intro h
    obtain ⟨value, ⟨rfl, hfilter⟩, hvalue⟩ := h
    exact ⟨hfilter, hvalue⟩
  · intro h
    exact ⟨v, ⟨rfl, h.1⟩, h.2⟩

/-- What a key is given as is what a search for it finds, which fails where the
key comes twice. -/
theorem given_iff_found? {members : List (Text × Json)} {key : Text}
    {holds : Json → Prop} {default : Prop} :
    Given members key holds default
      ↔ ∃ found, found? members key = some found
        ∧ found.elim default holds := by
  rw [Given, ← filter_key_eq_nil_iff, found?]
  split
  · next hnil => simp [hnil]
  · next k value hone =>
    have hk : k = key := by
      have hmem : (k, value) ∈ members.filter (·.1 = key) := by simp [hone]
      simpa using (List.mem_filter.1 hmem).2
    subst hk
    simp [hone]
  · next hnil hone =>
    simp only [reduceCtorEq, false_and, exists_false, iff_false]
    intro h
    rcases h with ⟨value, hfilter, -⟩ | ⟨hfilter, -⟩
    · exact hone key value hfilter
    · exact hnil hfilter

theorem found?_cons_ne {members : List (Text × Json)} {k key : Text} {v : Json}
    (h : k ≠ key) :
    found? ((k, v) :: members) key = found? members key := by
  simp [found?, h]

theorem mapM_eq_of_forall_mem {f g : Text → Option (Option Json)}
    {keys : List Text} (h : ∀ key ∈ keys, f key = g key) :
    keys.mapM f = keys.mapM g := by
  induction keys with
  | nil => rfl
  | cons key keys ih =>
      obtain ⟨hkey, hkeys⟩ := List.forall_mem_cons.1 h
      rw [List.mapM_cons, List.mapM_cons, hkey, ih hkeys]

/-- The items of an array are found under the first keys. -/
theorem mapM_found?_zip {keys : List Text} (hkeys : keys.Nodup)
    {items : List Json} (h : items.length ≤ keys.length) :
    keys.mapM (found? (keys.zip items))
      = some (items.map some
        ++ List.replicate (keys.length - items.length) none) := by
  induction keys generalizing items with
  | nil =>
      obtain rfl := List.length_eq_zero_iff.1 (Nat.le_zero.1 h)
      rfl
  | cons k keys ih =>
      obtain ⟨hk, hkeys⟩ := List.nodup_cons.1 hkeys
      cases items with
      | nil =>
          have hnone : keys.mapM (found? [])
              = some (List.replicate keys.length none) := by
            simpa using @ih hkeys [] (Nat.zero_le _)
          have hself : found? [] k = some none := rfl
          rw [List.zip_nil_right, List.mapM_cons, hself, hnone]
          simp [List.replicate_succ]
      | cons v items =>
          have hself : found? ((k, v) :: keys.zip items) k = some (some v) := by
            have hfilter : (keys.zip items).filter (·.1 = k) = [] := by
              rw [filter_key_eq_nil_iff]
              intro hmem
              obtain ⟨m, hm, rfl⟩ := List.mem_map.1 hmem
              exact hk (List.of_mem_zip hm).1
            simp [found?, hfilter]
          have hrest : keys.mapM (found? ((k, v) :: keys.zip items))
              = keys.mapM (found? (keys.zip items)) := by
            refine mapM_eq_of_forall_mem fun key hkey => found?_cons_ne ?_
            intro heq
            exact hk (heq ▸ hkey)
          rw [List.zip_cons_cons, List.mapM_cons, hself, hrest,
            ih hkeys (by simpa using h)]
          simp

/-- A record is read by searching for each of its keys, in the order in which
the keys are listed and not in that of the members. -/
theorem record?_eq {keys : List Text} (hkeys : keys.Nodup) (j : Json) :
    j.record? keys
      = (j.members? keys).bind fun members => keys.mapM (found? members) := by
  cases j with
  | object members => rfl
  | array items =>
      rw [record?, members?]
      split
      · next h => exact (mapM_found?_zip hkeys h).symm
      · rfl
  | null => rfl
  | bool _ => rfl
  | number _ => rfl
  | string _ => rfl

/-- An array of the first values of a record is read as the object with
their keys. -/
theorem record?_array {keys : List Text} (hkeys : keys.Nodup)
    {items : List Json} (h : items.length ≤ keys.length) :
    record? keys (.array items) = record? keys (.object (keys.zip items)) := by
  rw [record?_eq hkeys, record?_eq hkeys, members?, members?, if_pos h]

/-- A size is the number found or, where there is none, the default. -/
theorem natOr?_eq_some_iff {default n : Nat} {found : Option Json} :
    natOr? default found = some n
      ↔ found.elim (n = default) (· = .number (.natural n)) := by
  unfold natOr?
  split <;> grind

theorem textOr?_eq_some_iff {default t : Text} {found : Option Json} :
    textOr? default found = some t
      ↔ found.elim (t = default) (· = .string t) := by
  unfold textOr?
  split <;> grind

end Json

-- ============================================================ settings

/-- The keys of a layout, in their fixed order. -/
def Layout.keys : List Text := ["initialIndent".toList, "indentSize".toList]

/-- A JSON value describes a layout, key by key. -/
def Layout.DescribedBy (layout : Layout) (j : Json) : Prop :=
  ∃ members, j.members? Layout.keys = some members
    ∧ Json.Given members "initialIndent".toList
      (· = .number (.natural layout.initialIndent))
      (layout.initialIndent = ({} : Layout).initialIndent)
    ∧ Json.Given members "indentSize".toList
      (· = .number (.natural layout.indentSize))
      (layout.indentSize = ({} : Layout).indentSize)

/-- The keys of the names of nested calls, in their fixed order. -/
def CallNames.keys : List Text :=
  ["fragment".toList, "jsx".toList, "jsxs".toList]

/-- A JSON value describes the names of nested calls, key by key. -/
def CallNames.DescribedBy (names : CallNames) (j : Json) : Prop :=
  ∃ members, j.members? CallNames.keys = some members
    ∧ Json.Given members "fragment".toList (· = .string names.fragment)
      (names.fragment = ({} : CallNames).fragment)
    ∧ Json.Given members "jsx".toList (· = .string names.jsx)
      (names.jsx = ({} : CallNames).jsx)
    ∧ Json.Given members "jsxs".toList (· = .string names.jsxs)
      (names.jsxs = ({} : CallNames).jsxs)

/-- A JSON value describes the value of `pretty`: a flag, a number of
columns or a layout. -/
inductive PrettySetting.DescribedBy : PrettySetting → Json → Prop
  | flag (on : Bool) : DescribedBy (.flag on) (.bool on)
  | indentSize (n : Nat) : DescribedBy (.indentSize n) (.number (.natural n))
  | layout {given : Layout} {j : Json} (described : given.DescribedBy j) :
      DescribedBy (.layout given) j

/-- A JSON value describes the value of `jsx`: a flag or names. -/
inductive JsxSetting.DescribedBy : JsxSetting → Json → Prop
  | flag (on : Bool) : DescribedBy (.flag on) (.bool on)
  | names {given : CallNames} {j : Json} (described : given.DescribedBy j) :
      DescribedBy (.names given) j

theorem Layout.keys_nodup : Layout.keys.Nodup := by decide +kernel

theorem CallNames.keys_nodup : CallNames.keys.Nodup := by decide +kernel

/-- The layouts that are read are the ones described. -/
theorem Layout.ofJson?_eq_some_iff {layout : Layout} {j : Json} :
    Layout.ofJson? j = some layout ↔ layout.DescribedBy j := by
  obtain ⟨initialIndent, indentSize⟩ := layout
  rw [Layout.ofJson?, show ["initialIndent".toList, "indentSize".toList]
    = Layout.keys from rfl,
    Json.record?_eq Layout.keys_nodup, Layout.DescribedBy]
  cases j.members? Layout.keys with
  | none => simp
  | some members =>
      simp only [Json.given_iff_found?, ← Json.natOr?_eq_some_iff,
        Option.bind_some, Option.some.injEq, exists_eq_left', Layout.keys,
        List.mapM_cons, List.mapM_nil]
      cases Json.found? members "initialIndent".toList with
      | none => simp
      | some first =>
          cases Json.found? members "indentSize".toList with
          | none => simp
          | some second => simp [Option.bind_eq_some_iff]

/-- The names that are read are the ones described. -/
theorem CallNames.ofJson?_eq_some_iff {names : CallNames} {j : Json} :
    CallNames.ofJson? j = some names ↔ names.DescribedBy j := by
  obtain ⟨fragment, jsx, jsxs⟩ := names
  rw [CallNames.ofJson?,
    show ["fragment".toList, "jsx".toList, "jsxs".toList]
      = CallNames.keys from rfl,
    Json.record?_eq CallNames.keys_nodup, CallNames.DescribedBy]
  cases j.members? CallNames.keys with
  | none => simp
  | some members =>
      simp only [Json.given_iff_found?, ← Json.textOr?_eq_some_iff,
        Option.bind_some, Option.some.injEq, exists_eq_left', CallNames.keys,
        List.mapM_cons, List.mapM_nil]
      cases Json.found? members "fragment".toList with
      | none => simp
      | some first =>
          cases Json.found? members "jsx".toList with
          | none => simp
          | some second =>
              cases Json.found? members "jsxs".toList with
              | none => simp
              | some third => simp [Option.bind_eq_some_iff]

theorem PrettySetting.ofJson?_eq_some_iff {pretty : PrettySetting} {j : Json} :
    PrettySetting.ofJson? j = some pretty ↔ pretty.DescribedBy j := by
  unfold PrettySetting.ofJson?
  constructor
  · intro h
    split at h
    · cases h
      exact .flag _
    · cases h
      exact .indentSize _
    · obtain ⟨layout, hlayout, rfl⟩ := Option.map_eq_some_iff.1 h
      exact .layout (Layout.ofJson?_eq_some_iff.1 hlayout)
  · intro h
    cases h with
    | flag on => rfl
    | indentSize n => rfl
    | @layout layout j described =>
        have hlayout := Layout.ofJson?_eq_some_iff.2 described
        obtain ⟨members, hmembers, -, -⟩ := described
        split
        · cases hmembers
        · cases hmembers
        · rw [hlayout]
          rfl

theorem JsxSetting.ofJson?_eq_some_iff {jsx : JsxSetting} {j : Json} :
    JsxSetting.ofJson? j = some jsx ↔ jsx.DescribedBy j := by
  unfold JsxSetting.ofJson?
  constructor
  · intro h
    split at h
    · cases h
      exact .flag _
    · obtain ⟨names, hnames, rfl⟩ := Option.map_eq_some_iff.1 h
      exact .names (CallNames.ofJson?_eq_some_iff.1 hnames)
  · intro h
    cases h with
    | flag on => rfl
    | @names names j described =>
        have hnames := CallNames.ofJson?_eq_some_iff.2 described
        obtain ⟨members, hmembers, -⟩ := described
        split
        · cases hmembers
        · rw [hnames]
          rfl

/-- An array stands for the object whose values it lists, as far as it goes. -/
theorem PrettySetting.ofJson?_array {vs : List Json}
    (h : vs.length ≤ Layout.keys.length) :
    PrettySetting.ofJson? (.array vs)
      = PrettySetting.ofJson? (.object (Layout.keys.zip vs)) := by
  have hlayout : Layout.ofJson? (.array vs)
      = Layout.ofJson? (.object (Layout.keys.zip vs)) := by
    unfold Layout.ofJson?
    rw [show ["initialIndent".toList, "indentSize".toList]
      = Layout.keys from rfl,
      Json.record?_array Layout.keys_nodup h]
  exact congrArg (Option.map PrettySetting.layout) hlayout

theorem JsxSetting.ofJson?_array {vs : List Json}
    (h : vs.length ≤ CallNames.keys.length) :
    JsxSetting.ofJson? (.array vs)
      = JsxSetting.ofJson? (.object (CallNames.keys.zip vs)) := by
  have hnames :
      CallNames.ofJson? (.array vs)
        = CallNames.ofJson? (.object (CallNames.keys.zip vs)) := by
    unfold CallNames.ofJson?
    rw [show ["fragment".toList, "jsx".toList, "jsxs".toList]
      = CallNames.keys from rfl,
      Json.record?_array CallNames.keys_nodup h]
  exact congrArg (Option.map JsxSetting.names) hnames

-- ============================================================= options

namespace OptionField

theorem ofKey?_eq_some_iff {key : Text} {field : OptionField} :
    ofKey? key = some field ↔ field.key = key := by
  constructor
  · intro h
    simpa using List.find?_some h
  · intro h
    subst h
    cases field <;> decide +kernel

/-- No two fields go by one key. -/
theorem key_injective : Function.Injective key := by
  intro field field' h
  have hsome := ofKey?_eq_some_iff.2 h
  rw [ofKey?_eq_some_iff.2 rfl] at hsome
  exact (Option.some.inj hsome).symm

theorem ofKey?_eq_none_iff {key : Text} :
    ofKey? key = none ↔ ∀ field : OptionField, field.key ≠ key := by
  rw [Option.eq_none_iff_forall_ne_some]
  exact forall_congr' fun field => not_congr ofKey?_eq_some_iff

/-- A JSON value describes the field that the options have. -/
def Holds : OptionField → Json → Options → Prop
  | .componentName, j, o => j = .string o.componentName
  | .pretty, j, o => o.pretty.DescribedBy j
  | .jsx, j, o => o.jsx.DescribedBy j
  | .preserveWhitespace, j, o => j = .bool o.preserveWhitespace

/-- The field is the same in two options. -/
def Same : OptionField → Options → Options → Prop
  | .componentName, o, o' => o.componentName = o'.componentName
  | .pretty, o, o' => o.pretty = o'.pretty
  | .jsx, o, o' => o.jsx = o'.jsx
  | .preserveWhitespace, o, o' => o.preserveWhitespace = o'.preserveWhitespace

/-- All fields one by one. -/
theorem forall_iff {P : OptionField → Prop} :
    (∀ field, P field)
      ↔ P .componentName ∧ P .pretty ∧ P .jsx ∧ P .preserveWhitespace := by
  constructor
  · intro h
    exact ⟨h _, h _, h _, h _⟩
  · intro h field
    cases field with
    | componentName => exact h.1
    | pretty => exact h.2.1
    | jsx => exact h.2.2.1
    | preserveWhitespace => exact h.2.2.2

theorem Same.trans {field : OptionField} {o o' o'' : Options}
    (h : field.Same o o') (h' : field.Same o' o'') : field.Same o o'' := by
  cases field <;> exact Eq.trans h h'

theorem Same.symm {field : OptionField} {o o' : Options} (h : field.Same o o') :
    field.Same o' o := by
  cases field <;> exact Eq.symm h

/-- What a value says of one field is true of all options that agree there. -/
theorem Holds.of_same {field : OptionField} {j : Json} {o o' : Options}
    (h : field.Holds j o) (hsame : field.Same o' o) : field.Holds j o' := by
  cases field <;> simp only [Holds, Same] at h hsame ⊢ <;> rwa [hsame]

/-- Options are their fields. -/
theorem forall_same_iff {o o' : Options} :
    (∀ field : OptionField, field.Same o o') ↔ o = o' := by
  obtain ⟨name, pretty, jsx, keep⟩ := o
  obtain ⟨name', pretty', jsx', keep'⟩ := o'
  simp [forall_iff, Same]

end OptionField

/-- The keys of the options, in their fixed order. -/
def Options.keys : List Text := OptionField.all.map OptionField.key

/-- A JSON value describes options: each field by the value of its key
where the key stands, and by its default where it does not. -/
def Options.DescribedBy (o : Options) (j : Json) : Prop :=
  ∃ members, j.members? Options.keys = some members
    ∧ ∀ field : OptionField,
      Json.Given members field.key (field.Holds · o) (field.Same o {})

/-- No key of a field stands twice, and each has a value that is valid for
its field. -/
def Options.Valid (j : Json) : Prop :=
  ∃ members, j.members? Options.keys = some members
    ∧ ∀ field : OptionField,
      Json.Given members field.key (fun v => ∃ o, field.Holds v o) True

/-- What is valid describes options. -/
theorem Options.exists_describedBy_iff {j : Json} :
    (∃ o, DescribedBy o j) ↔ Valid j := by
  constructor
  · intro h
    obtain ⟨o, members, hmembers, hgiven⟩ := h
    refine ⟨members, hmembers, fun field => (hgiven field).imp ?_ ?_⟩
    · intro h
      obtain ⟨v, hv, hholds⟩ := h
      exact ⟨v, hv, o, hholds⟩
    · exact fun h => ⟨h.1, trivial⟩
  · intro h
    obtain ⟨members, hmembers, hgiven⟩ := h
    -- each field has options that are right about it
    have hfield : ∀ field : OptionField, ∃ o,
        Json.Given members field.key (field.Holds · o) (field.Same o {}) := by
      intro field
      rcases hgiven field with ⟨v, hv, o, hholds⟩ | ⟨habsent, -⟩
      · exact ⟨o, .inl ⟨v, hv, hholds⟩⟩
      · exact ⟨{}, .inr ⟨habsent, OptionField.forall_same_iff.2 rfl field⟩⟩
    obtain ⟨name, hname⟩ := hfield .componentName
    obtain ⟨pretty, hpretty⟩ := hfield .pretty
    obtain ⟨jsx, hjsx⟩ := hfield .jsx
    obtain ⟨keep, hkeep⟩ := hfield .preserveWhitespace
    exact ⟨⟨name.componentName, pretty.pretty, jsx.jsx,
      keep.preserveWhitespace⟩, members, hmembers,
        OptionField.forall_iff.2 ⟨hname, hpretty, hjsx, hkeep⟩⟩

end Stencil
