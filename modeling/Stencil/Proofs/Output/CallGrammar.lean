/-
The grammar of one-line calls as a relation: which texts are code for
which trees.

  code       ::= jsxs(tag,attributes,[items])      for a root
  item       ::= jsx(tag,attributes,[items]) | sum
  tag        ::= string | frg | lookup
  attributes ::= null | {key:sum,...}
  sum        ::= strings and lookups with plus signs between them
  lookup     ::= props.name | props[string]

A string is any JSON string, and stands for what JSON says. A lookup stands
for the name it looks up, in the spelling that the place calls for: `Sum`
takes this spelling as a parameter.

# One reading

No text is code for two trees (`Code.readAlone`). It is shown for each part
of the grammar in front of whatever may follow it: two ways of starting a
text with that part, each followed by something that cannot continue the
part, are the same way. A string ends at its closing quote, a bracket at
its closing bracket, and only a variable name or a sum could go on; what
follows them in code is never a character of a name or a plus sign.
-/
import Stencil.Output.Calls
import Stencil.Proofs.Interpolation.Markers

namespace Stencil.Calls

-- ======================================================== the grammar

/-- Items with a separator between them. -/
def joined {α : Type} (separator : Char) (items : List (Text × α)) : Text :=
  [separator].intercalate (items.map Prod.fst)

/-- The expression that looks up a property. -/
inductive Lookup : Text → Text → Prop
  | dot {m : Text} (name : isVariableName m) : Lookup ("props.".toList ++ m) m
  | bracket {l m : Text} (key : Json.StringLiteral l m) :
      Lookup ("props[".toList ++ (l ++ [']'])) m

/-- An operand of a sum; `back` spells a lookup in the text. -/
inductive Operand (back : Text → Text) : Text → Text → Prop
  | literal {l t : Text} (string : Json.StringLiteral l t) : Operand back l t
  | lookup {l m : Text} (property : Lookup l m) : Operand back l (back m)

/-- Operands with plus signs between them stand for their texts, joined. -/
inductive Sum (back : Text → Text) : Text → Text → Prop
  | intro {operands : List (Text × Text)} (nonempty : operands ≠ [])
      (each : ∀ p ∈ operands, Operand back p.1 p.2) :
      Sum back (joined '+' operands) (operands.map Prod.snd).flatten

/-- The tag as an argument. -/
inductive Tag : Text → Name → Prop
  | literal {l t : Text} (string : Json.StringLiteral l t) : Tag l (.literal t)
  | fragment : Tag fragmentAlias .wrapper
  | property {l m : Text} (property : Lookup l m) :
      Tag l (.property (referenceMarker m))

/-- The key of an attribute. -/
inductive Key : Text → Text → Prop
  | plain {k : Text} (name : isVariableName k) : Key k k
  | quoted {l k : Text} (string : Json.StringLiteral l k) : Key l k

/-- An attribute as an entry; a lookup in its value was a marker. -/
inductive Entry : Text → Attribute → Prop
  | intro {k n e v : Text} (key : Key k n)
      (value : Sum (fun m => Segment.source (.marker m)) e v) :
      Entry (k ++ ':' :: e) ⟨n, v⟩

/-- The attributes as an argument. -/
inductive Attributes : Text → List Attribute → Prop
  | null : Attributes "null".toList []
  | object {entries : List (Text × Attribute)} (nonempty : entries ≠ [])
      (each : ∀ p ∈ entries, Entry p.1 p.2) :
      Attributes ('{' :: (joined ',' entries ++ ['}'])) (entries.map Prod.snd)

/-- The texts that are code for a tree; at the root it is always a call. -/
inductive Code : Bool → Text → Node → Prop
  | call {isRoot : Bool} {t a : Text} {n : Name} {as : List Attribute}
      {items : List (Text × Node)} (tag : Tag t n)
        (attributes : Attributes a as)
      (content : ∀ p ∈ items, Code false p.1 p.2) :
      Code isRoot
        (functionAlias isRoot ++ '(' ::
          (t ++ ',' :: (a ++ ',' :: '[' :: (joined ',' items ++ "])".toList))))
        (.element n as (items.map Prod.snd))
  | text {e v : Text} (sum : Sum referenceMarker e v) : Code false e (.text v)

-- ======================================================== one reading

/-- In front of what may follow it, `s` is the only text of the form, and
stands for `v` only. -/
def ReadAlone {α : Type} (Form : Text → α → Prop) (Follows : Text → Prop)
    (s : Text) (v : α) : Prop :=
  ∀ s' v' r r', Form s' v' → Follows r → Follows r' → s ++ r = s' ++ r' →
    s = s' ∧ v = v' ∧ r = r'

/-- What may follow a variable name: no character that would extend it. -/
def EndsName (r : Text) : Prop :=
  ∀ c ∈ r.head?, (c.isAlphanum || c = '$') = false

/-- What may follow a sum: neither that nor another plus sign. -/
def EndsSum (r : Text) : Prop := EndsName r ∧ r.head? ≠ some '+'

theorem endsSum_cons {c : Char} (hname : (c.isAlphanum || c = '$') = false)
    (hc : c ≠ '+') (r : Text) : EndsSum (c :: r) := by
  refine ⟨?_, by simpa using hc⟩
  intro d hd
  obtain rfl : c = d := by simpa using hd
  exact hname

theorem string_head {l t : Text} (h : Json.StringLiteral l t) :
    l.head? = some '"' := by
  obtain ⟨s, rfl, -⟩ := h
  rfl

/-- A variable name goes on as far as it can. -/
theorem readAlone_variableName {m m' r r' : Text} (h : isVariableName m)
    (h' : isVariableName m') (hr : EndsName r) (hr' : EndsName r')
    (heq : m ++ r = m' ++ r') : m = m' ∧ r = r' := by
  have hchars : ∀ {m : Text}, isVariableName m → ∀ c ∈ m,
      (c.isAlphanum || c = '$') := by
    intro m hm c hc
    simpa using of_mem_variableName hm hc
  have hcut := (Text.scan_eq_iff _ (m ++ r) m r).2 ⟨rfl, hchars h, hr⟩
  have hcut' := (Text.scan_eq_iff _ (m ++ r) m' r').2 ⟨heq, hchars h', hr'⟩
  exact ⟨hcut.1.symm.trans hcut'.1, hcut.2.symm.trans hcut'.2⟩

-- ========================================================= separators

/-- With one more separator in front, every item has one. -/
theorem cons_joined {α : Type} {separator : Char} {items : List (Text × α)}
    (hne : items ≠ []) :
    separator :: joined separator items
      = items.flatMap fun p => separator :: p.1 := by
  induction items with
  | nil => exact absurd rfl hne
  | cons p items ih =>
      cases items with
      | nil => simp [joined]
      | cons q items =>
          rw [List.flatMap_cons, ← ih (by simp)]
          simp [joined]

/-- Items that are each read alone are read alone with their separators, up
to something that does not start with a separator. -/
theorem flatMap_separated_unique {α : Type} {Form : Text → α → Prop}
    {Follows : Text → Prop} {separator : Char}
    (hseparator : ∀ r, Follows (separator :: r)) {items : List (Text × α)}
    (h : ∀ p ∈ items, ReadAlone Form Follows p.1 p.2) :
    ∀ {items' : List (Text × α)} {r r' : Text}, (∀ p ∈ items', Form p.1 p.2) →
      Follows r → r.head? ≠ some separator → Follows r'
        → r'.head? ≠ some separator →
      items.flatMap (fun p => separator :: p.1) ++ r
        = items'.flatMap (fun p => separator :: p.1) ++ r' →
      items = items' ∧ r = r' := by
  have hfollows : ∀ (items : List (Text × α)) {r : Text}, Follows r →
      Follows (items.flatMap (fun p => separator :: p.1) ++ r) := by
    intro items r hr
    cases items with
    | nil => exact hr
    | cons p items => exact hseparator _
  induction items with
  | nil =>
      intro items' r r' _ _ hr _ _ heq
      cases items' with
      | nil => exact ⟨rfl, heq⟩
      | cons p' items' =>
          rw [List.flatMap_nil, List.nil_append] at heq
          exact absurd (by rw [heq]; rfl) hr
  | cons p items ih =>
      intro items' r r' h' hr hstop hr' hstop' heq
      cases items' with
      | nil =>
          rw [List.flatMap_nil, List.nil_append] at heq
          exact absurd (by rw [← heq]; rfl) hstop'
      | cons p' items' =>
          rw [List.flatMap_cons, List.flatMap_cons, List.append_assoc,
            List.append_assoc] at heq
          obtain ⟨hs, hv, hrest⟩ := h p (List.mem_cons_self ..) p'.1 p'.2 _ _
            (h' p' (List.mem_cons_self ..)) (hfollows items hr)
              (hfollows items' hr')
            (List.cons.inj heq).2
          obtain ⟨rfl, rfl⟩ := ih (fun q hq => h q (List.mem_cons_of_mem _ hq))
            (fun q hq => h' q (List.mem_cons_of_mem _ hq))
              hr hstop hr' hstop' hrest
          exact ⟨by rw [Prod.ext hs hv], rfl⟩

/-- The same without the first separator, where there is an item. -/
theorem joined_unique {α : Type} {Form : Text → α → Prop}
    {Follows : Text → Prop} {separator : Char}
    (hseparator : ∀ r, Follows (separator :: r))
    {items items' : List (Text × α)} {r r' : Text} (hne : items ≠ [])
    (hne' : items' ≠ []) (h : ∀ p ∈ items, ReadAlone Form Follows p.1 p.2)
    (h' : ∀ p ∈ items', Form p.1 p.2) (hr : Follows r)
    (hstop : r.head? ≠ some separator) (hr' : Follows r')
    (hstop' : r'.head? ≠ some separator)
    (heq : joined separator items ++ r = joined separator items' ++ r') :
    items = items' ∧ r = r' := by
  refine flatMap_separated_unique hseparator h h' hr hstop hr' hstop' ?_
  rw [← cons_joined hne, ← cons_joined hne', List.cons_append,
    List.cons_append, heq]

/-- Items with separators start with an item. -/
theorem exists_joined_eq {α : Type} {separator : Char} {items : List (Text × α)}
    (hne : items ≠ []) :
    ∃ p ∈ items, ∃ r, joined separator items = p.1 ++ r := by
  obtain ⟨p, items, rfl⟩ := List.exists_cons_of_ne_nil hne
  have hcons : separator :: joined separator (p :: items) = _ := cons_joined hne
  exact ⟨p, List.mem_cons_self .., _, (List.cons.inj hcons).2⟩

-- ======================================================= expressions

theorem Lookup.head {l m : Text} (h : Lookup l m) : l.head? = some 'p' := by
  cases h with
  | dot _ => rfl
  | bracket _ => rfl

theorem Lookup.readAlone {l m : Text} (h : Lookup l m) :
    ReadAlone Lookup EndsName l m := by
  intro l' m' r r' h' hr hr' heq
  cases h with
  | dot hname =>
      cases h' with
      | dot hname' =>
          rw [List.append_assoc, List.append_assoc] at heq
          obtain ⟨rfl, rfl⟩ := readAlone_variableName hname hname' hr hr'
            (List.append_cancel_left heq)
          exact ⟨rfl, rfl, rfl⟩
      | bracket hkey' => simp at heq
  | @bracket l m hkey =>
      cases h' with
      | dot hname' => simp at heq
      | @bracket l' m' hkey' =>
          rw [List.append_assoc, List.append_assoc, List.append_assoc,
            List.append_assoc] at heq
          obtain ⟨rfl, rfl, hclose⟩ :=
            hkey.unique hkey' (List.append_cancel_left heq)
          exact ⟨rfl, rfl, (List.cons.inj hclose).2⟩

/-- Texts with different first characters are different. -/
theorem ne_of_head {c c' : Char} {s s' r r' : Text} (h : s.head? = some c)
    (h' : s'.head? = some c') (hne : c ≠ c') : s ++ r ≠ s' ++ r' := by
  intro heq
  have hhead := congrArg List.head? heq
  rw [List.head?_append, List.head?_append, h, h'] at hhead
  exact hne (by simpa using hhead)

theorem string_ne_lookup {l t l' m r r' : Text} (h : Json.StringLiteral l t)
    (h' : Lookup l' m) : l ++ r ≠ l' ++ r' :=
  ne_of_head (string_head h) h'.head (by decide)

theorem Operand.head {back : Text → Text} {l t : Text} (h : Operand back l t) :
    l.head? = some '"' ∨ l.head? = some 'p' := by
  cases h with
  | literal hstring => exact Or.inl (string_head hstring)
  | lookup hlookup => exact Or.inr hlookup.head

theorem Operand.readAlone {back : Text → Text} {l t : Text}
    (h : Operand back l t) :
    ReadAlone (Operand back) EndsName l t := by
  intro l' t' r r' h' hr hr' heq
  cases h with
  | literal hstring =>
      cases h' with
      | literal hstring' => exact hstring.unique hstring' heq
      | lookup hlookup' => exact absurd heq (string_ne_lookup hstring hlookup')
  | lookup hlookup =>
      cases h' with
      | literal hstring' =>
          exact absurd heq.symm (string_ne_lookup hstring' hlookup)
      | lookup hlookup' =>
          obtain ⟨rfl, rfl, rfl⟩ :=
            hlookup.readAlone _ _ _ _ hlookup' hr hr' heq
          exact ⟨rfl, rfl, rfl⟩

theorem Sum.head {back : Text → Text} {e v : Text} (h : Sum back e v) :
    e.head? = some '"' ∨ e.head? = some 'p' := by
  cases h with
  | intro hne heach =>
      obtain ⟨p, hp, r, hr⟩ := exists_joined_eq hne
      rw [hr, List.head?_append]
      rcases (heach p hp).head with hhead | hhead
      · exact Or.inl (by rw [hhead]; rfl)
      · exact Or.inr (by rw [hhead]; rfl)

theorem Sum.readAlone {back : Text → Text} {e v : Text} (h : Sum back e v) :
    ReadAlone (Sum back) EndsSum e v := by
  intro e' v' r r' h' hr hr' heq
  cases h with
  | intro hne heach =>
      cases h' with
      | intro hne' heach' =>
          have hplus : ∀ r, EndsName ('+' :: r) := by
            intro r c hc
            obtain rfl : '+' = c := by simpa using hc
            rfl
          obtain ⟨rfl, rfl⟩ := joined_unique hplus hne hne'
            (fun p hp => (heach p hp).readAlone)
              heach' hr.1 hr.2 hr'.1 hr'.2 heq
          exact ⟨rfl, rfl, rfl⟩

-- ========================================================= arguments

theorem Tag.readAlone {t : Text} {n : Name} (h : Tag t n) :
    ReadAlone Tag EndsName t n := by
  intro t' n' r r' h' hr hr' heq
  have hfragment : fragmentAlias.head? = some 'f' := rfl
  cases h with
  | literal hstring =>
      cases h' with
      | literal hstring' =>
          obtain ⟨rfl, rfl, rfl⟩ := hstring.unique hstring' heq
          exact ⟨rfl, rfl, rfl⟩
      | fragment =>
          exact absurd heq (ne_of_head (string_head hstring) hfragment
            (by decide))
      | property hlookup' =>
          exact absurd heq (string_ne_lookup hstring hlookup')
  | fragment =>
      cases h' with
      | literal hstring' =>
          exact absurd heq (ne_of_head hfragment (string_head hstring')
            (by decide))
      | fragment => exact ⟨rfl, rfl, List.append_cancel_left heq⟩
      | property hlookup' =>
          exact absurd heq (ne_of_head hfragment hlookup'.head (by decide))
  | property hlookup =>
      cases h' with
      | literal hstring' =>
          exact absurd heq.symm (string_ne_lookup hstring' hlookup)
      | fragment =>
          exact absurd heq (ne_of_head hlookup.head hfragment (by decide))
      | property hlookup' =>
          obtain ⟨rfl, rfl, rfl⟩ :=
            hlookup.readAlone _ _ _ _ hlookup' hr hr' heq
          exact ⟨rfl, rfl, rfl⟩

/-- A variable name does not start with a quote. -/
theorem variableName_head {k : Text} (h : isVariableName k) :
    ∃ c, k.head? = some c ∧ c ≠ '"' := by
  cases k with
  | nil => cases h
  | cons c k =>
      refine ⟨c, rfl, ?_⟩
      rcases of_mem_variableName h (List.mem_cons_self ..) with halnum | hdollar
      · intro hc
        subst hc
        cases halnum
      · intro hc
        subst hc
        cases hdollar

theorem Key.readAlone {k n : Text} (h : Key k n) :
    ReadAlone Key EndsName k n := by
  intro k' n' r r' h' hr hr' heq
  cases h with
  | plain hname =>
      obtain ⟨c, hhead, hquote⟩ := variableName_head hname
      cases h' with
      | plain hname' =>
          obtain ⟨rfl, rfl⟩ := readAlone_variableName hname hname' hr hr' heq
          exact ⟨rfl, rfl, rfl⟩
      | quoted hstring' =>
          exact absurd heq (ne_of_head hhead (string_head hstring') hquote)
  | quoted hstring =>
      cases h' with
      | plain hname' =>
          obtain ⟨c, hhead', hquote⟩ := variableName_head hname'
          exact absurd heq (ne_of_head (string_head hstring) hhead' hquote.symm)
      | quoted hstring' => exact hstring.unique hstring' heq

theorem Entry.readAlone {s : Text} {a : Attribute} (h : Entry s a) :
    ReadAlone Entry EndsSum s a := by
  intro s' a' r r' h' hr hr' heq
  cases h with
  | intro hkey hvalue =>
      cases h' with
      | intro hkey' hvalue' =>
          rw [List.append_assoc, List.append_assoc] at heq
          have hcolon : ∀ r, EndsName (':' :: r) :=
            fun r => (endsSum_cons (by decide) (by decide) r).1
          obtain ⟨rfl, rfl, hrest⟩ :=
            hkey.readAlone _ _ _ _ hkey' (hcolon _) (hcolon _) heq
          obtain ⟨rfl, rfl, rfl⟩ := hvalue.readAlone _ _ _ _ hvalue' hr hr'
            (List.cons.inj hrest).2
          exact ⟨rfl, rfl, rfl⟩

theorem Attributes.readAlone {s : Text} {as : List Attribute}
    (h : Attributes s as) (Follows : Text → Prop) :
    ReadAlone Attributes Follows s as := by
  intro s' as' r r' h' _ _ heq
  cases h with
  | null =>
      cases h' with
      | null => exact ⟨rfl, rfl, List.append_cancel_left heq⟩
      | object _ _ => simp at heq
  | object hne heach =>
      cases h' with
      | null => simp at heq
      | object hne' heach' =>
          have hclose : ∀ r, EndsSum ('}' :: r) :=
            endsSum_cons (by decide) (by decide)
          rw [List.cons_append, List.cons_append, List.append_assoc,
            List.append_assoc] at heq
          obtain ⟨rfl, hrest⟩ :=
            joined_unique (endsSum_cons (by decide) (by decide)) hne hne'
              (fun p hp => (heach p hp).readAlone) heach' (hclose _) (by simp)
              (hclose _) (by simp) (List.cons.inj heq).2
          exact ⟨rfl, rfl, (List.cons.inj hrest).2⟩

-- ============================================================== code

theorem Code.head {s : Text} {n : Node} (h : Code false s n) :
    s.head? = some '"' ∨ s.head? = some 'p' ∨ s.head? = some 'j' := by
  cases h with
  | call _ _ _ => exact Or.inr (Or.inr rfl)
  | text hsum =>
      rcases hsum.head with hhead | hhead
      · exact Or.inl hhead
      · exact Or.inr (Or.inl hhead)

/-- A call and a sum start in different ways. -/
theorem Sum.ne_call {back : Text → Text} {e v t r r' : Text}
    (h : Sum back e v) :
    e ++ r ≠ functionAlias false ++ t ++ r' := by
  have hcall : (functionAlias false ++ t).head? = some 'j' := rfl
  rcases h.head with hhead | hhead
  · exact ne_of_head hhead hcall (by decide)
  · exact ne_of_head hhead hcall (by decide)

/-- The items of a call are read alone up to the closing bracket. -/
theorem items_unique {items items' : List (Text × Node)} {r r' : Text}
    (h : ∀ p ∈ items, Code false p.1 p.2)
    (hread : ∀ p ∈ items, ReadAlone (Code false) EndsSum p.1 p.2)
    (h' : ∀ p ∈ items', Code false p.1 p.2)
    (heq : joined ',' items ++ ']' :: r = joined ',' items' ++ ']' :: r') :
    items = items' ∧ r = r' := by
  have hopen : ∀ {items : List (Text × Node)} {r r' : Text}, items ≠ [] →
      (∀ p ∈ items, Code false p.1 p.2)
        → joined ',' items ++ r ≠ ']' :: r' := by
    intro items r r' hne heach
    obtain ⟨p, hp, q, hq⟩ : ∃ p ∈ items, ∃ q, joined ',' items = p.1 ++ q :=
      exists_joined_eq hne
    rw [hq, List.append_assoc]
    have hstop : ([']'] : Text).head? = some ']' := rfl
    rcases (heach p hp).head with hhead | hhead | hhead
    · exact ne_of_head hhead hstop (by decide)
    · exact ne_of_head hhead hstop (by decide)
    · exact ne_of_head hhead hstop (by decide)
  by_cases hne : items = []
  · by_cases hne' : items' = []
    · subst hne hne'
      exact ⟨rfl, (List.cons.inj (List.append_cancel_left heq)).2⟩
    · subst hne
      exact absurd heq.symm (hopen hne' h')
  · by_cases hne' : items' = []
    · subst hne'
      exact absurd heq (hopen hne h)
    · have hclose : ∀ r, EndsSum (']' :: r) :=
        endsSum_cons (by decide) (by decide)
      obtain ⟨rfl, hrest⟩ :=
        joined_unique (endsSum_cons (by decide) (by decide)) hne hne'
          hread h' (hclose _) (by simp) (hclose _) (by simp) heq
      exact ⟨rfl, (List.cons.inj hrest).2⟩

/-- No text is code for two trees, and none goes on where another ends. -/
theorem Code.readAlone {isRoot : Bool} {s : Text} {n : Node}
    (h : Code isRoot s n) :
    ReadAlone (Code isRoot) EndsSum s n := by
  induction h with
  | @call isRoot t a n as items htag hattributes hcontent ih =>
      intro s' n' r r' h' hr hr' heq
      cases h' with
      | @call _ t' a' n' as' items' htag' hattributes' hcontent' =>
          have hcomma : ∀ r, EndsName (',' :: r) :=
            fun r => (endsSum_cons (by decide) (by decide) r).1
          -- one argument after the other, each with the comma behind it
          simp only [List.append_assoc, List.cons_append] at heq
          have htags := (List.cons.inj (List.append_cancel_left heq)).2
          obtain ⟨rfl, rfl, hafter⟩ :=
            htag.readAlone _ _ _ _ htag' (hcomma _) (hcomma _) htags
          obtain ⟨rfl, rfl, hitems⟩ :=
            hattributes.readAlone (fun _ => True) _ _ _ _
              hattributes' trivial trivial (List.cons.inj hafter).2
          obtain ⟨rfl, hclose⟩ := items_unique hcontent ih hcontent'
            (List.cons.inj (List.cons.inj hitems).2).2
          exact ⟨rfl, rfl, (List.cons.inj hclose).2⟩
      | text hsum => exact absurd heq.symm hsum.ne_call
  | text hsum =>
      intro s' n' r r' h' hr hr' heq
      cases h' with
      | call _ _ _ => exact absurd heq hsum.ne_call
      | text hsum' =>
          obtain ⟨rfl, rfl, rfl⟩ := hsum.readAlone _ _ _ _ hsum' hr hr' heq
          exact ⟨rfl, rfl, rfl⟩

/-- A text is code for one tree at most. -/
theorem Code.unique {isRoot : Bool} {s : Text} {n n' : Node}
    (h : Code isRoot s n) (h' : Code isRoot s n') : n = n' := by
  have hnil : EndsSum [] := ⟨by simp [EndsName], by simp⟩
  exact (h.readAlone s n' [] [] h' hnil hnil rfl).2.1

end Stencil.Calls
