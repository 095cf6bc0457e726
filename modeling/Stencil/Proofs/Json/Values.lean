/-
Values, and the reader of them. `takes_readValue_iff` says what the reader
does at the first character of a value; its lists are lists of what it
reads (`takes_readItems_iff`, `takes_readMembers_iff`). From these it
follows by induction on the length of the text, in one direction each,
that the reader reads every text that spells a value of an allowed depth
(`Spells.readValue`) and nothing else (`spells_of_readValue`).
-/
import Stencil.Proofs.Json.Items

namespace Stencil.Json

-- ============================================================== levels

namespace Levels

/-- Whether a value with brackets of the depth given may be read. -/
def Allows : Levels → Nat → Prop
  | none, _ => True
  | some n, d => d ≤ n - 1

theorem allows_zero (levels : Levels) : levels.Allows 0 := by
  cases levels with
  | none => trivial
  | some n => exact Nat.zero_le _

/-- The deepest of some values is allowed if all are. -/
theorem allows_max_iff {levels : Levels} {d d' : Nat} :
    levels.Allows (max d d') ↔ levels.Allows d ∧ levels.Allows d' := by
  cases levels with
  | none => simp [Allows]
  | some n => simp only [Allows]; omega

/-- The rules are the same at every level. -/
theorem rules_of_descend {levels inner : Levels}
    (h : levels.descend = .ok inner) :
    inner.rules = levels.rules := by
  cases levels with
  | none =>
      cases h
      rfl
  | some n =>
      rw [descend] at h
      split at h <;> cases h
      rfl

/-- One more bracket is allowed where there is a level to descend to. -/
theorem allows_succ_iff {levels : Levels} {d : Nat} :
    levels.Allows (d + 1)
      ↔ ∃ inner, levels.descend = .ok inner ∧ inner.Allows d := by
  cases levels with
  | none => simp [Allows, descend]
  | some n =>
      by_cases hn : n ≤ 1
      · simp only [Allows, descend, if_pos hn, reduceCtorEq, false_and,
          exists_false, iff_false]
        omega
      · simp only [Allows, descend, if_neg hn, Except.ok.injEq, exists_eq_left']
        omega

end Levels

/-- The depth of a list is that of its deepest item. -/
theorem allows_depthItems_iff {levels : Levels} {vs : List Json} :
    levels.Allows (depthItems vs) ↔ ∀ v ∈ vs, levels.Allows v.depth := by
  induction vs with
  | nil => simp [depthItems, levels.allows_zero]
  | cons v vs ih => simp [depthItems, Levels.allows_max_iff, ih]

/-- The depth of an object is that of its deepest member. -/
theorem allows_depthMembers_iff {levels : Levels} {ms : List (Text × Json)} :
    levels.Allows (depthMembers ms) ↔ ∀ m ∈ ms, levels.Allows m.2.depth := by
  induction ms with
  | nil => simp [depthMembers, levels.allows_zero]
  | cons m ms ih => simp [depthMembers, Levels.allows_max_iff, ih]

-- ================================================= one step of a reader

/-- What the reader does at the first character that is no space. -/
theorem takes_readValue_iff {levels : Levels} {s rest : Text} {v : Json} :
    Takes (readValue levels s) v rest
      ↔ ∃ c r, skipSpace s = c :: r
        ∧ ((c = '[' ∧ ∃ inner vs, levels.descend = .ok inner
            ∧ Takes (readItems inner true r) vs rest ∧ v = .array vs)
          ∨ (c = '{' ∧ ∃ inner ms, levels.descend = .ok inner
            ∧ Takes (readMembers inner true r) ms rest ∧ v = .object ms)
          ∨ (c ≠ '[' ∧ c ≠ '{'
            ∧ Takes (readScalar levels.rules (c :: r)) v rest)) := by
  rw [readValue]
  split
  · next hs => simp [hs, not_takes_error]
  · next c r hs =>
    have hfirst : ∀ P : Char → Text → Prop,
        (∃ c' r', c :: r = c' :: r' ∧ P c' r') ↔ P c r := by
      intro P
      constructor
      · intro h
        obtain ⟨c', r', h, hP⟩ := h
        cases h
        exact hP
      · exact fun hP => ⟨c, r, rfl, hP⟩
    simp only [hs]
    rw [hfirst]
    by_cases harray : c = '['
    · subst harray
      cases levels.descend with
      | error e => simp [not_takes_error]
      | ok inner => simp [takes_map_iff Json.array, Taken.map, Taken.ofTail]
    by_cases hobject : c = '{'
    · subst hobject
      cases levels.descend with
      | error e => simp [not_takes_error]
      | ok inner => simp [takes_map_iff Json.object, Taken.map, Taken.ofTail]
    · simp [harray, hobject, takes_ofTail]

/-- What the reader of items does: it comes to the closing bracket, or to a
value with the other items behind it. -/
theorem takes_readItems_step {levels : Levels} {isFirst : Bool} {s rest : Text}
    {vs : List Json} :
    Takes (readItems levels isFirst s) vs rest
      ↔ (vs = [] ∧ Closes ']' s rest)
        ∨ ∃ r v r' vs', ItemAt ']' isFirst s r ∧ Takes (readValue levels r) v r'
          ∧ Takes (readItems levels false r') vs' rest ∧ vs = v :: vs' := by
  rw [readItems]
  rcases nextItem_cases (.inl rfl) isFirst s with ⟨e, hnext, hclosed, hitem⟩
    | ⟨r, h, hnext, hclosed, hitem⟩ | ⟨r, h, hnext, hclosed, hitem⟩
  · simp [hnext, hclosed, hitem, not_takes_error]
  · simp [hnext, hclosed, hitem, takes_ok, eq_comm]
  · simp only [hnext, hclosed, hitem, and_false, false_or]
    cases hread : readValue levels r with
    | error e =>
        refine ⟨fun h => absurd h not_takes_error, fun h => ?_⟩
        obtain ⟨_, v, r', vs', rfl, hv, -, -⟩ := h
        rw [hread] at hv
        exact absurd hv not_takes_error
    | ok u =>
        rw [takes_map_iff (u.value :: ·) (by simp [Taken.map, Taken.ofTail])]
        constructor
        · intro h
          obtain ⟨vs', hvs', rfl⟩ := h
          exact ⟨r, u.value, u.rest, vs', rfl, ⟨u, hread, rfl, rfl⟩, hvs', rfl⟩
        · intro h
          obtain ⟨_, v, r', vs', rfl, hv, hvs', rfl⟩ := h
          rw [hread] at hv
          obtain ⟨rfl, rfl⟩ := takes_ok.1 hv
          exact ⟨vs', hvs', rfl⟩

/-- The same of members, each a key, a colon and a value. -/
theorem takes_readMembers_step {levels : Levels} {isFirst : Bool}
    {s rest : Text} {ms : List (Text × Json)} :
    Takes (readMembers levels isFirst s) ms rest
      ↔ (ms = [] ∧ Closes '}' s rest)
        ∨ ∃ r m r' ms', ItemAt '}' isFirst s r
          ∧ TakesKeyed levels.rules
            (fun _ r v r' => Takes (readValue levels r) v r') r m r'
          ∧ Takes (readMembers levels false r') ms' rest ∧ ms = m :: ms' := by
  rw [readMembers]
  rcases nextItem_cases (.inr rfl) isFirst s with ⟨e, hnext, hclosed, hitem⟩
    | ⟨r, h, hnext, hclosed, hitem⟩ | ⟨r, h, hnext, hclosed, hitem⟩
  · simp [hnext, hclosed, hitem, not_takes_error]
  · simp [hnext, hclosed, hitem, takes_ok, eq_comm]
  · simp only [hnext, hclosed, hitem, and_false, false_or, TakesKeyed]
    cases hkey : readKeyColon levels.rules r with
    | error e =>
        refine ⟨fun h => absurd h not_takes_error, fun h => ?_⟩
        obtain ⟨_, m, r', ms', rfl, ⟨u, t, hk, hcolon, -⟩, -, -⟩ := h
        have hkeyColon := takes_readKeyColon_iff.2 ⟨u, hk, hcolon⟩
        rw [hkey] at hkeyColon
        exact absurd hkeyColon not_takes_error
    | ok k =>
        obtain ⟨u, hk, hcolon⟩ := takes_readKeyColon_iff.1 ⟨k, hkey, rfl, rfl⟩
        simp only
        cases hread : readValue levels k.rest with
        | error e =>
            refine ⟨fun h => absurd h not_takes_error, fun h => ?_⟩
            obtain ⟨_, m, r', ms', rfl, ⟨u', t, hk', hcolon', hv⟩, -, -⟩ := h
            obtain ⟨-, rfl⟩ := hk.unique hk'
            obtain ⟨-, rfl⟩ := hcolon.unique hcolon'
            rw [hread] at hv
            exact absurd hv not_takes_error
        | ok v =>
            rw [takes_map_iff ((k.value, v.value) :: ·)
              (by simp [Taken.map, Taken.ofTail])]
            constructor
            · intro h
              obtain ⟨ms', hms', rfl⟩ := h
              exact ⟨r, _, _, ms', rfl,
                ⟨u, k.rest, hk, hcolon, v, hread, rfl, rfl⟩, hms', rfl⟩
            · intro h
              obtain ⟨_, m, r', ms', rfl, ⟨u', t, hk', hcolon', hv⟩,
                  hms', rfl⟩ := h
              obtain ⟨hkey', rfl⟩ := hk.unique hk'
              obtain ⟨-, rfl⟩ := hcolon.unique hcolon'
              rw [hread] at hv
              obtain ⟨hvalue, rfl⟩ := takes_ok.1 hv
              exact ⟨ms', hms', by rw [hkey', hvalue]⟩

/-- The reader of items takes a list of what the reader of values takes. -/
theorem takes_readItems_iff {levels : Levels} {isFirst : Bool} {s rest : Text}
    {vs : List Json} :
    Takes (readItems levels isFirst s) vs rest
      ↔ TakesList ']' (fun r v r' => Takes (readValue levels r) v r')
        isFirst s vs rest := by
  induction vs generalizing isFirst s with
  | nil =>
      rw [takes_readItems_step, takesList_iff]
      simp
  | cons v vs ih =>
      rw [takes_readItems_step, takesList_iff]
      simp [ih]

/-- The reader of members takes a list of keys with what the reader of values
takes. -/
theorem takes_readMembers_iff {levels : Levels} {isFirst : Bool} {s rest : Text}
    {ms : List (Text × Json)} :
    Takes (readMembers levels isFirst s) ms rest
      ↔ TakesList '}'
        (TakesKeyed levels.rules fun _ r v r' =>
          Takes (readValue levels r) v r')
        isFirst s ms rest := by
  induction ms generalizing isFirst s with
  | nil =>
      rw [takes_readMembers_step, takesList_iff]
      simp
  | cons m ms ih =>
      rw [takes_readMembers_step, takesList_iff]
      simp [ih]

-- ============================================= from texts to the reader

/-- The reader reads a text as a value, if what follows cannot be more of
it: by the strict rules as the value given. -/
def Reads (levels : Levels) (p : Text) (v : Json) : Prop :=
  ∀ w rest, IsSpace w → NumberText.EndsBefore rest →
    ∃ v', Takes (readValue levels (w ++ (p ++ rest))) v' rest
      ∧ (levels.rules = .strict → v' = v)

/-- A value without brackets is read at any level. -/
theorem reads_scalar {levels : Levels} {p : Text} {v : Json}
    (h : Spells levels.rules p v) (hflat : v.depth = 0) : Reads levels p v := by
  intro w rest hw hrest
  obtain ⟨v', hv', hvalue⟩ := h.readScalar hflat hrest
  obtain ⟨c, u, rfl, hspace, -, hhead⟩ := h.head
  obtain ⟨harray, hobject⟩ := hhead hflat
  have hskip := skipSpace_append_cons (r := u ++ rest) hw hspace
  exact ⟨v', takes_readValue_iff.2 ⟨c, _, hskip,
    .inr (.inr ⟨harray, hobject, hv'⟩)⟩, hvalue⟩

/-- A list is read where its items are read one level further down. -/
theorem reads_array {levels inner : Levels} {q : Text} {vs : List Json}
    (hdescend : levels.descend = .ok inner)
    (items : Listed (fun p v => Spells inner.rules p v ∧ Reads inner p v)
      true q vs) :
    Reads levels ('[' :: (q ++ [']'])) (.array vs) := by
  intro w rest hw hrest
  obtain ⟨vs', hvs', hvalue⟩ : ∃ vs',
      TakesList ']' (fun r v r' => Takes (readValue inner r) v r')
      true (q ++ ']' :: rest) vs' rest
        ∧ (levels.rules = .strict → vs' = vs) := by
    rw [← Levels.rules_of_descend hdescend]
    refine items.takesList (.inl rfl) ?_ ?_ rest
    · intro p v hp
      obtain ⟨c, u, rfl, hspace, hclose, -⟩ := hp.1.head
      exact ⟨c, u, rfl, hspace, hclose⟩
    · intro p v w r hp hw hr
      exact hp.2 w r hw hr
  have hskip : skipSpace (w ++ ('[' :: (q ++ [']']) ++ rest))
      = '[' :: (q ++ ']' :: rest) := by
    simpa using skipSpace_append_cons hw (by decide : isSpace '[' = false)
  exact ⟨.array vs', takes_readValue_iff.2 ⟨'[', _, hskip,
    .inl ⟨rfl, inner, vs', hdescend, takes_readItems_iff.2 hvs', rfl⟩⟩,
    fun hstrict => by rw [hvalue hstrict]⟩

/-- An object is read where the values of its members are. -/
theorem reads_object {levels inner : Levels} {q : Text}
    {ms : List (Text × Json)} (hdescend : levels.descend = .ok inner)
    (members : Listed (Keyed inner.rules fun _ => Reads inner) true q ms) :
    Reads levels ('{' :: (q ++ ['}'])) (.object ms) := by
  intro w rest hw hrest
  obtain ⟨ms', hms', hvalue⟩ : ∃ ms', TakesList '}'
      (TakesKeyed inner.rules fun _ r v r' => Takes (readValue inner r) v r')
      true (q ++ '}' :: rest) ms' rest
        ∧ (levels.rules = .strict → ms' = ms) := by
    rw [← Levels.rules_of_descend hdescend]
    refine members.takesList (.inr rfl) ?_ ?_ rest
    · intro p m hp
      cases hp
      exact ⟨'"', _, rfl, by decide⟩
    · intro p m w r hp hw hr
      exact hp.takesKeyed id hw fun _ _ p v w _ hv hw => hv w r hw hr
  have hskip : skipSpace (w ++ ('{' :: (q ++ ['}']) ++ rest))
      = '{' :: (q ++ '}' :: rest) := by
    simpa using skipSpace_append_cons hw (by decide : isSpace '{' = false)
  exact ⟨.object ms', takes_readValue_iff.2 ⟨'{', _, hskip,
    .inr (.inl ⟨rfl, inner, ms', hdescend, takes_readMembers_iff.2 hms', rfl⟩)⟩,
    fun hstrict => by rw [hvalue hstrict]⟩

/-- A spelled value of an allowed depth is read. -/
theorem Spells.reads {levels : Levels} {p : Text} {v : Json}
    (h : Spells levels.rules p v) (hdepth : levels.Allows v.depth) :
    Reads levels p v := by
  -- the items of a list are shorter than the list
  induction hlength : p.length using Nat.strong_induction_on
    generalizing levels p v with
  | _ n ih =>
    subst hlength
    by_cases hflat : v.depth = 0
    · exact reads_scalar h hflat
    cases h with
    | null => exact absurd rfl hflat
    | bool b => exact absurd rfl hflat
    | number _ _ => exact absurd rfl hflat
    | string _ => exact absurd rfl hflat
    | @array q vs items =>
        obtain ⟨inner, hdescend, hinner⟩ := Levels.allows_succ_iff.1 hdepth
        rw [allows_depthItems_iff] at hinner
        rw [← Levels.rules_of_descend hdescend] at items
        refine reads_array hdescend
          (items.imp fun p v hp hv hspells => ⟨hspells, ?_⟩)
        exact ih p.length (by simp; omega) hspells (hinner v hv) rfl
    | @object q ms members =>
        obtain ⟨inner, hdescend, hinner⟩ := Levels.allows_succ_iff.1 hdepth
        rw [allows_depthMembers_iff] at hinner
        rw [← Levels.rules_of_descend hdescend] at members
        refine reads_object hdescend (members.imp fun p m hp hm hkeyed =>
          hkeyed.imp fun u hu hspells => ?_)
        exact ih u.length (by simp; omega) hspells (hinner m hm) rfl

-- ============================================= from the reader to texts

/-- What has been read as a value was spelled as one, and its depth is
allowed. -/
theorem spells_of_readValue {levels : Levels} {s rest : Text} {v : Json}
    (h : Takes (readValue levels s) v rest) :
    ∃ w p, IsSpace w ∧ s = w ++ (p ++ rest) ∧ Spells levels.rules p v
      ∧ levels.Allows v.depth := by
  induction hlength : s.length using Nat.strong_induction_on
    generalizing levels s rest v with
  | _ n ih =>
    subst hlength
    obtain ⟨c, r, hs, hcases⟩ := takes_readValue_iff.1 h
    have hshorter := length_lt_of_skipSpace hs
    obtain ⟨-, w, hw, rfl⟩ := skipSpace_eq_cons_iff.1 hs
    rcases hcases with ⟨rfl, inner, vs, hdescend, hvs, rfl⟩
      | ⟨rfl, inner, ms, hdescend, hms, rfl⟩
      | ⟨-, -, hscalar⟩
    · obtain ⟨q, rfl, hitems⟩ :=
        (takes_readItems_iff.1 hvs).listed fun r' v r'' hle hv =>
          ih r'.length (by omega) hv rfl
      have hinner :=
        allows_depthItems_iff.2 (hitems.forall_mem fun _ _ hp => hp.2)
      rw [← Levels.rules_of_descend hdescend]
      exact ⟨w, _, hw, by simp, .array (hitems.imp fun _ _ _ _ hp => hp.1),
        Levels.allows_succ_iff.2 ⟨inner, hdescend, hinner⟩⟩
    · obtain ⟨q, rfl, hmembers⟩ :=
        (takes_readMembers_iff.1 hms).listed fun r' m r'' hle hm =>
          hm.keyed fun key r v hlt hv => ih r.length (by omega) hv rfl
      have hinner :=
        allows_depthMembers_iff.2 (hmembers.forall_mem fun _ _ hp =>
          hp.value_of fun _ _ _ hv => hv.2)
      rw [← Levels.rules_of_descend hdescend]
      exact ⟨w, _, hw, by simp,
        .object (hmembers.imp fun _ _ _ _ hp => hp.imp fun _ _ hv => hv.1),
        Levels.allows_succ_iff.2 ⟨inner, hdescend, hinner⟩⟩
    · obtain ⟨p, hp, hspells, hflat⟩ := spells_of_readScalar hscalar
      refine ⟨w, p, hw, by rw [hp], hspells, ?_⟩
      rw [hflat]
      exact levels.allows_zero

end Stencil.Json
