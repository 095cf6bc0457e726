/-
Lists of items between brackets, and the members among them. `TakesList`
is what the readers of such lists do, over whatever reads one item, and
`TakesKeyed` what they do for a member, over whatever reads its value. The
grammar's `Listed` and `Keyed` correspond to them in both directions as
soon as the items do, so that a reader of a list has only to show that it
is a `TakesList`.

By the loose rules what is read need not be what was spelled. The lemmas
from the grammar to the reader therefore take a proposition `exact`, under
which the two are the same.
-/
import Stencil.Proofs.Json.Scalars

namespace Stencil.Json

-- =============================================================== space

theorem skipSpace_eq_cons_iff {s r : Text} {c : Char} :
    skipSpace s = c :: r ↔ isSpace c = false ∧ ∃ w,
      IsSpace w ∧ s = w ++ c :: r := by
  constructor
  · intro h
    obtain ⟨hs, hw, hc⟩ := (Text.scan_eq_iff isSpace s _ _).1 ⟨rfl, h⟩
    exact ⟨hc c rfl, _, hw, hs⟩
  · intro h
    obtain ⟨hc, w, hw, rfl⟩ := h
    have hhead : ∀ d ∈ (c :: r).head?, isSpace d = false := by
      intro d hd
      rwa [← Option.some.inj hd]
    exact ((Text.scan_eq_iff isSpace _ w _).2 ⟨rfl, hw, hhead⟩).2

/-- Behind space, a character that is none is found. -/
theorem skipSpace_eq_iff_of_mark {s r : Text} {c : Char}
    (hc : isSpace c = false) :
    skipSpace s = c :: r ↔ ∃ w, IsSpace w ∧ s = w ++ c :: r := by
  rw [skipSpace_eq_cons_iff, and_iff_right hc]

theorem skipSpace_append_cons {w r : Text} {c : Char} (hw : IsSpace w)
    (hc : isSpace c = false) :
    skipSpace (w ++ c :: r) = c :: r :=
  (skipSpace_eq_iff_of_mark hc).2 ⟨w, hw, rfl⟩

-- ================================================= the place of an item

/-- The characters that close a list. -/
def IsClosing (close : Char) : Prop := close = ']' ∨ close = '}'

theorem IsClosing.isSpace_eq {close : Char} (h : IsClosing close) :
    isSpace close = false := by
  rcases h with rfl | rfl <;> decide

theorem IsClosing.ne_comma {close : Char} (h : IsClosing close) :
    close ≠ ',' := by
  rcases h with rfl | rfl <;> decide

/-- A number cannot go on in space, nor at a comma or a closing bracket. -/
theorem endsBefore_space_append {w r : Text} {c : Char} (hw : IsSpace w)
    (hc : c = ',' ∨ IsClosing c) : NumberText.EndsBefore (w ++ c :: r) := by
  intro d hd
  cases w with
  | nil =>
      obtain rfl : c = d := Option.some.inj hd
      rcases hc with rfl | rfl | rfl <;> decide
  | cons e w =>
      obtain rfl : e = d := Option.some.inj hd
      have he := hw e (List.mem_cons_self ..)
      simp only [isSpace, Bool.or_eq_true, decide_eq_true_eq] at he
      rcases he with ((rfl | rfl) | rfl) | rfl <;> decide

/-- The list ends here, and `rest` follows. -/
def Closes (close : Char) (s rest : Text) : Prop :=
  ∃ w, IsSpace w ∧ s = w ++ close :: rest

/-- An item is next, and it stands at the front of `r`. -/
def ItemAt (close : Char) (isFirst : Bool) (s r : Text) : Prop :=
  if isFirst then r = s ∧ ∃ c u, skipSpace s = c :: u ∧ c ≠ close
  else ∃ w, IsSpace w ∧ s = w ++ ',' :: r

theorem nextItem_closed_iff {close : Char} {isFirst : Bool} {s rest : Text}
    (hclose : IsClosing close) :
    (∃ h, nextItem close isFirst s = .ok (.closed rest h))
      ↔ Closes close s rest := by
  rw [Closes, ← skipSpace_eq_iff_of_mark hclose.isSpace_eq]
  unfold nextItem
  split
  · next hs => simp [hs]
  · next c r hs =>
    simp only [hs]
    split
    · next hc =>
      subst hc
      constructor
      · intro h
        obtain ⟨_, h⟩ := h
        cases h
        rfl
      · intro h
        cases h
        exact ⟨length_lt_of_skipSpace hs, rfl⟩
    · next hc => split <;> [skip; split] <;> simp [hc]

theorem nextItem_item_iff {close : Char} {isFirst : Bool} {s r : Text}
    (hclose : IsClosing close) :
    (∃ h, nextItem close isFirst s = .ok (.item r h))
      ↔ ItemAt close isFirst s r := by
  rw [ItemAt, ← skipSpace_eq_iff_of_mark (by decide : isSpace ',' = false)]
  unfold nextItem
  split
  · next hs => simp [hs]
  · next c u hs =>
    simp only [hs]
    split
    · next hc =>
      subst hc
      simp [hclose.ne_comma]
    · next hc =>
      cases isFirst with
      | true =>
          constructor
          · intro h
            obtain ⟨_, h⟩ := h
            cases h
            exact ⟨rfl, c, u, rfl, hc⟩
          · intro h
            obtain ⟨rfl, -⟩ := h
            exact ⟨Nat.le_refl _, rfl⟩
      | false =>
          by_cases hcomma : c = ','
          · subst hcomma
            constructor
            · intro h
              obtain ⟨_, h⟩ := h
              cases h
              rfl
            · intro h
              cases h
              exact ⟨Nat.le_of_lt (length_lt_of_skipSpace hs), rfl⟩
          · simp [hcomma]

/-- The three answers that there are, each with the places that it stands
for. -/
theorem nextItem_cases {close : Char} (hclose : IsClosing close)
    (isFirst : Bool) (s : Text) :
    (∃ e, nextItem close isFirst s = .error e ∧ (∀ rest, ¬ Closes close s rest)
      ∧ ∀ r, ¬ ItemAt close isFirst s r)
    ∨ (∃ rest h, nextItem close isFirst s = .ok (.closed rest h)
      ∧ (∀ rest', Closes close s rest' ↔ rest = rest') ∧ ∀ r,
        ¬ ItemAt close isFirst s r)
    ∨ ∃ r h, nextItem close isFirst s = .ok (.item r h)
      ∧ (∀ rest, ¬ Closes close s rest)
      ∧ ∀ r', ItemAt close isFirst s r' ↔ r = r' := by
  have hcloses : ∀ rest, (∃ h, nextItem close isFirst s = .ok (.closed rest h))
      ↔ Closes close s rest := fun _ => nextItem_closed_iff hclose
  have hitem : ∀ r, (∃ h, nextItem close isFirst s = .ok (.item r h))
      ↔ ItemAt close isFirst s r := fun _ => nextItem_item_iff hclose
  simp only [← hcloses, ← hitem]
  cases nextItem close isFirst s with
  | error e => exact .inl ⟨e, rfl, nofun, nofun⟩
  | ok next =>
      cases next with
      | closed rest h => exact .inr (.inl ⟨rest, h, rfl, by grind, nofun⟩)
      | item r h => exact .inr (.inr ⟨r, h, rfl, nofun, by grind⟩)

-- =============================================================== lists

/-- What a reader of a list takes, if `takes` is what it takes for one
item. -/
inductive TakesList {α : Type} (close : Char) (takes : Text → α → Text → Prop) :
    (isFirst : Bool) → Text → List α → Text → Prop
  | nil {isFirst : Bool} {s rest : Text} (closed : Closes close s rest) :
      TakesList close takes isFirst s [] rest
  | cons {isFirst : Bool} {s r r' rest : Text} {a : α} {as : List α}
      (place : ItemAt close isFirst s r) (head : takes r a r')
      (tail : TakesList close takes false r' as rest) :
      TakesList close takes isFirst s (a :: as) rest

section

variable {α : Type} {close : Char} {item : Text → α → Prop} {takes : Text → α
  → Text → Prop}
  {isFirst : Bool} {s rest q : Text} {as : List α}

theorem takesList_iff :
    TakesList close takes isFirst s as rest
      ↔ (as = [] ∧ Closes close s rest)
        ∨ ∃ r a r' as', ItemAt close isFirst s r ∧ takes r a r'
          ∧ TakesList close takes false r' as' rest ∧ as = a :: as' := by
  constructor
  · intro h
    cases h with
    | nil closed => exact .inl ⟨rfl, closed⟩
    | cons place head tail => exact .inr ⟨_, _, _, _, place, head, tail, rfl⟩
  · intro h
    rcases h with ⟨rfl, closed⟩ | ⟨r, a, r', as', place, head, tail, rfl⟩
    · exact .nil closed
    · exact .cons place head tail

theorem Listed.imp {item' : Text → α → Prop} (h : Listed item isFirst q as)
    (himp : ∀ p a, p.length ≤ q.length → a ∈ as → item p a → item' p a) :
    Listed item' isFirst q as := by
  induction h with
  | nil space => exact .nil space
  | @first w p q a as space head tail ih =>
      refine .first space (himp p a (by simp; omega) (List.mem_cons_self ..)
        head) (ih ?_)
      intro p' a' hp ha
      exact himp p' a' (by simp only [List.length_append]; omega)
        (List.mem_cons_of_mem _ ha)
  | @next w w' p q a as space space' head tail ih =>
      refine .next space space'
        (himp p a (by simp; omega) (List.mem_cons_self ..) head) (ih ?_)
      intro p' a' hp ha
      have hshort : p'.length ≤ (w ++ ',' :: (w' ++ (p ++ q))).length := by
        simp only [List.length_append, List.length_cons]
        omega
      exact himp p' a' hshort (List.mem_cons_of_mem _ ha)

/-- What holds of every item holds of every member of the list. -/
theorem Listed.forall_mem {P : α → Prop} (h : Listed item isFirst q as)
    (hitem : ∀ p a, item p a → P a) : ∀ a ∈ as, P a := by
  induction h with
  | nil _ => exact fun a ha => absurd ha List.not_mem_nil
  | first _ head _ ih => exact List.forall_mem_cons.2 ⟨hitem _ _ head, ih⟩
  | next _ _ head _ ih => exact List.forall_mem_cons.2 ⟨hitem _ _ head, ih⟩

/-- A number that is an item ends where the next one starts. -/
theorem Listed.endsBefore (h : Listed item false q as)
    (hclose : IsClosing close) (rest : Text) :
    NumberText.EndsBefore (q ++ close :: rest) := by
  cases h with
  | nil space => exact endsBefore_space_append space (.inr hclose)
  | next space _ _ _ =>
      rw [List.append_assoc, List.cons_append]
      exact endsBefore_space_append space (.inl rfl)

/-- A listed text is taken, if its items are. -/
theorem Listed.takesList {exact : Prop} (h : Listed item isFirst q as)
    (hclose : IsClosing close)
    (hstart : ∀ p a, item p a → ∃ c u,
      p = c :: u ∧ isSpace c = false ∧ c ≠ close)
    (hitem : ∀ p a w r, item p a → IsSpace w → NumberText.EndsBefore r →
      ∃ a', takes (w ++ (p ++ r)) a' r ∧ (exact → a' = a)) (rest : Text) :
    ∃ as', TakesList close takes isFirst (q ++ close :: rest) as' rest
      ∧ (exact → as' = as) := by
  induction h with
  | nil space => exact ⟨[], .nil ⟨_, space, rfl⟩, fun _ => rfl⟩
  | @first w p q a as space head tail ih =>
      obtain ⟨as', has', htail⟩ := ih
      obtain ⟨a', ha', hhead⟩ :=
        hitem p a w _ head space (tail.endsBefore hclose rest)
      refine ⟨a' :: as', .cons ?_ ha' has', fun h => by rw [hhead h, htail h]⟩
      obtain ⟨c, u, rfl, hspace, hc⟩ := hstart p a head
      refine ⟨by simp, c, u ++ (q ++ close :: rest), ?_, hc⟩
      simpa using skipSpace_append_cons space hspace
  | @next w w' p q a as space space' head tail ih =>
      obtain ⟨as', has', htail⟩ := ih
      obtain ⟨a', ha', hhead⟩ :=
        hitem p a w' _ head space' (tail.endsBefore hclose rest)
      refine ⟨a' :: as', .cons ?_ ha' has', fun h => by rw [hhead h, htail h]⟩
      exact ⟨w, space, by simp⟩

/-- A text that is taken was listed, if its items were spelled. -/
theorem TakesList.listed (h : TakesList close takes isFirst s as rest)
    (hitem : ∀ r a r', r.length ≤ s.length → takes r a r' →
      ∃ w p, IsSpace w ∧ r = w ++ (p ++ r') ∧ item p a) :
    ∃ q, s = q ++ close :: rest ∧ Listed item isFirst q as := by
  induction h with
  | nil closed =>
      obtain ⟨w, hw, rfl⟩ := closed
      exact ⟨w, rfl, .nil hw⟩
  | @cons isFirst s r r' rest a as place head tail ih =>
      have hr : r.length ≤ s.length := by
        cases isFirst with
        | true => rw [place.1]
        | false =>
            obtain ⟨w, -, rfl⟩ := place
            simp only [List.length_append, List.length_cons]
            omega
      obtain ⟨w, p, hw, rfl, hp⟩ := hitem r a r' hr head
      obtain ⟨q, rfl, hq⟩ := ih fun r a r' hle => hitem r a r' (by
        simp only [List.length_append] at hr hle ⊢
        omega)
      cases isFirst with
      | true =>
          obtain ⟨rfl, -⟩ := place
          exact ⟨w ++ (p ++ q), by simp, .first hw hp hq⟩
      | false =>
          obtain ⟨w₀, hw₀, rfl⟩ := place
          exact ⟨w₀ ++ ',' :: (w ++ (p ++ q)), by simp, .next hw₀ hw hp hq⟩

end

-- ============================================================= members

theorem takes_readKey_iff {rules : Rules} {s r key : Text} :
    Takes (readKey rules s) key r
      ↔ ∃ w u, IsSpace w ∧ s = w ++ '"' :: u
        ∧ Takes (readString rules u) key r := by
  have hquote : ∀ u, skipSpace s = '"' :: u
      ↔ ∃ w, IsSpace w ∧ s = w ++ '"' :: u :=
    fun u => skipSpace_eq_iff_of_mark (by decide)
  unfold readKey
  split
  · next hs => grind [not_takes_error]
  · next c u hs =>
    split
    · next hc =>
      rw [takes_ofTail]
      grind
    · next hc => grind [not_takes_error]

theorem takes_readColon_iff {s r : Text} {u : Unit} :
    Takes (readColon s) u r ↔ ∃ w, IsSpace w ∧ s = w ++ ':' :: r := by
  rw [← skipSpace_eq_iff_of_mark (by decide : isSpace ':' = false)]
  unfold readColon
  split
  · next hs => simp [hs, not_takes_error]
  · next c v hs =>
    simp only [hs]
    split
    · next hc => simp [takes_ok, hc]
    · next hc => simp [not_takes_error, hc]

theorem takes_readKeyColon_iff {rules : Rules} {s r key : Text} :
    Takes (readKeyColon rules s) key r
      ↔ ∃ u, Takes (readKey rules s) key u ∧ Takes (readColon u) () r := by
  unfold readKeyColon
  cases hkey : readKey rules s with
  | error e => simp [not_takes_error]
  | ok k =>
      cases hcolon : readColon k.rest with
      | error e => grind [not_takes_error, takes_ok]
      | ok c => grind [takes_ok]

/-- What a reader of members takes for one of them, if `takes` is what it
takes for the value behind a key. -/
def TakesKeyed (rules : Rules) (takes : Text → Text → Json → Text → Prop)
    (s : Text) (member : Text × Json) (rest : Text) : Prop :=
  ∃ u r, Takes (readKey rules s) member.1 u ∧ Takes (readColon u) () r
    ∧ takes member.1 r member.2 rest

section

variable {rules : Rules} {value : Text → Text → Json → Prop}
  {takes : Text → Text → Json → Text → Prop}

theorem Keyed.imp {value' : Text → Text → Json → Prop} {p : Text}
    {m : Text × Json} (h : Keyed rules value p m)
    (himp : ∀ u, u.length ≤ p.length → value m.1 u m.2 → value' m.1 u m.2) :
    Keyed rules value' p m := by
  obtain @⟨k, key, w, w', u, v, spellsKey, space, space', spellsValue⟩ := h
  refine .mk spellsKey space space' (himp u ?_ spellsValue)
  simp only [List.length_cons, List.length_append]
  omega

/-- What holds of every value holds of the member's. -/
theorem Keyed.value_of {P : Json → Prop} {p : Text} {m : Text × Json}
    (h : Keyed rules value p m) (hvalue : ∀ key u v, value key u v → P v) :
    P m.2 := by
  obtain @⟨k, key, w, w', u, v, spellsKey, space, space', spellsValue⟩ := h
  exact hvalue key u v spellsValue

/-- A keyed text is taken, if its value is. -/
theorem Keyed.takesKeyed {exact : Prop} {p w rest : Text} {m : Text × Json}
    (h : Keyed rules value p m) (hexact : exact → rules = .strict)
    (hw : IsSpace w) (hvalue : ∀ key key' p v w, (rules = .strict → key' = key)
      → value key p v → IsSpace w →
      ∃ v', takes key' (w ++ (p ++ rest)) v' rest ∧ (exact → v' = v)) :
    ∃ m', TakesKeyed rules takes (w ++ (p ++ rest)) m' rest
      ∧ (exact → m' = m) := by
  obtain @⟨k, key, w₁, w₂, p, v, spellsKey, space, space', spellsValue⟩ := h
  obtain ⟨key', hkey', hkey⟩ :=
    spellsKey.read (w₁ ++ ':' :: (w₂ ++ (p ++ rest)))
  obtain ⟨v', hv', hv⟩ := hvalue key key' p v w₂ hkey spellsValue space'
  refine ⟨(key', v'), ⟨_, _, ?_, takes_readColon_iff.2 ⟨w₁, space, rfl⟩, hv'⟩,
    fun h => by rw [hkey (hexact h), hv h]⟩
  exact takes_readKey_iff.2 ⟨w, _, hw, by simp, hkey'⟩

/-- A text that is taken was keyed, if its value was spelled. -/
theorem TakesKeyed.keyed {s rest : Text} {m : Text × Json}
    (h : TakesKeyed rules takes s m rest)
    (hvalue : ∀ key r v, r.length ≤ s.length → takes key r v rest →
      ∃ w p, IsSpace w ∧ r = w ++ (p ++ rest) ∧ value key p v) :
    ∃ w p, IsSpace w ∧ s = w ++ (p ++ rest) ∧ Keyed rules value p m := by
  obtain ⟨u, r, hkey, hcolon, hv⟩ := h
  obtain ⟨w, t, hw, rfl, hstring⟩ := takes_readKey_iff.1 hkey
  obtain ⟨k, rfl, hk⟩ := stringSpells_of_read hstring
  obtain ⟨w₁, hw₁, rfl⟩ := takes_readColon_iff.1 hcolon
  obtain ⟨w₂, p, hw₂, rfl, hp⟩ := hvalue m.1 r m.2 (by
    simp only [List.length_append, List.length_cons]
    omega) hv
  exact ⟨w, _, hw, by simp, .mk hk hw₁ hw₂ hp⟩

end

end Stencil.Json
