/-
Parsing expressions and how they are tried. A parsing expression is read
from left to right with ordered choice: the second of two alternatives is
tried only where the first fails, and a repetition takes as much as it
can. `Peg.Runs` says what one run does with a text: whether it reads a
piece at the front, what it leaves, and at which points an attempt at a
rule has failed on the way, those that were given up for another
alternative among them.

A run is determined by the expression and the text (`Peg.Runs.unique`),
and all it looks at is what is left of the text (`Peg.Runs.suffix`). The
report on a text that no run reads is about the furthest of the failed
attempts (`Furthest`), the one with the least left of the text.
-/
import Stencil.Proofs.Text.Scan

namespace Stencil

/-- Parsing expressions that refer to the rules `ρ`. -/
inductive Peg (ρ : Type) where
  /-- One character of a class. -/
  | char (p : Char → Bool)
  /-- Exactly these characters. -/
  | str (t : Text)
  /-- One after the other. -/
  | seq (a b : Peg ρ)
  /-- The second where the first fails. -/
  | alt (a b : Peg ρ)
  /-- As many as there are. -/
  | star (a : Peg ρ)
  /-- Nothing, where the expression fails. -/
  | not (a : Peg ρ)
  /-- What the rule says. -/
  | rule (r : ρ)

namespace Peg

variable {ρ : Type} {g : ρ → Peg ρ}

/-- Any character. -/
def any : Peg ρ := .char fun _ => true

/-- One character, where `t` does not stand. -/
def except (t : Text) : Peg ρ := .seq (.not (.str t)) any

/-- A letter, and then characters of a class. -/
def word (more : Char → Bool) : Peg ρ :=
  .seq (.char Char.isAlpha) (.star (.char more))

/-- A run of an expression on a text, where `g` gives the body of each rule:
what it leaves of the text, if it reads, and the texts at which an attempt
at a rule has failed, in order. -/
inductive Runs (g : ρ → Peg ρ) : Peg ρ → Text → Option Text → List Text → Prop
  | charHit {p : Char → Bool} {c : Char} {s : Text} (hit : p c = true) :
      Runs g (.char p) (c :: s) (some s) []
  | charMiss {p : Char → Bool} {s : Text} (miss : ∀ c ∈ s.head?, p c = false) :
      Runs g (.char p) s none []
  | strHit {t s : Text} : Runs g (.str t) (t ++ s) (some s) []
  | strMiss {t s : Text} (miss : ¬ t <+: s) : Runs g (.str t) s none []
  | seqMiss {a b : Peg ρ} {s : Text} {f : List Text}
      (first : Runs g a s none f) :
      Runs g (.seq a b) s none f
  | seq {a b : Peg ρ} {s r : Text} {res : Option Text} {f f' : List Text}
      (first : Runs g a s (some r) f) (second : Runs g b r res f') :
      Runs g (.seq a b) s res (f ++ f')
  | altHit {a b : Peg ρ} {s r : Text} {f : List Text}
      (first : Runs g a s (some r) f) :
      Runs g (.alt a b) s (some r) f
  | alt {a b : Peg ρ} {s : Text} {res : Option Text} {f f' : List Text}
      (first : Runs g a s none f) (second : Runs g b s res f') :
      Runs g (.alt a b) s res (f ++ f')
  | starMiss {a : Peg ρ} {s : Text} {f : List Text}
      (first : Runs g a s none f) :
      Runs g (.star a) s (some s) f
  | star {a : Peg ρ} {s r : Text} {res : Option Text} {f f' : List Text}
      (first : Runs g a s (some r) f) (more : Runs g (.star a) r res f') :
      Runs g (.star a) s res (f ++ f')
  | notHit {a : Peg ρ} {s : Text} {f : List Text} (inner : Runs g a s none f) :
      Runs g (.not a) s (some s) []
  | notMiss {a : Peg ρ} {s r : Text} {f : List Text}
      (inner : Runs g a s (some r) f) :
      Runs g (.not a) s none []
  | ruleHit {n : ρ} {s r : Text} {f : List Text}
      (body : Runs g (g n) s (some r) f) :
      Runs g (.rule n) s (some r) f
  | ruleMiss {n : ρ} {s : Text} {f : List Text} (body : Runs g (g n) s none f) :
      Runs g (.rule n) s none (s :: f)

-- ======================================================= determinism

/-- There is one run of an expression on a text. -/
theorem Runs.unique {e : Peg ρ} {s : Text} {res : Option Text} {f : List Text}
    (h : Runs g e s res f) : ∀ {res' : Option Text} {f' : List Text},
      Runs g e s res' f' → res = res' ∧ f = f' := by
  induction h with
  | charHit hit =>
      intro res' f' h'
      cases h' with
      | charHit => exact ⟨rfl, rfl⟩
      | charMiss miss => simp [miss _ rfl] at hit
  | charMiss miss =>
      intro res' f' h'
      cases h' with
      | charHit hit => simp [miss _ rfl] at hit
      | charMiss => exact ⟨rfl, rfl⟩
  | @strHit t s =>
      intro res' f' h'
      generalize hts : t ++ s = u at h'
      cases h' with
      | strHit => exact ⟨congrArg some (List.append_cancel_left hts), rfl⟩
      | strMiss miss => exact absurd ⟨s, hts⟩ miss
  | strMiss miss =>
      intro res' f' h'
      cases h' with
      | strHit => exact absurd (List.prefix_append ..) miss
      | strMiss => exact ⟨rfl, rfl⟩
  | seqMiss _ ih =>
      intro res' f' h'
      cases h' with
      | seqMiss first => exact ih first
      | seq first => cases (ih first).1
  | seq _ _ ih ih' =>
      intro res' f' h'
      cases h' with
      | seqMiss first => cases (ih first).1
      | seq first second =>
          obtain ⟨hr, rfl⟩ := ih first
          cases hr
          obtain ⟨rfl, rfl⟩ := ih' second
          exact ⟨rfl, rfl⟩
  | altHit _ ih =>
      intro res' f' h'
      cases h' with
      | altHit first => exact ih first
      | alt first => cases (ih first).1
  | alt _ _ ih ih' =>
      intro res' f' h'
      cases h' with
      | altHit first => cases (ih first).1
      | alt first second =>
          obtain ⟨-, rfl⟩ := ih first
          obtain ⟨rfl, rfl⟩ := ih' second
          exact ⟨rfl, rfl⟩
  | starMiss _ ih =>
      intro res' f' h'
      cases h' with
      | starMiss first => exact ⟨rfl, (ih first).2⟩
      | star first => cases (ih first).1
  | star _ _ ih ih' =>
      intro res' f' h'
      cases h' with
      | starMiss first => cases (ih first).1
      | star first more =>
          obtain ⟨hr, rfl⟩ := ih first
          cases hr
          obtain ⟨rfl, rfl⟩ := ih' more
          exact ⟨rfl, rfl⟩
  | notHit _ ih =>
      intro res' f' h'
      cases h' with
      | notHit => exact ⟨rfl, rfl⟩
      | notMiss inner => cases (ih inner).1
  | notMiss _ ih =>
      intro res' f' h'
      cases h' with
      | notHit inner => cases (ih inner).1
      | notMiss => exact ⟨rfl, rfl⟩
  | ruleHit _ ih =>
      intro res' f' h'
      cases h' with
      | ruleHit body => exact ih body
      | ruleMiss body => cases (ih body).1
  | ruleMiss _ ih =>
      intro res' f' h'
      cases h' with
      | ruleHit body => cases (ih body).1
      | ruleMiss body => exact ⟨rfl, congrArg _ (ih body).2⟩

/-- A run leaves an end of the text, and every failed attempt was at one. -/
theorem Runs.suffix {e : Peg ρ} {s : Text} {res : Option Text} {f : List Text}
    (h : Runs g e s res f) :
    (∀ r, res = some r → r <:+ s) ∧ ∀ u ∈ f, u <:+ s := by
  -- what happens behind a first part happens in the text
  have hbehind : ∀ {s r : Text} {res : Option Text} {f f' : List Text}, r <:+ s
      →
      (∀ u ∈ f, u <:+ s)
        → ((∀ r', res = some r' → r' <:+ r) ∧ ∀ u ∈ f', u <:+ r) →
      (∀ r', res = some r' → r' <:+ s) ∧ ∀ u ∈ f ++ f', u <:+ s := by
    intro s r res f f' hr hf hsecond
    refine ⟨fun r' hr' => (hsecond.1 r' hr').trans hr, fun u hu => ?_⟩
    rcases List.mem_append.1 hu with hu | hu
    · exact hf u hu
    · exact (hsecond.2 u hu).trans hr
  induction h with
  | charHit => simp
  | charMiss => simp
  | strHit => simp
  | strMiss => simp
  | seqMiss _ ih => exact ih
  | seq _ _ ih ih' => exact hbehind (ih.1 _ rfl) ih.2 ih'
  | altHit _ ih => exact ih
  | alt _ _ ih ih' => exact hbehind (List.suffix_refl _) ih.2 ih'
  | starMiss _ ih => exact ⟨by simp, ih.2⟩
  | star _ _ ih ih' => exact hbehind (ih.1 _ rfl) ih.2 ih'
  | notHit => simp
  | notMiss => simp
  | ruleHit _ ih => exact ih
  | ruleMiss _ ih =>
      exact ⟨by simp, List.forall_mem_cons.2 ⟨List.suffix_refl _, ih.2⟩⟩

-- ================================================ runs of characters

/-- A repeated class of characters takes all that are in it. -/
theorem runs_star_char (p : Char → Bool) (s : Text) :
    Runs g (.star (.char p)) s (some (s.dropWhile p)) [] := by
  induction s with
  | nil => exact .starMiss (.charMiss (by simp))
  | cons c s ih =>
      by_cases hc : p c = true
      · rw [List.dropWhile_cons_of_pos hc]
        exact .star (.charHit hc) ih
      · rw [List.dropWhile_cons_of_neg hc]
        exact .starMiss (.charMiss (by simpa using hc))

/-- A word reads as far as its class goes. -/
theorem runs_word (more : Char → Bool) (s : Text) :
    Runs g (word more) s ((Text.word? more s).map Prod.snd) [] := by
  cases s with
  | nil => exact .seqMiss (.charMiss (by simp))
  | cons c s =>
      rw [Text.word?]
      split
      · next hc => exact .seq (.charHit hc) (runs_star_char more s)
      · next hc => exact .seqMiss (.charMiss (by simpa using hc))

theorem runs_except_miss {t s : Text} (h : t <+: s) :
    Runs g (except t) s none [] := by
  obtain ⟨r, rfl⟩ := h
  exact .seqMiss (.notMiss .strHit)

theorem runs_except_hit {t s : Text} {c : Char} (h : ¬ t <+: c :: s) :
    Runs g (except t) (c :: s) (some s) [] :=
  .seq (.notHit (.strMiss h)) (.charHit rfl)

theorem runs_except_end {t : Text} (h : t ≠ []) :
    Runs g (except t) [] none [] :=
  .seq (.notHit (.strMiss (mt List.prefix_nil.1 h))) (.charMiss (by simp))

/-- Characters are taken up to a mark. -/
theorem runs_star_except (mark : Char) (s : Text) :
    Runs g (.star (except [mark])) s (some (s.dropWhile (· != mark))) [] := by
  induction s with
  | nil => exact .starMiss (runs_except_end (by simp))
  | cons c s ih =>
      by_cases hc : c = mark
      · subst hc
        rw [List.dropWhile_cons_of_neg (by simp)]
        exact .starMiss (runs_except_miss ⟨s, rfl⟩)
      · have hmiss : ¬ [mark] <+: c :: s := by
          rw [List.cons_prefix_cons]
          exact fun h => hc h.1.symm
        rw [List.dropWhile_cons_of_pos (by simpa using hc)]
        exact .star (runs_except_hit hmiss) ih

end Peg

-- ============================================ the furthest attempt

/-- The furthest of some failed attempts, if there are any: no other has
less of the text left. -/
def Furthest (failed : List Text) : Option Text → Prop
  | none => failed = []
  | some far => far ∈ failed ∧ ∀ u ∈ failed, far.length ≤ u.length

namespace Furthest

variable {f f' : List Text} {far : Text}

theorem single (s : Text) : Furthest [s] (some s) :=
  ⟨List.mem_singleton_self s, by simp⟩

/-- Attempts further on decide, if there are any. -/
theorem append (h : Furthest f' (some far))
    (hf : ∀ u ∈ f, far.length ≤ u.length) :
    Furthest (f ++ f') (some far) := by
  refine ⟨List.mem_append_right _ h.1, fun u hu => ?_⟩
  rcases List.mem_append.1 hu with hu | hu
  · exact hf u hu
  · exact h.2 u hu

/-- Attempts that are no further change nothing. -/
theorem append_left (h : Furthest f (some far))
    (hf' : ∀ u ∈ f', far.length ≤ u.length) :
    Furthest (f ++ f') (some far) := by
  refine ⟨List.mem_append_left _ h.1, fun u hu => ?_⟩
  rcases List.mem_append.1 hu with hu | hu
  · exact h.2 u hu
  · exact hf' u hu

/-- An attempt that fails does so at least where it starts. -/
theorem cons {s : Text} (h : Furthest f (some far))
    (hs : far.length ≤ s.length) :
    Furthest (s :: f) (some far) :=
  append (f := [s]) h (by simpa using hs)

/-- In one text, the furthest attempt is at one place. -/
theorem unique {s far' : Text} (h : Furthest f (some far))
    (h' : Furthest f (some far')) (hf : ∀ u ∈ f, u <:+ s) : far = far' := by
  have hle : far.length ≤ far'.length := h.2 far' h'.1
  have hge : far'.length ≤ far.length := h'.2 far h.1
  have hsuffix :=
    List.suffix_of_suffix_length_le (hf far h.1) (hf far' h'.1) hle
  exact hsuffix.eq_of_length (Nat.le_antisymm hle hge)

end Furthest

end Stencil
