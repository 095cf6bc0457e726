/-
The name of a component from the stem of its file. A stem may hold any
characters, a name only ASCII letters and digits, and it starts with a
capital; so it is a name by itself, and neither that of a binding nor a
short name of nested calls.

The parts of the stem and their capitals come out of one pass over it
(`capitalized`), which knows at each character whether a part starts there.
What the pass gives for a text follows from what it gives for two parts of
it (`capitalized_append`), and so each character of the name is told by its
place in the stem (`CapitalizesParts`).
-/
import Stencil.Command.ComponentName
import Stencil.Output.Calls
import Stencil.Proofs.Text.Scan
import Mathlib

namespace Stencil

-- ============================================================ letters

theorem isAlpha_of_isUpper {c : Char} (h : c.isUpper) : c.isAlpha := by
  rw [Text.isAlpha_eq, h, Bool.true_or]

theorem isAlpha_eq_false_of_isDigit {c : Char} (h : c.isDigit) :
    c.isAlpha = false := by
  have hdigit : 48 ≤ c.toNat ∧ c.toNat ≤ 57 := Char.isDigit_iff_toNat.1 h
  rw [Bool.eq_false_iff, Text.isAlpha_eq, Ne, Bool.or_eq_true, Text.isUpper_iff,
    Text.isLower_iff]
  omega

/-- A digit has no capital. -/
theorem toUpper_of_isDigit {c : Char} (h : c.isDigit) : c.toUpper = c := by
  refine Char.toUpper_eq_of_not_isLower fun hlower => ?_
  have halpha := isAlpha_eq_false_of_isDigit h
  rw [Text.isAlpha_eq, hlower, Bool.or_true] at halpha
  cases halpha

theorem isAlphanum_toUpper {c : Char} (h : c.isAlphanum) :
    c.toUpper.isAlphanum := by
  rw [Char.isAlphanum, Bool.or_eq_true] at h
  rcases h with halpha | hdigit
  · rw [Char.isAlphanum, Char.isAlpha_toUpper_eq_isAlpha, halpha, Bool.true_or]
  · rw [toUpper_of_isDigit hdigit, Char.isAlphanum, hdigit, Bool.or_true]

-- =========================================================== the pass

/-- The letters and digits of a text, with a capital at the start of each
part; `isStart` says whether a part could start at the front. -/
def capitalized (isStart : Bool) : Text → Text
  | [] => []
  | c :: t =>
    if c.isAlphanum then (if isStart then c.toUpper else c)
      :: capitalized false t
    else capitalized true t

/-- Whether a part could start behind a text. -/
def startsBehind (isStart : Bool) (t : Text) : Bool :=
  t.getLast?.elim isStart fun c => !c.isAlphanum

theorem startsBehind_cons (isStart : Bool) (c : Char) (t : Text) :
    startsBehind isStart (c :: t) = startsBehind (!c.isAlphanum) t := by
  rw [startsBehind, startsBehind, List.getLast?_cons]
  cases t.getLast? <;> rfl

/-- A name can be made part by part: what comes behind only has to know whether
a part has just ended. -/
theorem capitalized_append (isStart : Bool) (s t : Text) :
    capitalized isStart (s ++ t)
      = capitalized isStart s ++ capitalized (startsBehind isStart s) t := by
  induction s generalizing isStart with
  | nil => rfl
  | cons c s ih =>
      rw [List.cons_append, startsBehind_cons, capitalized, capitalized]
      by_cases hc : c.isAlphanum
      · rw [if_pos hc, if_pos hc, ih, hc, List.cons_append]
        rfl
      · rw [if_neg hc, if_neg hc, ih, Bool.eq_false_iff.2 hc]
        rfl

/-- A name has a character for each letter and digit. -/
theorem length_capitalized (isStart : Bool) (t : Text) :
    (capitalized isStart t).length = t.countP Char.isAlphanum := by
  induction t generalizing isStart with
  | nil => rfl
  | cons c t ih =>
      rw [capitalized, List.countP_cons]
      by_cases hc : c.isAlphanum
      · rw [if_pos hc, if_pos hc, List.length_cons, ih]
      · rw [if_neg hc, if_neg hc, ih, Nat.add_zero]

theorem isAlphanum_capitalized (isStart : Bool) (t : Text) :
    ∀ c ∈ capitalized isStart t, c.isAlphanum := by
  induction t generalizing isStart with
  | nil => exact List.forall_mem_nil _
  | cons c t ih =>
      rw [capitalized]
      by_cases hc : c.isAlphanum
      · rw [if_pos hc, List.forall_mem_cons]
        refine ⟨?_, ih false⟩
        cases isStart with
        | true => exact isAlphanum_toUpper hc
        | false => exact hc
      · rw [if_neg hc]
        exact ih true

/-- The first letter is a capital. -/
theorem isUpper_of_head?_capitalized {t : Text} {d : Char}
    (h : (capitalized true t).head? = some d) (hd : d.isAlpha) : d.isUpper := by
  induction t with
  | nil => cases h
  | cons c t ih =>
      rw [capitalized] at h
      by_cases hc : c.isAlphanum
      · rw [if_pos hc] at h
        obtain rfl : c.toUpper = d := by simpa using h
        rwa [Char.isUpper_toUpper_eq_isAlpha, ← Char.isAlpha_toUpper_eq_isAlpha]
      · rw [if_neg hc] at h
        exact ih h

-- ============================================================ parts

/-- What stands before the first letter or digit leaves no trace. -/
theorem capitalized_dropWhile (t : Text) :
    capitalized true (t.dropWhile (!Char.isAlphanum ·))
      = capitalized true t := by
  induction t with
  | nil => rfl
  | cons c t ih =>
      by_cases hc : c.isAlphanum
      · rw [List.dropWhile_cons_of_neg (by simp [hc])]
      · rw [List.dropWhile_cons_of_pos (by simpa using hc), ih, capitalized,
          if_neg hc]

/-- A part goes on up to the first other character. -/
theorem capitalized_false_eq (t : Text) :
    capitalized false t
      = t.takeWhile Char.isAlphanum
        ++ capitalized true (t.dropWhile Char.isAlphanum) := by
  induction t with
  | nil => rfl
  | cons c t ih =>
      by_cases hc : c.isAlphanum
      · rw [List.takeWhile_cons_of_pos hc, List.dropWhile_cons_of_pos hc,
          capitalized, if_pos hc, ih]
        rfl
      · rw [List.takeWhile_cons_of_neg hc, List.dropWhile_cons_of_neg hc,
          capitalized, if_neg hc, List.nil_append, capitalized, if_neg hc]

/-- Behind the start of a part, letters and digits stay as they are. -/
theorem capitalized_false_eq_self {t : Text} (h : ∀ c ∈ t, c.isAlphanum) :
    capitalized false t = t := by
  rw [capitalized_false_eq, List.takeWhile_eq_self_iff.2 h,
    List.dropWhile_eq_nil_iff.2 h, capitalized, List.append_nil]

/-- The pass gives the parts of a text, each with a capital. -/
theorem flatMap_capitalize_runs (t : Text) :
    (t.runs Char.isAlphanum).flatMap capitalize = capitalized true t := by
  fun_induction Text.runs Char.isAlphanum t with
  | case1 t hnil =>
      rw [← capitalized_dropWhile, hnil, List.flatMap_nil, capitalized]
  | case2 t c u hcons ih =>
      have hc : c.isAlphanum := by
        have hhead := List.head?_dropWhile_not (!Char.isAlphanum ·) t
        rw [hcons] at hhead
        simpa using hhead
      rw [← capitalized_dropWhile, hcons, List.flatMap_cons, ih, capitalize,
        capitalized, if_pos hc, if_pos rfl, capitalized_false_eq]
      rfl

/-- The name of a component in one equation: the head is put before what does
not start with a letter. -/
theorem componentName_eq (stem : Text) :
    componentName stem
      = if (capitalized true stem).head?.any Char.isAlpha then
          capitalized true stem
        else nameHead ++ capitalized true stem := by
  have halnum := isAlphanum_capitalized true stem
  rw [componentName, flatMap_capitalize_runs]
  cases hname : capitalized true stem with
  | nil => rfl
  | cons c t =>
      rw [hname] at halnum
      by_cases hdigit : c.isDigit
      · simp [hdigit, isAlpha_eq_false_of_isDigit hdigit]
      · have halpha : c.isAlpha := by
          simpa [Char.isAlphanum, hdigit] using halnum c (List.mem_cons_self ..)
        simp [hdigit, halpha]

-- ============================================================ names

/-- A capital, then letters and digits. -/
structure IsComponentName (name : Text) : Prop where
  capital : ∃ c, name.head? = some c ∧ c.isUpper
  alphanum : ∀ c ∈ name, c.isAlphanum

namespace IsComponentName

variable {name : Text}

theorem isVariableName (h : IsComponentName name) : isVariableName name := by
  obtain ⟨c, hhead, hupper⟩ := h.capital
  obtain ⟨t, rfl⟩ := List.head?_eq_some_iff.1 hhead
  have ht : ∀ d ∈ t, d.isAlphanum :=
    fun d hd => h.alphanum d (List.mem_cons_of_mem c hd)
  simpa [Stencil.isVariableName, isAlpha_of_isUpper hupper]
    using fun d hd => Or.inl (ht d hd)

/-- A binding has a dollar sign in its name. -/
theorem ne_nameAt (h : IsComponentName name) (i : Nat) :
    name ≠ Bindings.nameAt i := by
  rintro rfl
  have hdollar : '$' ∈ Bindings.nameAt i := List.mem_append_left _ (by decide)
  cases h.alphanum '$' hdollar

theorem ne_of_head? (h : IsComponentName name) {t : Text} {c : Char}
    (ht : t.head? = some c) (hc : c.isUpper = false) : name ≠ t := by
  rintro rfl
  obtain ⟨d, hd, hupper⟩ := h.capital
  obtain rfl := Option.some.inj (hd.symm.trans ht)
  rw [hc] at hupper
  cases hupper

/-- A name that is one already stays. -/
theorem componentName_eq (h : IsComponentName name) :
    componentName name = name := by
  obtain ⟨c, hhead, hupper⟩ := h.capital
  obtain ⟨t, rfl⟩ := List.head?_eq_some_iff.1 hhead
  obtain ⟨hc, ht⟩ := List.forall_mem_cons.1 h.alphanum
  have hstays : capitalized true (c :: t) = c :: t := by
    rw [capitalized, if_pos hc, if_pos rfl, capitalized_false_eq_self ht,
      Char.toUpper_eq_of_not_isLower (Char.not_isLower_of_isUpper hupper)]
  rw [Stencil.componentName_eq, hstays, List.head?_cons, Option.any_some,
    if_pos (isAlpha_of_isUpper hupper)]

end IsComponentName

/-- Every text gives a usable name, the empty one included. -/
theorem isComponentName_componentName (stem : Text) :
    IsComponentName (componentName stem) := by
  have halnum := isAlphanum_capitalized true stem
  have hword : ∀ c ∈ nameHead, c.isAlphanum := List.all_eq_true.1 (by decide)
  rw [componentName_eq]
  split
  · next hletter =>
    obtain ⟨c, hhead, halpha⟩ := (Option.any_eq_true _ _).1 hletter
    exact ⟨⟨c, hhead, isUpper_of_head?_capitalized hhead halpha⟩, halnum⟩
  · refine ⟨⟨'T', rfl, rfl⟩, fun c hc => ?_⟩
    rcases List.mem_append.1 hc with hc | hc
    · exact hword c hc
    · exact halnum c hc

/-- A name holds the letters and digits of a stem in their order, each as it
is there but for the first of a part, which is a capital. A part starts
where no letter or digit stands right before. -/
structure CapitalizesParts (stem name : Text) : Prop where
  length : name.length = stem.countP Char.isAlphanum
  char : ∀ (before after : Text) (c : Char), stem = before ++ c :: after
    → c.isAlphanum →
    name[before.countP Char.isAlphanum]?
      = some (if before.getLast?.any Char.isAlphanum then c else c.toUpper)

theorem capitalizesParts_capitalized (stem : Text) :
    CapitalizesParts stem (capitalized true stem) := by
  refine ⟨length_capitalized true stem, ?_⟩
  rintro before after c rfl hc
  have hstart : startsBehind true before
      = !before.getLast?.any Char.isAlphanum := by
    rw [startsBehind]
    cases before.getLast? <;> rfl
  have hindex := length_capitalized true before
  rw [capitalized_append, ← hindex, List.getElem?_append_right (Nat.le_refl _),
    Nat.sub_self, capitalized, if_pos hc, List.getElem?_cons_zero, hstart]
  cases before.getLast?.any Char.isAlphanum <;> rfl

/-- The name that any stem gives. It is a name of a component, so that it is
a variable name and stands for no binding and no short name; it holds the
letters and digits of the stem, behind a word of its own if they start with
no letter; and as a stem it gives itself. -/
theorem componentName_usable (stem : Text) :
    IsComponentName (componentName stem)
      ∧ isVariableName (componentName stem)
      ∧ (∀ i, componentName stem ≠ Bindings.nameAt i)
      ∧ componentName stem ≠ fragmentAlias
      ∧ (∀ isRoot, componentName stem ≠ functionAlias isRoot)
      ∧ (∃ name, CapitalizesParts stem name
        ∧ componentName stem
          = if name.head?.any Char.isAlpha then name
            else "Template".toList ++ name)
      ∧ componentName (componentName stem) = componentName stem := by
  have hname := isComponentName_componentName stem
  refine ⟨hname, hname.isVariableName, hname.ne_nameAt,
    hname.ne_of_head? rfl rfl, ?_, ?_, hname.componentName_eq⟩
  · intro isRoot
    cases isRoot with
    | true => exact hname.ne_of_head? rfl rfl
    | false => exact hname.ne_of_head? rfl rfl
  · exact ⟨capitalized true stem, capitalizesParts_capitalized stem,
      componentName_eq stem⟩

end Stencil
