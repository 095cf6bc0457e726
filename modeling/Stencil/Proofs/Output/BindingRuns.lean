/-
Expressions used one after the other. Each use gives a name, and the
bindings grow by the expressions that are new; `Bindings.run` is a whole
run of uses, with what was given for each.

Uses leave the names of what is bound alone
(`Bindings.name_foldl_bind_of_mem`), so that every name given in a run is
the name at its end (`Bindings.run_fst`). What holds of the names at the end
then holds of the names given: there is one for each expression, numbered by
first use.
-/
import Stencil.Proofs.Output.TagNames

namespace Stencil

-- ============================================================= names

/-- The digits of a number say which it is. -/
theorem Text.ofNat_injective : Function.Injective Text.ofNat :=
  Function.LeftInverse.injective (g := fun t => Nat.ofDigitChars 10 t 0)
    fun _ => Nat.ofDigitChars_ten_toDigits

namespace Bindings

theorem nameAt_injective : Function.Injective nameAt :=
  (List.append_right_injective _).comp Text.ofNat_injective

/-- No two bound expressions have one name. -/
theorem name_eq_name_iff {b : Bindings} {d e : Text} (hd : d ∈ b.exprs) :
    b.name d = b.name e ↔ d = e :=
  nameAt_injective.eq_iff.trans (List.idxOf_inj hd)

-- =========================================================== one use

/-- An expression that is bound is bound no second time. -/
theorem bind_of_mem {b : Bindings} {e : Text} (he : e ∈ b.exprs) :
    b.bind e = b := by
  rw [bind, if_pos he]

/-- A new expression takes the next number. -/
theorem name_bind_of_notMem {b : Bindings} {e : Text} (he : e ∉ b.exprs) :
    (b.bind e).name e = nameAt b.exprs.length := by
  rw [bind, if_neg he, name, List.idxOf_append, if_neg he, List.idxOf_cons_self,
    Nat.zero_add]

-- ======================================================= uses in a row

/-- Uses of expressions in a row: each expression with the name given for
it, and the bindings in the end. -/
def run (b : Bindings) : List Text → List (Text × Text) × Bindings
  | [] => ([], b)
  | e :: es =>
    ((e, (b.use e).1) :: ((b.use e).2.run es).1, ((b.use e).2.run es).2)

/-- A run changes no name. -/
theorem name_foldl_bind_of_mem {b : Bindings} {d : Text} (hd : d ∈ b.exprs)
    (es : List Text) :
    (es.foldl bind b).name d = b.name d :=
  name_of_prefix (exprs_prefix_foldl_bind es b) hd

theorem run_snd (es : List Text) (b : Bindings) :
    (b.run es).2 = es.foldl bind b := by
  induction es generalizing b with
  | nil => rfl
  | cons e es ih => exact ih (b.bind e)

/-- The names given in a run are those at its end. -/
theorem run_fst (es : List Text) (b : Bindings) :
    (b.run es).1 = es.map fun e => (e, (es.foldl bind b).name e) := by
  induction es generalizing b with
  | nil => rfl
  | cons e es ih =>
      have hbound : e ∈ (b.bind e).exprs :=
        (mem_exprs_bind b e e).2 (Or.inr rfl)
      rw [run, List.map_cons, List.foldl_cons, name_foldl_bind_of_mem hbound]
      exact congrArg _ (ih (b.bind e))

theorem run_empty (es : List Text) :
    empty.run es = (es.map fun e => (e, (ofList es).name e), ofList es) :=
  Prod.ext (run_fst es empty) (run_snd es empty)

-- ================================================== from no bindings on

theorem exprs_ofList (es : List Text) : (ofList es).exprs = es.eraseDups := by
  rw [ofList, exprs_foldl_bind]
  simp [empty]

theorem mem_exprs_ofList {es : List Text} {e : Text} :
    e ∈ (ofList es).exprs ↔ e ∈ es := by
  rw [exprs_ofList, List.mem_eraseDups]

theorem ofList_append (es es' : List Text) :
    ofList (es ++ es') = es'.foldl bind (ofList es) := by
  rw [ofList, List.foldl_append, ofList]

theorem name_ofList_append {es : List Text} {e : Text} (he : e ∈ es)
    (es' : List Text) :
    (ofList (es ++ es')).name e = (ofList es).name e := by
  rw [ofList_append, name_foldl_bind_of_mem (mem_exprs_ofList.2 he)]

/-- A second use of an expression binds nothing. -/
theorem use_ofList_of_mem {es : List Text} {e : Text} (he : e ∈ es) :
    (ofList es).use e = ((ofList es).name e, ofList es) := by
  rw [use, bind_of_mem (mem_exprs_ofList.2 he)]

/-- The first use of an expression gives the number of those before it. -/
theorem name_ofList_of_notMem {before : List Text} {e : Text} (he : e ∉ before)
    (after : List Text) :
    (ofList (before ++ e :: after)).name e
      = nameAt before.eraseDups.length := by
  have hnew : e ∉ (ofList before).exprs :=
    fun hmem => he (mem_exprs_ofList.1 hmem)
  have hbound : e ∈ ((ofList before).bind e).exprs :=
    (mem_exprs_bind _ e e).2 (Or.inr rfl)
  calc (ofList (before ++ e :: after)).name e
      = (after.foldl bind ((ofList before).bind e)).name e := by
        rw [ofList_append, List.foldl_cons]
    _ = ((ofList before).bind e).name e := name_foldl_bind_of_mem hbound after
    _ = nameAt before.eraseDups.length := by
      rw [name_bind_of_notMem hnew, exprs_ofList]

-- ============================================================ entries

/-- The bound expressions with their names, in order. -/
def entries (b : Bindings) : List (Text × Text) :=
  b.exprs.zipIdx.map fun p => (p.1, nameAt p.2)

/-- The statement that declares a name for an expression. -/
def declaration (pretty : Bool) (column : Nat) (entry : Text × Text) : Text :=
  if pretty then
    '\n' :: (Text.spaces column ++ "const ".toList ++ entry.2 ++ " = ".toList
      ++ entry.1 ++ [';'])
  else "const ".toList ++ entry.2 ++ "=".toList ++ entry.1 ++ [';']

theorem map_fst_entries (b : Bindings) : b.entries.map Prod.fst = b.exprs := by
  rw [entries, List.map_map]
  exact List.zipIdx_map_fst 0 b.exprs

theorem statements_eq_flatMap (b : Bindings) (pretty : Bool) (column : Nat) :
    b.statements pretty column
      = b.entries.flatMap (declaration pretty column) := by
  rw [statements, entries, List.flatMap_map]
  rfl

theorem entries_prefix {b b' : Bindings} (h : b.exprs <+: b'.exprs) :
    b.entries <+: b'.entries := by
  obtain ⟨t, ht⟩ := h
  rw [entries, entries, ← ht, List.zipIdx_append, List.map_append]
  exact List.prefix_append _ _

/-- An entry has the name by which its expression is referred to. -/
theorem of_mem_entries {b : Bindings} (h : b.exprs.Nodup) {p : Text × Text}
    (hp : p ∈ b.entries) : p.1 ∈ b.exprs ∧ b.name p.1 = p.2 := by
  obtain ⟨⟨e, i⟩, hmem, rfl⟩ := List.mem_map.1 hp
  have hat : b.exprs[i]? = some e := List.mem_zipIdx_iff_getElem?.1 hmem
  obtain ⟨hi, rfl⟩ := List.getElem?_eq_some_iff.1 hat
  exact ⟨List.getElem_mem hi, congrArg nameAt (h.idxOf_getElem i hi)⟩

-- ============================================================ the run

/-- What a run of uses gives, from no bindings on. Two uses are given one
name exactly if they are of one expression, and the first use of an
expression is given the number of expressions used before it. What a first
part of the run gave stays: a use at the end of the run gives it again and
binds nothing. Behind that part the statements declare the expressions used
in it, once each and in the order of first use, by the names given for
them. -/
theorem run_by_first_use (calls : List Text) :
    (empty.run calls).1.map Prod.fst = calls
      ∧ (∀ p ∈ (empty.run calls).1, ∀ q ∈ (empty.run calls).1, p.2 = q.2
        ↔ p.1 = q.1)
      ∧ (∀ before e after, calls = before ++ e :: after → e ∉ before →
        (empty.run calls).1[before.length]?
          = some (e, "C$c".toList ++ Text.ofNat before.eraseDups.length))
      ∧ ∀ before after, calls = before ++ after →
        (empty.run before).1 <+: (empty.run calls).1
        ∧ (∀ p ∈ (empty.run before).1,
          (empty.run calls).2.use p.1 = (p.2, (empty.run calls).2))
        ∧ (empty.run before).2.entries <+: (empty.run calls).2.entries
        ∧ (empty.run before).2.entries.map Prod.fst = before.eraseDups
        ∧ (∀ p ∈ (empty.run before).2.entries, p ∈ (empty.run before).1)
        ∧ ∀ pretty column, (empty.run before).2.statements pretty column
          = (empty.run before).2.entries.flatMap
            (declaration pretty column) := by
  simp only [run_empty]
  refine ⟨?_, ?_, ?_, ?_⟩
  · rw [List.map_map]
    exact List.map_id calls
  · intro p hp q hq
    obtain ⟨d, hd, rfl⟩ := List.mem_map.1 hp
    obtain ⟨e, -, rfl⟩ := List.mem_map.1 hq
    exact name_eq_name_iff (mem_exprs_ofList.2 hd)
  · rintro before e after rfl he
    rw [List.getElem?_map, List.getElem?_append_right (Nat.le_refl _),
      Nat.sub_self, List.getElem?_cons_zero, Option.map_some,
      name_ofList_of_notMem he]
    rfl
  · rintro before after rfl
    refine ⟨?_, ?_, ?_, ?_, ?_, statements_eq_flatMap (ofList before)⟩
    · have hsame : ∀ e ∈ before, (e, (ofList (before ++ after)).name e)
          = (e, (ofList before).name e) := fun e he => by
            rw [name_ofList_append he]
      rw [List.map_append, List.map_congr_left hsame]
      exact List.prefix_append _ _
    · intro p hp
      obtain ⟨e, he, rfl⟩ := List.mem_map.1 hp
      rw [← name_ofList_append he after]
      exact use_ofList_of_mem (List.mem_append_left after he)
    · rw [ofList_append]
      exact entries_prefix (exprs_prefix_foldl_bind after (ofList before))
    · rw [map_fst_entries, exprs_ofList]
    · intro p hp
      have hnodup : (ofList before).exprs.Nodup :=
        nodup_foldl_bind before List.nodup_nil
      obtain ⟨hbound, hname⟩ := of_mem_entries hnodup hp
      exact List.mem_map.2 ⟨p.1, mem_exprs_ofList.1 hbound, Prod.ext rfl hname⟩

/-- Two expressions, one of them used again behind the other. -/
theorem run_by_first_use_again :
    let calls : List Text :=
  ["props.p1".toList, "props.p2".toList, "props.p1".toList]
    (empty.run calls).1.map Prod.snd
      = ["C$c0".toList, "C$c1".toList, "C$c0".toList]
      ∧ (empty.run calls).1[1]? = some ("props.p2".toList, "C$c1".toList)
      ∧ (empty.run calls).2.statements false 0
        = "const C$c0=props.p1;const C$c1=props.p2;".toList := by
  intro calls
  obtain ⟨-, -, hfirst, hparts⟩ := run_by_first_use calls
  obtain ⟨-, -, -, -, -, hstatements⟩ :=
    hparts calls [] (List.append_nil calls).symm
  refine ⟨by decide, ?_, ?_⟩
  · exact hfirst ["props.p1".toList] "props.p2".toList ["props.p1".toList] rfl
      (by decide)
  · rw [hstatements]
    decide

end Bindings

end Stencil
