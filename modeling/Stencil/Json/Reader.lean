/-
Reading a JSON value from the front of a text. A wanted value may have a
limited number of levels; a value that is passed over may have any.

A list of items between brackets is read by `nextItem`, which finds the
closing bracket or the place of the next item, so that the readers of
values and of documents with known fields share it.
-/
import Stencil.Json.Scalar

namespace Stencil.Json

-- ============================================================= scalars

/-- Reads the letters of a word after its first, and takes the word for
the value given. -/
def readLiteral (tail : Text) (value : Json) (s : Text) :
    Except JsonFailure (Taken Json s) :=
  match s with
  | [] => .error .truncated
  | _ :: r =>
    match _h : readWord tail r with
    | .error e => .error e
    | .ok rest =>
      .ok ⟨value, rest, Nat.lt_succ_of_le (length_le_of_readWord _h)⟩

/-- Reads a value that holds no others, at its first character. -/
def readScalar (rules : Rules) (s : Text) : Except JsonFailure (Taken Json s) :=
  match s with
  | [] => .error .truncated
  | c :: r =>
    if c = 'n' then readLiteral "ull" .null (c :: r)
    else if c = 't' then readLiteral "rue" (.bool true) (c :: r)
    else if c = 'f' then readLiteral "alse" (.bool false) (c :: r)
    else if c = '"' then
      (readString rules r).map fun t => ⟨.string t.value, t.rest,
        t.shorterThanCons c⟩
    else if c = '-' || c.isDigit then
      (readNumber rules (c :: r)).map (·.map Json.number)
    else .error .malformed

-- =============================================================== items

/-- What stands next in a list of items. -/
inductive NextItem (s : Text) where
  /-- The closing bracket, with the text after it. -/
  | closed (rest : Text) (shorter : rest.length < s.length)
  /-- An item, with the text from its place on. -/
  | item (rest : Text) (notLonger : rest.length ≤ s.length)

/-- Finds the closing bracket or the next item; each item but the first
has a comma before it. -/
def nextItem (close : Char) (isFirst : Bool) (s : Text) :
    Except JsonFailure (NextItem s) :=
  match _h : skipSpace s with
  | [] => .error .truncated
  | c :: r =>
    if c = close then .ok (.closed r (length_lt_of_skipSpace _h))
    else if isFirst then .ok (.item s (Nat.le_refl _))
    else if c = ',' then .ok
      (.item r (Nat.le_of_lt (length_lt_of_skipSpace _h)))
    else .error .malformed

/-- Reads the key of a member. -/
def readKey (rules : Rules) (s : Text) : Except JsonFailure (Taken Text s) :=
  match _h : skipSpace s with
  | [] => .error .truncated
  | c :: r =>
    if c = '"' then
      (readString rules r).map
        (.ofTail (Nat.le_of_lt (length_lt_of_skipSpace _h)))
    else .error .malformed

/-- Reads the colon between the key and the value of a member. -/
def readColon (s : Text) : Except JsonFailure (Taken Unit s) :=
  match _h : skipSpace s with
  | [] => .error .truncated
  | c :: r =>
    if c = ':' then .ok ⟨(), r, length_lt_of_skipSpace _h⟩
    else .error .malformed

/-- Reads the key of a member and the colon after it. -/
def readKeyColon (rules : Rules) (s : Text) :
    Except JsonFailure (Taken Text s) :=
  match readKey rules s with
  | .error e => .error e
  | .ok k =>
    match readColon k.rest with
    | .error e => .error e
    | .ok t => .ok ⟨k.value, t.rest, Nat.lt_trans t.shorter k.shorter⟩

-- ============================================================== values

/-- How deep a value may go: a number of levels for a wanted value, and
no limit for a value that is passed over. -/
abbrev Levels := Option Nat

namespace Levels

/-- The rules for the parts of a value. -/
def rules (levels : Levels) : Rules := if levels.isSome then .strict else .loose

/-- The levels left inside a list of items. -/
def descend : Levels → Except JsonFailure Levels
  | none => .ok none
  | some n => if n ≤ 1 then .error .malformed else .ok (some (n - 1))

end Levels

mutual

/-- Reads a value. -/
def readValue (levels : Levels) (s : Text) :
    Except JsonFailure (Taken Json s) :=
  match _h : skipSpace s with
  | [] => .error .truncated
  | c :: r =>
    have hr := length_lt_of_skipSpace _h
    if c = '[' then
      match levels.descend with
      | .error e => .error e
      | .ok inner =>
        (readItems inner true r).map fun t => (t.map Json.array).ofTail
          (Nat.le_of_lt hr)
    else if c = '{' then
      match levels.descend with
      | .error e => .error e
      | .ok inner =>
        (readMembers inner true r).map fun t => (t.map Json.object).ofTail
          (Nat.le_of_lt hr)
    else
      (readScalar levels.rules (c :: r)).map
        (.ofTail (_h ▸ length_skipSpace_le s))
termination_by 2 * s.length

/-- Reads the items of an array after its opening bracket, or the further
items after one. -/
def readItems (levels : Levels) (isFirst : Bool) (s : Text) :
    Except JsonFailure (Taken (List Json) s) :=
  match nextItem ']' isFirst s with
  | .error e => .error e
  | .ok (.closed rest shorter) => .ok ⟨[], rest, shorter⟩
  | .ok (.item r notLonger) =>
    match readValue levels r with
    | .error e => .error e
    | .ok v =>
      have := v.shorter
      (readItems levels false v.rest).map fun t =>
        (t.map (v.value :: ·)).ofTail (by omega)
termination_by 2 * s.length + 1

/-- Reads the members of an object after its opening brace, or the further
members after one. -/
def readMembers (levels : Levels) (isFirst : Bool) (s : Text) :
    Except JsonFailure (Taken (List (Text × Json)) s) :=
  match nextItem '}' isFirst s with
  | .error e => .error e
  | .ok (.closed rest shorter) => .ok ⟨[], rest, shorter⟩
  | .ok (.item r notLonger) =>
    match readKeyColon levels.rules r with
    | .error e => .error e
    | .ok k =>
      have := k.shorter
      match readValue levels k.rest with
      | .error e => .error e
      | .ok v =>
        have := v.shorter
        (readMembers levels false v.rest).map fun t =>
          (t.map ((k.value, v.value) :: ·)).ofTail (by omega)
termination_by 2 * s.length + 1

end

end Stencil.Json
