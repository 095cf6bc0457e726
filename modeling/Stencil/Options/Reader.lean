/-
Reading options from a JSON document. A document is an object with any of
the four fields, in any order and among other members, or an array of the
fields in their fixed order, of which the last may be left out. The same
two forms serve for a layout and for the names of nested calls.

The document is read from left to right and the first thing wrong with it
is reported: that it is not JSON, that it ends too early, or that a value
does not fit its field.
-/
import Stencil.Json.Reader
import Stencil.Options.Basic
import Stencil.Text.Shown

namespace Stencil

-- ============================================================ failures

/-- What a field or a document has to be. -/
inductive Expectation where
  | text
  | boolean
  | options
  deriving DecidableEq, Repr

/-- What stands there instead. -/
inductive Found where
  | null
  | bool (b : Bool)
  | number (n : Number)
  | text (t : Text)
  | array
  | object
  deriving DecidableEq, Repr

/-- A field of the options. -/
inductive OptionField where
  | componentName
  | pretty
  | jsx
  | preserveWhitespace
  deriving DecidableEq, Repr

/-- Why options cannot be read. -/
inductive OptionsError where
  /-- The text is not JSON. -/
  | malformed
  /-- The text ends too early. -/
  | truncated
  /-- A value of the wrong kind. -/
  | wrongType (found : Found) (expected : Expectation)
  /-- A value of `pretty` in none of its forms. -/
  | unknownPretty
  /-- A value of `jsx` in none of its forms. -/
  | unknownJsx
  /-- A field given twice. -/
  | repeated (field : OptionField)
  deriving DecidableEq, Repr

/-- The key of a field. -/
def OptionField.key : OptionField → Text
  | .componentName => "componentName"
  | .pretty => "pretty"
  | .jsx => "jsx"
  | .preserveWhitespace => "preserveWhitespace"

/-- The fields in their fixed order. -/
def OptionField.all : List OptionField :=
  [.componentName, .pretty, .jsx, .preserveWhitespace]

/-- The field with the key given. -/
def OptionField.ofKey? (key : Text) : Option OptionField :=
  OptionField.all.find? fun field => field.key = key

/-- The wording of an expectation. -/
def Expectation.describe : Expectation → Text
  | .text => "a string"
  | .boolean => "a boolean"
  | .options => "struct CompileOptions"

/-- The wording for what stands there instead. -/
def Found.describe : Found → Text
  | .null => "null"
  | .bool b =>
    "boolean `".toList ++ (if b then "true" else "false").toList ++ ['`']
  | .number (.real isNegative size) =>
    "floating point `".toList ++ (Number.real isNegative size).text ++ ['`']
  | .number n => "integer `".toList ++ n.text ++ ['`']
  | .text t => "string ".toList ++ Text.showText t
  | .array => "sequence"
  | .object => "map"

/-- The wording of an error in a document that is JSON. -/
def OptionsError.message? : OptionsError → Option Text
  | .malformed | .truncated => none
  | .wrongType found expected =>
    some ("invalid type: ".toList ++ found.describe ++ ", expected ".toList
      ++ expected.describe)
  | .unknownPretty =>
    some "data did not match any variant of untagged enum PrettyOption".toList
  | .unknownJsx =>
    some "data did not match any variant of untagged enum JsxOption".toList
  | .repeated field => some ("duplicate field `".toList ++ field.key ++ ['`'])

/-- A document that is not JSON as an error of the options. -/
def OptionsError.ofJson : JsonFailure → OptionsError
  | .malformed => .malformed
  | .truncated => .truncated

-- ===================================================== records in JSON

namespace Json

/-- The values of the keys given, from an object that has each at most
once or from an array that is not longer than the keys. -/
def record? (keys : List Text) : Json → Option (List (Option Json))
  | .object members =>
    keys.mapM fun key =>
      match members.filter (·.1 = key) with
      | [] => some none
      | [(_, value)] => some (some value)
      | _ => none
  | .array items =>
    if items.length ≤ keys.length then
      some (items.map some ++ List.replicate (keys.length - items.length) none)
    else none
  | _ => none

/-- A natural number, or the default where there is no value. -/
def natOr? (default : Nat) : Option Json → Option Nat
  | none => some default
  | some (.number (.natural n)) => some n
  | some _ => none

/-- A string, or the default where there is no value. -/
def textOr? (default : Text) : Option Json → Option Text
  | none => some default
  | some (.string t) => some t
  | some _ => none

end Json

/-- A layout from its JSON form. -/
def Layout.ofJson? (j : Json) : Option Layout :=
  let base : Layout := {}
  match j.record? ["initialIndent".toList, "indentSize".toList] with
  | some [initialIndent, indentSize] => do
    return ⟨← Json.natOr? base.initialIndent initialIndent,
      ← Json.natOr? base.indentSize indentSize⟩
  | _ => none

/-- The names of nested calls from their JSON form. -/
def CallNames.ofJson? (j : Json) : Option CallNames :=
  let base : CallNames := {}
  match j.record? ["fragment".toList, "jsx".toList, "jsxs".toList] with
  | some [fragment, jsx, jsxs] => do
    return ⟨← Json.textOr? base.fragment fragment, ← Json.textOr? base.jsx jsx,
      ← Json.textOr? base.jsxs jsxs⟩
  | _ => none

/-- The value of `pretty` from its JSON form. -/
def PrettySetting.ofJson? : Json → Option PrettySetting
  | .bool on => some (.flag on)
  | .number (.natural n) => some (.indentSize n)
  | j => (Layout.ofJson? j).map .layout

/-- The value of `jsx` from its JSON form. -/
def JsxSetting.ofJson? : Json → Option JsxSetting
  | .bool on => some (.flag on)
  | j => (CallNames.ofJson? j).map .names

-- ============================================================== fields

namespace OptionsReader

/-- The levels that the value of a field may have. -/
def levels : Json.Levels := some 127

/-- The error for a value of the wrong kind at the front of a text. A
value that holds no others is read first, and may itself be faulty. -/
def wrongType (expected : Expectation) (s : Text) : OptionsError :=
  match Json.skipSpace s with
  | '[' :: _ => .wrongType .array expected
  | '{' :: _ => .wrongType .object expected
  | r =>
    match Json.readScalar .strict r with
    | .error e => .ofJson e
    | .ok t =>
      match t.value with
      | .null => .wrongType .null expected
      | .bool b => .wrongType (.bool b) expected
      | .number n => .wrongType (.number n) expected
      | .string u => .wrongType (.text u) expected
      | .array _ => .wrongType .array expected
      | .object _ => .wrongType .object expected

/-- Reads a scalar of the kind that `fits` accepts. -/
def readFitting {α : Type} (expected : Expectation) (fits : Json → Option α)
    (s : Text) :
    Except OptionsError (Taken α s) :=
  match Json.readScalar .strict (Json.skipSpace s) with
  | .error _ => .error (wrongType expected s)
  | .ok t =>
    match fits t.value with
    | some a => .ok ((t.map fun _ => a).ofTail (Json.length_skipSpace_le s))
    | none => .error (wrongType expected s)

/-- Reads a string. -/
def readText : (s : Text) → Except OptionsError (Taken Text s) :=
  readFitting .text fun
    | .string t => some t
    | _ => none

/-- Reads a boolean. -/
def readBool : (s : Text) → Except OptionsError (Taken Bool s) :=
  readFitting .boolean fun
    | .bool b => some b
    | _ => none

/-- Reads a value in one of several forms. -/
def readForm {α : Type} (unknown : OptionsError) (ofJson? : Json → Option α)
    (s : Text) :
    Except OptionsError (Taken α s) :=
  match Json.readValue levels s with
  | .error e => .error (.ofJson e)
  | .ok t =>
    match ofJson? t.value with
    | some a => .ok (t.map fun _ => a)
    | none => .error unknown

/-- Reads the value of a field into the options. -/
def readField (o : Options) (field : OptionField) (s : Text) :
    Except OptionsError (Taken Options s) :=
  match field with
  | .componentName =>
    (readText s).map (·.map fun t => { o with componentName := t })
  | .pretty =>
    (readForm .unknownPretty PrettySetting.ofJson? s).map
      (·.map fun p => { o with pretty := p })
  | .jsx =>
    (readForm .unknownJsx JsxSetting.ofJson? s).map
      (·.map fun j => { o with jsx := j })
  | .preserveWhitespace =>
    (readBool s).map (·.map fun b => { o with preserveWhitespace := b })

-- =========================================================== documents

/-- Reads fields in their order, as far as an array goes. -/
def readArray (o : Options) (isFirst : Bool) (s : Text) :
    List OptionField → Except OptionsError (Options × Text)
  | [] =>
    match Json.skipSpace s with
    | [] => .error .truncated
    | c :: r => if c = ']' then .ok (o, r) else .error .malformed
  | field :: fields =>
    match Json.nextItem ']' isFirst s with
    | .error e => .error (.ofJson e)
    | .ok (.closed r _) => .ok (o, r)
    | .ok (.item r _) =>
      match readField o field r with
      | .error e => .error e
      | .ok t => readArray t.value false t.rest fields

/-- Reads the value of a member that is no field. -/
def skipValue (s : Text) : Except OptionsError (Taken Unit s) :=
  match Json.readValue none s with
  | .error e => .error (.ofJson e)
  | .ok t => .ok (t.map fun _ => ())

/-- Reads the colon and the value of the member with the key given into
the options. -/
def readMember (o : Options) (field : Option OptionField) (s : Text) :
    Except OptionsError (Taken Options s) :=
  match Json.readColon s with
  | .error e => .error (.ofJson e)
  | .ok colon =>
    match field with
    | some field =>
      (readField o field colon.rest).map (.ofTail (Nat.le_of_lt colon.shorter))
    | none =>
      (skipValue colon.rest).map fun t =>
        (t.map fun _ => o).ofTail (Nat.le_of_lt colon.shorter)

/-- Reads the members of an object, given the fields that it had so far. -/
def readObject (o : Options) (seen : List OptionField) (isFirst : Bool)
    (s : Text) :
    Except OptionsError (Options × Text) :=
  match Json.nextItem '}' isFirst s with
  | .error e => .error (.ofJson e)
  | .ok (.closed r _) => .ok (o, r)
  | .ok (.item r _notLonger) =>
    match Json.readKey .strict r with
    | .error e => .error (.ofJson e)
    | .ok key =>
      let field := OptionField.ofKey? key.value
      match field.filter (· ∈ seen) with
      | some field => .error (.repeated field)
      | none =>
        match readMember o field key.rest with
        | .error e => .error e
        | .ok t =>
          have := key.shorter
          have := t.shorter
          readObject t.value (field.toList ++ seen) false t.rest
termination_by s.length

end OptionsReader

/-- Reads options from a JSON document. -/
def Options.ofText (s : Text) : Except OptionsError Options :=
  let document :=
    match Json.skipSpace s with
    | '[' :: r => OptionsReader.readArray {} true r OptionField.all
    | '{' :: r => OptionsReader.readObject {} [] true r
    | _ => .error (OptionsReader.wrongType .options s)
  match document with
  | .error e => .error e
  | .ok (o, rest) =>
    if (Json.skipSpace rest).isEmpty then .ok o else .error .malformed

end Stencil
