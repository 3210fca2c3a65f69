import SettingsArchive.Json.Token

/-!
# Reading JSON text

The tokens of a text are taken one by one.  `Nest` is what is open at a
place, and `Place` says what may stand there.  The text is read when its
tokens lead to the place behind a value with nothing open.
-/

namespace SettingsArchive.Json

/-- Something open: an array with its items so far, or an object with its
members so far and the key of the member that is read.  The last comes
first. -/
inductive Nest where
  | array (items : List Json)
  | object (members : List (Option String × Json)) (key : Option String)

/-- What may stand at a place. -/
inductive Place where
  /-- A value. -/
  | value (nests : List Nest)
  /-- The first item of an array, or its end. -/
  | firstItem (nests : List Nest)
  /-- The key of the first member of an object, or its end. -/
  | firstKey (nests : List Nest)
  /-- The key of a member. -/
  | nextKey (members : List (Option String × Json)) (nests : List Nest)
  /-- The colon behind a key. -/
  | colon (members : List (Option String × Json)) (key : Option String)
    (nests : List Nest)
  /-- A comma or an end, behind a value. -/
  | after (value : Json) (nests : List Nest)

/-- The object of some members, the last one first.  A key that stands for
nothing breaks the object. -/
def objectOf (members : List (Option String × Json)) : Json :=
  match members.reverse.mapM fun (k, j) => k.map (·, j) with
  | some members => .object members
  | none => .broken

/-- The place behind a token. -/
def Place.step? : Place → Token → Option Place
  | .value nests, t => begin nests t
  | .firstItem nests, .closeArray => some (.after (.array []) nests)
  | .firstItem nests, t => begin (.array [] :: nests) t
  | .firstKey nests, .closeObject => some (.after (.object []) nests)
  | .firstKey nests, .string key => some (.colon [] key nests)
  | .nextKey members nests, .string key => some (.colon members key nests)
  | .colon members key nests, .colon =>
    some (.value (.object members key :: nests))
  | .after j (.array items :: nests), .comma =>
    some (.value (.array (j :: items) :: nests))
  | .after j (.array items :: nests), .closeArray =>
    some (.after (.array (j :: items).reverse) nests)
  | .after j (.object members key :: nests), .comma =>
    some (.nextKey ((key, j) :: members) nests)
  | .after j (.object members key :: nests), .closeObject =>
    some (.after (objectOf ((key, j) :: members)) nests)
  | _, _ => none
where
  /-- The place behind a token that begins a value. -/
  begin (nests : List Nest) : Token → Option Place
    | .openArray => some (.firstItem nests)
    | .openObject => some (.firstKey nests)
    | .string (some text) => some (.after (.string text) nests)
    | .string none => some (.after .broken nests)
    | .scalar j => some (.after j nests)
    | _ => none

/-- The value that a text holds. -/
def read? (text : String) : Option Json := do
  let tokens ← Token.readAll? text
  match ← tokens.foldlM Place.step? (.value []) with
  | .after j [] => return j
  | _ => none

end SettingsArchive.Json
