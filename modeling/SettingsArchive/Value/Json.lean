import SettingsArchive.Json.Reader
import SettingsArchive.Value

/-!
# Values in reports

A report shows a value as an object with its kind under `type` and the value
itself under `value`.  Bytes are a list of numbers, and a struct is a list of
pairs.

The object may be read in other forms too.  Its members may come in either
order and other members between them are passed over; a list of the kind and
the value will do for the object, and an object with the kind as its only key
for the name of the kind under `type`.  What is passed over may even be broken
or nested deeper than a value may be, but whatever stands under `value` before
the kind is known must be neither.  It is kept until the kind is known, and
within what is kept the kind may be written in more ways: in a list also as
its number, and the only key may hold an empty object.
-/

namespace SettingsArchive.Value

/-! ## Writing -/

/-- The object of a kind and a value. -/
def tagged (k : Kind) (content : Json) : Json :=
  .object [("type", .string k.name), ("value", content)]

mutual

/-- The value as a report shows it. -/
def toJson : Value → Json
  | .bool b => tagged .bool (.bool b)
  | .int n => tagged .int (.int n.toInt)
  | .float x => tagged .float (.float x)
  | .string text => tagged .string (.string text)
  | .bytes data => tagged .bytes (.array (data.map fun b => .ofNat b.toNat))
  | .struct fields => tagged .struct (.array (fieldsToJson fields))

/-- The fields of a struct as pairs. -/
def fieldsToJson : List (String × Value) → List Json
  | [] => []
  | (name, v) :: fields =>
    .array [.string name, toJson v] :: fieldsToJson fields

end

/-! ## Reading -/

/-- How many lists and objects may stand within each other, the innermost one
included. -/
def maxDepth : Nat := 127

mutual

/-- Whether nothing is broken and at most `depth` lists and objects stand
within each other. -/
def isSound (depth : Nat) : Json → Bool
  | .array items => 0 < depth && areSound (depth - 1) items
  | .object members => 0 < depth && membersAreSound (depth - 1) members
  | .broken => false
  | _ => true

/-- Whether all items are sound. -/
def areSound (depth : Nat) : List Json → Bool
  | [] => true
  | j :: js => isSound depth j && areSound depth js

/-- Whether the values of all members are sound. -/
def membersAreSound (depth : Nat) : List (String × Json) → Bool
  | [] => true
  | (_, j) :: js => isSound depth j && membersAreSound depth js

end

/-- The kind in front of a value in a list.  In a kept list a number may stand
for it. -/
def kindOfItem? (kept : Bool) : Json → Option Kind
  | .string name => Kind.ofName? name
  | .int n => if kept && 0 ≤ n then Kind.all[n.toNat]? else none
  | _ => none

/-- Whether the member that stands for a kind may hold this. -/
def isEmptyMember (kept : Bool) : Json → Bool
  | .null => true
  | .object [] => kept
  | _ => false

/-- The kind under `type` in an object, with `depth` lists and objects left to
stand within each other. -/
def kindOfMember? (kept : Bool) (depth : Nat) : Json → Option Kind
  | .string name => Kind.ofName? name
  | .object [(name, j)] =>
    if 0 < depth && isEmptyMember kept j then Kind.ofName? name else none
  | _ => none

/-- A byte from its number. -/
def byteOfJson? : Json → Option UInt8
  | .int n => if 0 ≤ n ∧ n < 256 then some (UInt8.ofNat n.toNat) else none
  | _ => none

/-- The parts of the object of a value: the kind, the value, and whether the
value stands in front of the kind. -/
def partsOf? (members : List (String × Json)) : Option (Json × Json × Bool) :=
  match members.filter fun (key, _) => key = "type" ∨ key = "value" with
  | [("type", k), ("value", content)] => some (k, content, false)
  | [("value", content), ("type", k)] => some (k, content, true)
  | _ => none

/-- A number from its report.  A whole number is rounded. -/
def floatOfJson? : Json → Option Binary64
  | .float x => some x
  | .int n =>
    some (Binary64.ofMagnitude (n < 0) (Binary64.nearest n.natAbs 1))
  | _ => none

/-- A value of a kind that is not a struct, with `depth` lists and objects
left to stand within each other. -/
def scalarOfJson? (depth : Nat) : Kind → Json → Option Value
  | .bool, .bool b => some (.bool b)
  | .int, .int n =>
    if -(Numeral.maxInt64 + 1 : Int) ≤ n ∧ n ≤ Numeral.maxInt64 then
      some (.int (Int64.ofInt n))
    else none
  | .float, content => .float <$> floatOfJson? content
  | .string, .string text => some (.string text)
  | .bytes, .array items =>
    if depth = 0 then none else .bytes <$> items.mapM byteOfJson?
  | _, _ => none

/-- The kind, the value and whether the value is kept, in either form of a
value. -/
def formOf? (kept : Bool) (depth : Nat) : Json → Option (Kind × Json × Bool)
  | .array [k, content] => do
    let k ← kindOfItem? kept k
    return (k, content, kept)
  | .object members => do
    let (k, content, early) ← partsOf? members
    let k ← kindOfMember? kept depth k
    if early && !isSound depth content then failure
    return (k, content, kept || early)
  | _ => none

/-- The fields of a struct, each read by `read`. -/
def fieldsOfJson? (read : Json → Option Value) :
    List Json → Option (List (String × Value))
  | [] => some []
  | .array [.string name, j] :: js => do
    let v ← read j
    let fields ← fieldsOfJson? read js
    return (name, v) :: fields
  | _ :: _ => none

/-- Reads a value in which at most so many lists and objects stand within
each other, and which may be kept. -/
def ofJsonWithin? : Nat → Bool → Json → Option Value
  | 0, _, _ => none
  | depth + 1, kept, j => do
    let (k, content, kept) ← formOf? kept depth j
    match k, content, depth with
    | .struct, .array [], _ + 1 => return .struct []
    | .struct, .array fields, rest + 2 =>
      .struct <$> fieldsOfJson? (ofJsonWithin? rest kept) fields
    | k, content, depth => scalarOfJson? depth k content

/-- The value that a report shows. -/
def ofJson? (j : Json) : Option Value :=
  ofJsonWithin? maxDepth false j

end SettingsArchive.Value
