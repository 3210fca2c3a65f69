import SettingsArchive.Binary64.Layout
import SettingsArchive.Text.Quoted

/-!
# JSON

Reports for programs are JSON.  The members of an object keep their order,
and whole numbers are kept apart from numbers with a point, so that a report
shows each as it is.

There are two texts: `compact` has no blanks, and `pretty` has a line for
each item and each member.
-/

namespace SettingsArchive

/-- A JSON value.  A text may be of the right form and stand for nothing: a
number that is too large, or a string in which half of a surrogate pair
stands alone.  `broken` is such a value. -/
inductive Json where
  | null
  | bool (b : Bool)
  | int (n : Int)
  | float (x : Binary64)
  | string (text : String)
  | array (items : List Json)
  | object (members : List (String × Json))
  | broken

namespace Json

instance : Inhabited Json := ⟨.null⟩

/-- A whole number that is not negative. -/
def ofNat (n : Nat) : Json := .int n

/-- A text, or null. -/
def ofText? : Option String → Json
  | some text => .string text
  | none => .null

/-- A list of texts. -/
def ofTexts (texts : List String) : Json :=
  .array (texts.map .string)

/-! ## Scalars -/

/-- One character within a string. -/
def stringChar (c : Char) : List Char :=
  if c = '"' then ['\\', '"']
  else if c = '\\' then ['\\', '\\']
  else if c = '\n' then ['\\', 'n']
  else if c = '\r' then ['\\', 'r']
  else if c = '\t' then ['\\', 't']
  else if c.toNat = 8 then ['\\', 'b']
  else if c.toNat = 12 then ['\\', 'f']
  else if c.toNat < 32 then
    let digits := Nat.toDigits 16 c.toNat
    '\\' :: 'u' :: List.replicate (4 - digits.length) '0' ++ digits
  else [c]

/-- The text of a string. -/
def stringText (s : String) : String :=
  "\"" ++ String.ofList (s.toList.flatMap stringChar) ++ "\""

/-- The text of a number with a point.  Only finite numbers have one. -/
def floatText (x : Binary64) : String :=
  (x.reportText?).getD "null"

/-! ## The text without blanks -/

mutual

/-- The text without blanks. -/
def compact : Json → String
  | .null => "null"
  | .bool b => if b then "true" else "false"
  | .int n => toString n
  | .float x => floatText x
  | .string s => stringText s
  | .array items => "[" ++ compactItems "" items ++ "]"
  | .object members => "\x7b" ++ compactMembers "" members ++ "\x7d"
  | .broken => "null"

/-- The items of an array, each with `separator` in front, which is empty for
the first one. -/
def compactItems (separator : String) : List Json → String
  | [] => ""
  | j :: js => separator ++ compact j ++ compactItems "," js

/-- The members of an object, each with `separator` in front. -/
def compactMembers (separator : String) : List (String × Json) → String
  | [] => ""
  | (key, j) :: js =>
    separator ++ stringText key ++ ":" ++ compact j ++ compactMembers "," js

end

/-! ## The text in lines -/

/-- A line break and the blanks of a depth. -/
def lineStart (depth : Nat) : String :=
  "\n" ++ String.ofList (List.replicate (2 * depth) ' ')

mutual

/-- The text in lines, for a value at a depth. -/
def prettyAt (depth : Nat) : Json → String
  | .null => "null"
  | .bool b => if b then "true" else "false"
  | .int n => toString n
  | .float x => floatText x
  | .string s => stringText s
  | .array [] => "[]"
  | .array (j :: js) =>
    "[" ++ prettyItems (depth + 1) "" (j :: js) ++ lineStart depth ++ "]"
  | .object [] => "\x7b\x7d"
  | .object (m :: ms) =>
    "\x7b" ++ prettyMembers (depth + 1) "" (m :: ms) ++ lineStart depth
      ++ "\x7d"
  | .broken => "null"

/-- The lines of the items of an array at a depth. -/
def prettyItems (depth : Nat) (separator : String) : List Json → String
  | [] => ""
  | j :: js =>
    separator ++ lineStart depth ++ prettyAt depth j
      ++ prettyItems depth "," js

/-- The lines of the members of an object at a depth. -/
def prettyMembers (depth : Nat) (separator : String) :
    List (String × Json) → String
  | [] => ""
  | (key, j) :: js =>
    separator ++ lineStart depth ++ stringText key ++ ": " ++ prettyAt depth j
      ++ prettyMembers depth "," js

end

/-- The text in lines. -/
def pretty (j : Json) : String := prettyAt 0 j

end Json

end SettingsArchive
