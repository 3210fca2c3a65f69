import SettingsArchive.Binary64

/-!
# Values of settings

A setting holds a truth value, a whole number, a number, text, bytes or a
struct of named values in order.  The kind of a setting never changes, so a
kind has its own type.

Two values are compared by `==`, which compares numbers as numbers: a struct
that holds a NaN differs from itself.
-/

namespace SettingsArchive

/-- What kind of value a setting holds. -/
inductive Kind where
  | bool
  | int
  | float
  | string
  | bytes
  | struct
deriving DecidableEq, Repr

/-- The name of a kind in documents, reports and messages. -/
def Kind.name : Kind → String
  | .bool => "bool"
  | .int => "int"
  | .float => "float"
  | .string => "string"
  | .bytes => "bytes"
  | .struct => "struct"

/-- The kind of this name. -/
def Kind.ofName? : String → Option Kind
  | "bool" => some .bool
  | "int" => some .int
  | "float" => some .float
  | "string" => some .string
  | "bytes" => some .bytes
  | "struct" => some .struct
  | _ => none

/-- The kinds in order. -/
def Kind.all : List Kind :=
  [.bool, .int, .float, .string, .bytes, .struct]

/-- A kind is found by its name. -/
theorem Kind.ofName?_name (k : Kind) : Kind.ofName? k.name = some k := by
  cases k <;> rfl

/-- The value of a setting.  The names in a struct may repeat. -/
inductive Value where
  | bool (b : Bool)
  | int (n : Int64)
  | float (x : Binary64)
  | string (text : String)
  | bytes (data : List UInt8)
  | struct (fields : List (String × Value))

namespace Value

instance : Inhabited Value := ⟨.bool false⟩

/-- The kind of a value. -/
def kind : Value → Kind
  | .bool _ => .bool
  | .int _ => .int
  | .float _ => .float
  | .string _ => .string
  | .bytes _ => .bytes
  | .struct _ => .struct

mutual

/-- Whether two values are equal. -/
def same : Value → Value → Bool
  | .bool a, .bool b => a == b
  | .int a, .int b => a == b
  | .float a, .float b => a == b
  | .string a, .string b => a == b
  | .bytes a, .bytes b => a == b
  | .struct as, .struct bs => sameFields as bs
  | _, _ => false

/-- Whether two lists of fields are equal. -/
def sameFields : List (String × Value) → List (String × Value) → Bool
  | [], [] => true
  | (m, a) :: as, (n, b) :: bs => m == n && same a b && sameFields as bs
  | _, _ => false

end

instance : BEq Value := ⟨same⟩

/-- Equal values are of one kind. -/
theorem kind_eq_of_same {a b : Value} (h : a == b) : a.kind = b.kind := by
  have h : same a b = true := h
  cases a <;> cases b <;> first | rfl | simp [same] at h

end Value

end SettingsArchive
