import SettingsArchive.Base64
import SettingsArchive.Binary64.Layout
import SettingsArchive.Numeral
import SettingsArchive.Text.Blank
import SettingsArchive.Value
import SettingsArchive.Xml.Element

/-!
# Values in documents

In a document a value is an element whose attribute `type` names its kind.
The text of the element is the value, and a struct has a child `field` with a
`name` for each field.

Blanks around a number and around bytes are passed over.  The text of a truth
value must be exact, and a text is kept as it is.
-/

namespace SettingsArchive

open Xml (Element)

/-- Why an element holds no value. -/
inductive ValueFault where
  | noType (element : String)
  | unknownType (name : String)
  | bool (text : String)
  | int (text : String)
  | float (text : String)
  | bytes (fault : Base64.Fault)
  | unnamedField
deriving DecidableEq, Repr

/-- The wording of a fault. -/
def ValueFault.message : ValueFault → String
  | .noType element => s!"<{element}> has no type"
  | .unknownType name => s!"unknown value type '{name}'"
  | .bool text => s!"invalid bool '{text}'"
  | .int text => s!"invalid int '{text}'"
  | .float text => s!"invalid float '{text}'"
  | .bytes fault => "invalid base64: " ++ fault.message
  | .unnamedField => "struct field without name"

namespace Value

/-- The text of a value that is not a struct. -/
def plainText : Value → String
  | .bool b => if b then "true" else "false"
  | .int n => toString n.toInt
  | .float x => x.plainText
  | .string text => text
  | .bytes data => String.ofList (Base64.encode data)
  | .struct _ => ""

/-- An element that holds a field of this name. -/
def fieldElement (name : String) : Element :=
  { name := "field", attributes := [("name", name)] }

mutual

/-- The element with the value written onto it. -/
def writeOnto (e : Element) : Value → Element
  | .struct fields =>
    writeFields (e.setAttribute "type" Kind.struct.name) fields
  | v => { e.setAttribute "type" v.kind.name with text := v.plainText }

/-- The element with the fields added as children. -/
def writeFields (e : Element) : List (String × Value) → Element
  | [] => e
  | (name, v) :: fields =>
    writeFields (e.push (writeOnto (fieldElement name) v)) fields

end

/-- Reads the text of a value that is not a struct. -/
def readText (text : String) : Kind → Except ValueFault Value
  | .bool =>
    if text = "true" then .ok (.bool true)
    else if text = "false" then .ok (.bool false)
    else .error (.bool text)
  | .int =>
    match Numeral.readInt64 (Text.trim text.toList) with
    | .ok n => .ok (.int n)
    | .error _ => .error (.int text)
  | .float =>
    match Binary64.read? (Text.trim text.toList) with
    | some x => .ok (.float x)
    | none => .error (.float text)
  | .string => .ok (.string text)
  | .bytes =>
    let symbols := (String.ofList (Text.trim text.toList)).toUTF8.toList
    match Base64.decode symbols with
    | .ok data => .ok (.bytes data)
    | .error fault => .error (.bytes fault)
  | .struct => .ok (.struct [])

/-- The kind that an element names. -/
def kindOf (e : Element) : Except ValueFault Kind :=
  match e.attribute? "type" with
  | none => .error (.noType e.name)
  | some name =>
    match Kind.ofName? name with
    | none => .error (.unknownType name)
    | some k => .ok k

mutual

/-- The value that an element holds. -/
def ofElement : Element → Except ValueFault Value
  | e@⟨_, _, children, text⟩ =>
    match kindOf e with
    | .error fault => .error fault
    | .ok .struct => .struct <$> readFields children
    | .ok k => readText text k

/-- The fields among some elements. -/
def readFields : List Element → Except ValueFault (List (String × Value))
  | [] => .ok []
  | e :: es =>
    if e.name = "field" then
      match e.attribute? "name" with
      | none => .error .unnamedField
      | some name => do
        let v ← ofElement e
        let fields ← readFields es
        return (name, v) :: fields
    else readFields es

end

end Value

end SettingsArchive
