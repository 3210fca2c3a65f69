import SettingsArchive.Xml.Element
import SettingsArchive.Xml.Escape

/-!
# Writing XML text

An element is written on a line of its own, indented by two blanks for each
element around it.  The text of an element without children stands directly
between its tags, and an element with neither children nor text is a single
tag.  Children win over text.

Names and keys are written as they are.
-/

namespace SettingsArchive.Xml

/-- The first line of a document. -/
def declaration : List Char :=
  "<?xml version=\"1.0\" encoding=\"UTF-8\"?>".toList

/-- An attribute with the blank in front of it. -/
def attributeChars (pair : String × String) : List Char :=
  ' ' :: pair.1.toList ++ '=' :: '"' :: escape pair.2.toList ++ ['"']

namespace Element

/-- The name and the attributes, as a tag holds them. -/
def tagChars (e : Element) : List Char :=
  e.name.toList ++ e.attributes.flatMap attributeChars

/-- The beginning of a line at a depth. -/
def newLine (depth : Nat) : List Char :=
  '\n' :: List.replicate (2 * depth) ' '

mutual

/-- The lines of an element at a depth, each with its line break in front. -/
def chars (depth : Nat) : Element → List Char
  | e@⟨name, _, children, text⟩ =>
    let tag := '<' :: e.tagChars
    let close := '<' :: '/' :: name.toList ++ ['>']
    match children with
    | [] =>
      if text = "" then newLine depth ++ tag ++ ['/', '>']
      else newLine depth ++ tag ++ '>' :: escape text.toList ++ close
    | child :: children =>
      newLine depth ++ tag ++ '>' :: chars (depth + 1) child
        ++ charsOfAll (depth + 1) children ++ newLine depth ++ close

/-- The lines of some elements at a depth. -/
def charsOfAll (depth : Nat) : List Element → List Char
  | [] => []
  | e :: es => chars depth e ++ charsOfAll depth es

end

/-- The text of a document with this root. -/
def document (e : Element) : String :=
  String.ofList (declaration ++ chars 0 e ++ ['\n'])

end Element

end SettingsArchive.Xml
