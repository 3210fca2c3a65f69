import SettingsArchive.Xml.Attributes

/-!
# Reading XML text

A text is read piece by piece.  `Outline` holds the elements that stand open
and the root once it is closed, and `Outline.add` adds a piece.  Text, plain
sections and comments outside the root are passed over, whatever stands in
them.

Only an element without children keeps its text: between children, text is
layout.
-/

namespace SettingsArchive.Xml

/-- What can be wrong with a piece of a text. -/
inductive PieceFault where
  | markup (fault : MarkupFault)
  | inTag (fault : AttributeFault)
  | escape (fault : EscapeFault)
  | mismatch (expected found : String)
  | unmatched (found : String)
  | secondRoot (name : String)
deriving DecidableEq, Repr

/-- The wording of a fault. -/
def PieceFault.message : PieceFault → String
  | .markup fault => fault.message
  | .inTag fault => fault.message
  | .escape fault => fault.message
  | .mismatch expected found =>
    s!"ill-formed document: expected `</{expected}>`, but "
      ++ s!"`</{found}>` was found"
  | .unmatched found =>
    s!"ill-formed document: close tag `</{found}>` does not match any open tag"
  | .secondRoot name => s!"second root element <{name}>"

/-- Why a text is not the text of an element. -/
inductive ReadError where
  | malformed (position : Nat) (fault : PieceFault)
  | noRoot
  | unclosed (name : String)
deriving DecidableEq, Repr

/-- The message about a fault at a position. -/
def malformedMessage (position : Nat) (details : String) : String :=
  s!"Malformed XML at byte {position}: {details}"

/-- The wording of an error. -/
def ReadError.message : ReadError → String
  | .malformed position fault => malformedMessage position fault.message
  | .noRoot => "Document has no root element"
  | .unclosed name => s!"Unexpected end of document inside <{name}>"

/-- The elements that stand open, innermost first, and the root once it is
closed. -/
structure Outline where
  standing : List Element := []
  root : Option Element := none

namespace Outline

/-- Adds text to the innermost element. -/
def write (o : Outline) (text : List Char) : Outline :=
  match o.standing with
  | [] => o
  | e :: es =>
    { o with standing := { e with text := e.text ++ String.ofList text } :: es }

/-- Adds a closed element: to the innermost element, or as the root. -/
def attach (o : Outline) (e : Element) : Except PieceFault Outline :=
  match o.standing, o.root with
  | parent :: es, _ => .ok { o with standing := parent.push e :: es }
  | [], none => .ok { o with root := some e }
  | [], some _ => .error (.secondRoot e.name)

/-- An element as its end tag leaves it. -/
def closed (e : Element) : Element :=
  if e.children.isEmpty then e else { e with text := "" }

/-- The name in an end tag.  Spaces behind it are cut off, unless there is
nothing else. -/
def closingName (content : List Char) : String :=
  if content.all isSpace then String.ofList content
  else String.ofList (content.reverse.dropWhile isSpace).reverse

/-- Adds a piece. -/
def add (o : Outline) : Markup → Except PieceFault Outline
  | .text characters =>
    match o.standing with
    | [] => .ok o
    | _ => o.write <$> (unescape characters).mapError .escape
  | .plain characters => .ok (o.write characters)
  | .opening content => do
    let e ← (Element.ofTag content).mapError .inTag
    return { o with standing := e :: o.standing }
  | .single content => do
    let e ← (Element.ofTag content).mapError .inTag
    o.attach e
  | .closing content =>
    let found := closingName content
    match o.standing with
    | [] => .error (.unmatched found)
    | e :: es =>
      if e.name = found then { o with standing := es }.attach (closed e)
      else .error (.mismatch e.name found)
  | .ignored => .ok o

/-- The root at the end of the text. -/
def finish (o : Outline) : Except ReadError Element :=
  match o.standing, o.root with
  | e :: _, _ => .error (.unclosed e.name)
  | [], some root => .ok root
  | [], none => .error .noRoot

end Outline

/-- The position that is reported for a fault.  A second root is reported
without its place. -/
def PieceFault.reported (position : Nat) : PieceFault → Nat
  | .secondRoot _ => 0
  | _ => position

/-- Adds the pieces of the characters that are left of a text of `size`
bytes. -/
def readPieces (size : Nat) (o : Outline) (cs : List Char) :
    Except ReadError Element :=
  if _ : cs = [] then o.finish
  else
    let position := size - byteCount cs
    match _ : Markup.next cs with
    | .error fault => .error (.malformed position (.markup fault))
    | .ok (m, rest) =>
      match o.add m with
      | .error fault => .error (.malformed (fault.reported position) fault)
      | .ok o' => readPieces size o' rest
termination_by cs.length
decreasing_by exact Markup.length_lt_of_next ‹_› ‹_›

/-- The root element of the text.  A byte order mark in front is passed
over and not counted. -/
def Element.read (text : String) : Except ReadError Element :=
  let cs := match text.toList with
    | '\uFEFF' :: cs => cs
    | cs => cs
  readPieces (byteCount cs) {} cs

end SettingsArchive.Xml
