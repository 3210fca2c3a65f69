import SettingsArchive.Toml.Scalar
import SettingsArchive.Toml.Text

/-!
# Reading TOML

A document is read line by line.  A line holds a header, a key with its
value, or neither, and its value may reach over several lines.  `Page` is
what the lines so far have made: the members of the whole table, and the
table that the last header began.

Arrays and tables between braces may be nested up to a depth, and keys may
have as many parts as that.
-/

namespace SettingsArchive.Toml

/-- How many arrays and tables may be nested in one value, and how many parts
a key may have. -/
def maxDepth : Nat := 79

/-! ## Blanks and ends of lines -/

/-- What stands behind the rest of a line that holds nothing but blanks and
perhaps a comment. -/
def afterLine? (cs : List Char) : Option (List Char) :=
  let atEnd (cs : List Char) : Option (List Char) :=
    if cs.isEmpty then some [] else afterBreak? cs
  match cs.dropWhile isGap with
  | '#' :: cs => atEnd (cs.dropWhile isPlain)
  | cs => atEnd cs

/-- The characters without the blanks, comments and line breaks in front, at
most `limit` lines of them. -/
def skipLines : Nat → List Char → List Char
  | 0, cs => cs
  | limit + 1, cs =>
    match cs.dropWhile isGap with
    | [] => []
    | c :: cs =>
      if c = '#' ∨ c = '\n' ∨ c = '\r' then
        match afterLine? (c :: cs) with
        | some cs => skipLines limit cs
        | none => c :: cs
      else c :: cs

/-- The characters without the blanks, comments and line breaks in front. -/
def skip (cs : List Char) : List Char :=
  skipLines cs.length cs

/-! ## Keys -/

/-- Whether a character may stand in a key without marks. -/
def isKeyChar (c : Char) : Bool :=
  c.isAlphanum || c == '-' || c == '_'

/-- Reads one part of a key. -/
def readPart? (cs : List Char) : Option (String × List Char) :=
  match readShortString? cs with
  | some (text, cs) => some (String.ofList text, cs)
  | none =>
    let (part, cs) := cs.span isKeyChar
    if part.isEmpty then none else some (String.ofList part, cs)

/-- Reads a key, in which dots divide the parts, with the blanks around it.
The last part is kept apart. -/
def readKey? : Nat → List Char → Option ((List String × String) × List Char)
  | 0, _ => none
  | limit + 1, cs => do
    let (part, cs) ← readPart? (cs.dropWhile isGap)
    match cs.dropWhile isGap with
    | '.' :: cs =>
      let ((path, key), cs) ← readKey? limit cs
      return ((part :: path, key), cs)
    | cs => return (([], part), cs)

/-! ## Values -/

/-- Reads the items of an array and its closing bracket. -/
def readItems? (read : List Char → Option (Toml × List Char)) :
    Nat → List Char → Option (List Toml × List Char)
  | 0, _ => none
  | limit + 1, cs =>
    match skip cs with
    | ']' :: cs => some ([], cs)
    | cs => do
      let (item, cs) ← read cs
      match skip cs with
      | ',' :: cs =>
        let (items, cs) ← readItems? read limit cs
        return (item :: items, cs)
      | ']' :: cs => return ([item], cs)
      | _ => none

/-- Reads the members between braces and the closing brace.  There is no comma
behind the last one. -/
def readBraces? (read : List Char → Option (Toml × List Char)) :
    Nat → List Char →
      Option (List (List String × String × Toml) × List Char)
  | 0, _ => none
  | limit + 1, cs => do
    let ((path, key), cs) ← readKey? maxDepth cs
    match cs with
    | '=' :: cs =>
      let (value, cs) ← read (cs.dropWhile isGap)
      match cs.dropWhile isGap with
      | ',' :: cs =>
        let (items, cs) ← readBraces? read limit cs
        return ((path, key, value) :: items, cs)
      | '\x7d' :: cs => return ([(path, key, value)], cs)
      | _ => none
    | _ => none

/-- Reads a value in which arrays and tables may be nested so deep. -/
def readValue? (depth : Nat) (cs : List Char) : Option (Toml × List Char) :=
  match depth, cs with
  | _, '"' :: _ => readText cs
  | _, '\'' :: _ => readText cs
  | depth + 1, '[' :: cs => do
    let (items, cs) ← readItems? (readValue? depth) (cs.length + 1) cs
    return (.array items, cs)
  | depth + 1, '\x7b' :: cs =>
    match cs.dropWhile isGap with
    | '\x7d' :: cs => some (.table .braces [], cs)
    | cs => do
      let (items, cs) ← readBraces? (readValue? depth) (cs.length + 1) cs
      let value ← ofBraces items
      return (value, cs)
  | _, cs => readWord? cs
where
  /-- Reads a string value. -/
  readText (cs : List Char) : Option (Toml × List Char) := do
    let (text, cs) ← readString? cs
    return (.string (String.ofList text), cs)

/-! ## Lines -/

/-- What some lines have made: all members, and the path of the table that the
last header began. -/
structure Page where
  members : Members := []
  current : List String := []

namespace Page

/-- The page with one member more in its current table. -/
def add (p : Page) (path : List String) (key : String) (value : Toml) :
    Option Page := do
  let members ← changeAt .implied (fun _ inner => insertAt path key value inner)
    .header p.current p.members
  return { p with members }

/-- The page with another current table, which `beginAt` begins. -/
def turn (p : Page) (beginAt : String → Members → Option Members)
    (path : List String) (key : String) : Option Page := do
  let members ← changeAt .implied (fun _ inner => beginAt key inner)
    .header path p.members
  return ⟨members, path ++ [key]⟩

/-- Reads one line, which does not begin with a blank. -/
def readLine? (p : Page) (cs : List Char) : Option (Page × List Char) :=
  match cs with
  | '[' :: '[' :: cs => do
    let ((path, key), cs) ← readKey? maxDepth cs
    match cs with
    | ']' :: ']' :: cs =>
      let cs ← afterLine? cs
      let p ← p.turn beginNextTable path key
      return (p, cs)
    | _ => none
  | '[' :: cs => do
    let ((path, key), cs) ← readKey? maxDepth cs
    match cs with
    | ']' :: cs =>
      let cs ← afterLine? cs
      let p ← p.turn beginTable path key
      return (p, cs)
    | _ => none
  | cs => do
    let ((path, key), cs) ← readKey? maxDepth cs
    match cs with
    | '=' :: cs =>
      let (value, cs) ← readValue? maxDepth (cs.dropWhile isGap)
      let cs ← afterLine? cs
      let p ← p.add path key value
      return (p, cs)
    | _ => none

/-- Reads lines, at most `limit` of them. -/
def readLines? : Nat → Page → List Char → Option Page
  | limit, p, cs =>
    match skip cs with
    | [] => some p
    | cs =>
      match limit with
      | 0 => none
      | limit + 1 => do
        let (p, cs) ← p.readLine? cs
        readLines? limit p cs

end Page

/-- The members of the table that a text holds.  A byte order mark in front
does not count. -/
def read? (text : String) : Option Members := do
  let cs := match text.toList with
    | '\uFEFF' :: cs => cs
    | cs => cs
  let p ← Page.readLines? cs.length {} cs
  return p.members

end SettingsArchive.Toml
