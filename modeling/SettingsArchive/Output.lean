import SettingsArchive.CommandLine.Options
import SettingsArchive.Report

/-!
# Output

An invocation shows what it found or did in one of three forms: for people,
as JSON, or with no more than a script needs.  Every function here gives the
text that is printed, with the end of its last line.
-/

namespace SettingsArchive

/-! ## Values -/

namespace Value

mutual

/-- A value on one line. -/
def display : Value → String
  | .bool b => toString b
  | .int n => toString n.toInt
  | .float x => x.plainText
  | .string text => Text.quoted text
  | .bytes data => s!"<{data.length} bytes>"
  | .struct fields => "\x7b" ++ displayFields "" fields ++ "\x7d"

/-- The fields of a struct on one line, each with `separator` in front. -/
def displayFields (separator : String) : List (String × Value) → String
  | [] => ""
  | (name, v) :: fields =>
    separator ++ name ++ ": " ++ display v ++ displayFields ", " fields

end

end Value

/-! ## JSON with sorted keys -/

namespace Json

/-- Puts a member in front of the first one with a greater key. -/
def insertMember (member : String × Json) :
    List (String × Json) → List (String × Json)
  | [] => [member]
  | m :: members =>
    if member.1 ≤ m.1 then member :: m :: members
    else m :: insertMember member members

mutual

/-- The value with the members of every object in the order of their keys. -/
def sorted : Json → Json
  | .array items => .array (sortedItems items)
  | .object members => .object (sortedMembers members)
  | j => j

/-- The items of an array, each with its members sorted. -/
def sortedItems : List Json → List Json
  | [] => []
  | j :: js => sorted j :: sortedItems js

/-- The members of an object in the order of their keys. -/
def sortedMembers : List (String × Json) → List (String × Json)
  | [] => []
  | (key, j) :: members =>
    insertMember (key, sorted j) (sortedMembers members)

end

end Json

namespace Output

/-- A text with the end of its line. -/
def line (text : String) : String :=
  text ++ "\n"

/-- Some lines. -/
def lines (texts : List String) : String :=
  String.join (texts.map line)

/-- A JSON value in lines. -/
def json (j : Json) : String :=
  line j.pretty

/-! ## Locations -/

/-- The line of a location. -/
def locationLine (l : LocationSummary) : String :=
  let parent := match l.parent with
    | some parent => s!" (parent: {parent})"
    | none => ""
  let backends :=
    if l.backends.isEmpty then "-" else ", ".intercalate l.backends
  (if l.current then "* " else "  ") ++ l.id ++ parent
    ++ s!" | {l.entries} entries | backends: " ++ backends

/-- The list of all locations. -/
def locations (ls : List LocationSummary) : OutputForm → String
  | .human =>
    lines (ls.map locationLine) ++ s!"\n{ls.length} location(s)\n"
  | .json => json (.array (ls.map LocationSummary.toJson))
  | .quiet => lines (ls.map LocationSummary.id)

/-! ## Reports -/

/-- What storing a document did. -/
def stored (r : StoreReport) : OutputForm → String
  | .human =>
    match r.revision with
    | some id =>
      line (s!"✓ Stored {r.stored} entries for '{r.backend}' at "
        ++ s!"'{r.location}' (revision {id})")
    | none =>
      line (s!"✓ Document for '{r.backend}' was empty; "
        ++ s!"backend registered at '{r.location}'")
  | .json => json r.toJson
  | .quiet => lines (r.revision.toList.map toString)

/-- What a rollback did. -/
def rolledBack (r : RollbackReport) : OutputForm → String
  | .human =>
    let first := match r.revision with
      | some id =>
        s!"✓ Rolled back {r.applied.length} entries (revision {id})"
      | none => "Nothing to roll back."
    lines (first :: r.skipped.map ("  skipped " ++ ·))
  | .json => json r.toJson
  | .quiet => lines r.applied

/-- A success that has nothing to report but itself. -/
def success (message : String) : OutputForm → String
  | .human => line ("✓ " ++ message)
  | .json =>
    line (Json.compact (.object
      [("message", .string message), ("status", .string "success")]))
  | .quiet => ""

/-! ## Histories -/

/-- What a history notes about a revision. -/
def note (head : Nat) (r : Revision) : String :=
  if r.id = head then "  [current]"
  else if !r.superseded then "  [checkpoint]"
  else ""

/-- The line of a revision.  Its number is five characters wide at least. -/
def revisionLine (head : Nat) (r : Revision) : String :=
  let id := toString r.id
  "  " ++ String.ofList (List.replicate (5 - id.length) ' ') ++ id ++ "  "
    ++ r.time.shortDisplay ++ "  " ++ r.value.display ++ note head r

/-- The history of the setting at a path, which the location `scope` holds. -/
def history (path scope : String) (e : Entry) : OutputForm → String
  | .human =>
    line (s!"{path} (stored at '{scope}', " ++ e.kind.name ++ ")")
      ++ lines (e.revisions.map (revisionLine e.head.id))
      ++ s!"\n{e.revisions.length} revision(s)\n"
  | .json =>
    json (Json.sorted (.object
      [("path", .string path), ("location", .string scope),
        ("entry", e.toJson)]))
  | .quiet => line e.current.display

end Output

end SettingsArchive
