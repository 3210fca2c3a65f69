import SettingsArchive.Binary64
import SettingsArchive.LogFilter.Pattern
import SettingsArchive.Text.Blank

/-!
# Log filters

A log filter says which messages are logged.  It is a list of directives with
commas between them.  A directive names where messages come from, then in
brackets the span that they belong to, in braces within the brackets a field
of that span, perhaps with a value, and behind `=` the level down to which
they are logged.  All parts may be missing, though not all of them at once.

The archive has no messages of its own.  What matters here is which
directives cannot be read: they are left out, and `LogFilter.complaints` says
so.
-/

namespace SettingsArchive

/-- The directives of a filter, each as it is written. -/
abbrev LogFilter := List String

/-- Why a directive cannot be read. -/
inductive DirectiveFault where
  | malformed
  | pattern
  | wordEdge
  | level
deriving DecidableEq, Repr

/-- The wording of a fault. -/
def DirectiveFault.message : DirectiveFault → String
  | .malformed => "invalid filter directive"
  | .pattern => "invalid field filter: error building NFA"
  | .wordEdge =>
    "invalid field filter: unsupported regex feature for DFAs: cannot build "
      ++ "DFAs for regexes with Unicode word boundaries; switch to ASCII word "
      ++ "boundaries, or heuristically enable Unicode word boundaries or use "
      ++ "a different regex engine"
  | .level =>
    "error parsing level filter: expected one of \"off\", \"error\", "
      ++ "\"warn\", \"info\", \"debug\", \"trace\", or a number 0-5"

namespace LogFilter

/-! ## Directives -/

/-- Whether the name of where messages come from may begin with a
character. -/
def canStart (c : Char) : Bool :=
  Text.isAlphanumeric c || c == '-' || c == ':' || c == '_'

/-- The level behind closed brackets, if there is one. -/
def levelBehind : List Char → Except DirectiveFault (Option (List Char))
  | [] => .ok none
  | '=' :: level => .ok (some level)
  | _ => .error .malformed

/-- What is wrong with a field.  Behind its name it may have a value, which is
a number or a pattern. -/
def fieldFault? (field : List Char) : Option DirectiveFault :=
  match field.dropWhile (· ≠ '=') with
  | [] => none
  | _ :: rest =>
    let value := rest.takeWhile (· ≠ '=')
    if (Binary64.read? value).isSome then none
    else if !Pattern.isValid value then some .pattern
    else if Pattern.hasWordEdge value then some .wordEdge
    else none

/-- The level behind a field, whose brace is open. -/
def levelBehindField (cs : List Char) :
    Except DirectiveFault (Option (List Char)) :=
  let (field, rest) := cs.span (· ≠ '}')
  match rest with
  | '}' :: rest =>
    if field.isEmpty then .error .malformed
    else
      match fieldFault? field, rest with
      | some fault, _ => .error fault
      | none, ']' :: rest => levelBehind rest
      | none, _ => .error .malformed
  | _ => .error .malformed

/-- The level behind a span, whose bracket is open. -/
def levelBehindSpan (cs : List Char) :
    Except DirectiveFault (Option (List Char)) :=
  match cs.dropWhile fun c => c ≠ ']' ∧ c ≠ '{' with
  | ']' :: rest => levelBehind rest
  | '{' :: rest => levelBehindField rest
  | _ => .error .malformed

/-- The level of a directive, if it has one.  There are no blanks around the
directive. -/
def levelOf : List Char → Except DirectiveFault (Option (List Char))
  | [] => .error .malformed
  | '[' :: cs => levelBehindSpan cs
  | c :: cs =>
    if !canStart c then .error .malformed
    else
      match cs.dropWhile fun c => c ≠ '=' ∧ c ≠ '[' with
      | '=' :: level => .ok (some level)
      | '[' :: rest => levelBehindSpan rest
      | _ => .ok none

/-- The names of the levels. -/
def levelNames : List String :=
  ["off", "error", "warn", "info", "debug", "trace"]

/-- Whether some characters are a level: a name in any case, or the number of
a name.  No characters at all are the last level. -/
def isLevel (cs : List Char) : Bool :=
  match Numeral.readNat 10 Numeral.maxWord cs with
  | .ok n => n < levelNames.length
  | .error _ =>
    cs.isEmpty || levelNames.contains (String.ofList (cs.map Char.toLower))

/-- What is wrong with a directive.  There may be blanks around it, but not
if it has a level. -/
def fault? (directive : String) : Option DirectiveFault :=
  let cs := directive.toList
  let trimmed := Text.trim cs
  match levelOf trimmed with
  | .error fault => some fault
  | .ok none => none
  | .ok (some level) =>
    if trimmed = cs && isLevel level then none else some .level

/-! ## Filters -/

/-- The directives of a text. -/
def ofText (text : String) : LogFilter :=
  (text.splitOn ",").filter (· ≠ "")

/-- The filter that logs what comes from the archive and from its command
line, down to a level. -/
def ofLevel (level : String) : LogFilter :=
  ofText ("archiver_core=" ++ level ++ ",archiver_cli=" ++ level)

/-- What is said about the directives that are left out, a line for each. -/
def complaints (filter : LogFilter) : List String :=
  filter.filterMap fun directive =>
    (fault? directive).map fun fault =>
      "ignoring `" ++ directive ++ "`: " ++ fault.message

end LogFilter

end SettingsArchive
