import SettingsArchive.Binary64

/-!
# TOML

The settings file is TOML: a table whose members are scalars, arrays and
tables again.  A table may be written in several places, and how it came
about decides whether it may be added to, which `Toml.insertAt` checks.

* A table between braces is complete.
* A table with a header may get tables inside it later, but no second header.
* A table that is only named on the way to another one may still get a header.
* A table that a dotted key names may get members through dotted keys.
-/

namespace SettingsArchive

/-- How a table came about. -/
inductive TableOrigin where
  | braces
  | header
  | implied
  | dotted
deriving DecidableEq, Repr

/-- A TOML value.  `tables` is an array of tables with headers, the last one
of which is kept apart from those before it.  Of a date or a time only the
form is checked. -/
inductive Toml where
  | string (text : String)
  | integer (n : Int)
  | float (x : Binary64)
  | bool (b : Bool)
  | moment
  | array (items : List Toml)
  | table (origin : TableOrigin) (members : List (String × Toml))
  | tables (before : List (List (String × Toml)))
      (last : List (String × Toml))

namespace Toml

/-- The members of a table. -/
abbrev Members := List (String × Toml)

/-- The members with another value at a key, behind all others if the key is
new. -/
def put (key : String) (value : Toml) : Members → Members
  | [] => [(key, value)]
  | (k, v) :: members =>
    if k = key then (key, value) :: members
    else (k, v) :: put key value members

/-- Changes the members of the table at a path below a table.  Tables on the
path that are not there are made, and they are of the origin `made`.  Of an
array of tables the last one is meant.  `change` gets the origin of the table
and its members. -/
def changeAt (made : TableOrigin)
    (change : TableOrigin → Members → Option Members) :
    TableOrigin → List String → Members → Option Members
  | origin, [], members => change origin members
  | _, key :: path, members =>
    match members.lookup key with
    | none => do
      let inner ← changeAt made change made path []
      return put key (.table made inner) members
    | some (.table origin inner) =>
      if origin = .braces ∨ (origin = .header ∧ made = .dotted) then none
      else do
        let inner ← changeAt made change origin path inner
        return put key (.table origin inner) members
    | some (.tables before last) => do
      let last ← changeAt made change .header path last
      return put key (.tables before last) members
    | some _ => none

/-- Adds a member that is not there yet. -/
def addMember (key : String) (value : Toml) (members : Members) :
    Option Members :=
  match members.lookup key with
  | none => some (put key value members)
  | some _ => none

/-- Adds the member of a dotted key to a table.  A key with a dot needs a table
that dotted keys have made. -/
def insertAt (path : List String) (key : String) (value : Toml)
    (members : Members) : Option Members :=
  changeAt .dotted (fun origin inner =>
    if origin = .dotted ↔ path ≠ [] then addMember key value inner else none)
    .header path members

/-- Begins the table of a header. -/
def beginTable (key : String) (members : Members) : Option Members :=
  match members.lookup key with
  | none => some (put key (.table .header []) members)
  | some (.table .implied inner) =>
    some (put key (.table .header inner) members)
  | some _ => none

/-- Begins the next table of an array of tables. -/
def beginNextTable (key : String) (members : Members) : Option Members :=
  match members.lookup key with
  | none => some (put key (.tables [] []) members)
  | some (.tables before last) =>
    some (put key (.tables (before ++ [last]) []) members)
  | some _ => none

/-- The table of some dotted keys between braces. -/
def ofBraces (items : List (List String × String × Toml)) : Option Toml := do
  let members ← items.foldlM (fun members (path, key, value) =>
    insertAt path key value members) []
  return .table .braces members

end Toml

end SettingsArchive
