import SettingsArchive.Numeral

/-!
# The command line

A command line is a sequence of words.  A switch stands for itself, and a
parameter takes a value, which may be joined to its name or be the next word.
Several one-letter names may share a word.  `CommandLine.read` takes the words
from the left, and the first fault, or the first question for the version or
for help, ends the reading.

No switch and no parameter may be given twice, and nothing may stand on its
own.
-/

namespace SettingsArchive

/-- An option without a value. -/
inductive Switch where
  | store
  | rollback
  | changeLocation
  | renameLocation
  | addLocation
  | removeLocation
  | addBackend
  | removeBackend
  | listLocations
  | all
  | last
  | preview
  | recursive
  | master
  | isGlobal
  | json
  | quiet
  | verbose
  | version
  | help
deriving DecidableEq, Repr

/-- An option with a value. -/
inductive Parameter where
  | history
  | date
  | revision
  | steps
  | newName
  | parent
  | location
  | backend
  | configuration
deriving DecidableEq, Repr

/-- Why the reading of a command line ends early. -/
inductive CommandLineStop where
  | version
  | help
  | misuse
deriving DecidableEq, Repr

/-- What a command line gives: switches, and parameters with their values. -/
structure CommandLine where
  switches : List Switch := []
  values : List (Parameter × String) := []
deriving DecidableEq, Repr

namespace CommandLine

/-! ## Names -/

/-- The long names. -/
def longNames : List (String × (Switch ⊕ Parameter)) :=
  [("store", .inl .store), ("rollback", .inl .rollback),
    ("change-location", .inl .changeLocation),
    ("rename-location", .inl .renameLocation),
    ("add-location", .inl .addLocation),
    ("remove-location", .inl .removeLocation),
    ("add-backend", .inl .addBackend),
    ("remove-backend", .inl .removeBackend),
    ("list-locations", .inl .listLocations), ("history", .inr .history),
    ("date", .inr .date), ("all", .inl .all),
    ("revision-id", .inr .revision), ("last", .inl .last),
    ("steps", .inr .steps), ("show", .inl .preview),
    ("recursive", .inl .recursive), ("new-name", .inr .newName),
    ("parent", .inr .parent), ("master", .inl .master),
    ("global", .inl .isGlobal), ("location", .inr .location),
    ("backend", .inr .backend), ("config", .inr .configuration),
    ("json", .inl .json), ("quiet", .inl .quiet), ("verbose", .inl .verbose),
    ("help", .inl .help), ("version", .inl .version)]

/-- The names of one letter. -/
def shortNames : List (Char × (Switch ⊕ Parameter)) :=
  [('s', .inl .store), ('r', .inl .rollback), ('c', .inl .changeLocation),
    ('d', .inr .date), ('a', .inl .all), ('i', .inr .revision),
    ('p', .inr .parent), ('m', .inl .master), ('g', .inl .isGlobal),
    ('l', .inr .location), ('b', .inr .backend), ('q', .inl .quiet),
    ('v', .inl .verbose), ('h', .inl .help), ('V', .inl .version)]

/-! ## What is given -/

/-- Whether a switch is given. -/
def has (c : CommandLine) (s : Switch) : Bool :=
  c.switches.contains s

/-- The value of a parameter. -/
def value? (c : CommandLine) (p : Parameter) : Option String :=
  c.values.lookup p

/-- The number that is the value of a parameter. -/
def number? (c : CommandLine) (p : Parameter) : Option Nat :=
  (c.value? p).bind fun text =>
    (Numeral.readNat 10 Numeral.maxWord text.toList).toOption

/-- The switches that each ask for an operation. -/
def operations : List Switch :=
  [.store, .rollback, .changeLocation, .renameLocation, .addLocation,
    .removeLocation, .addBackend, .removeBackend, .listLocations]

/-- How many operations are asked for. -/
def operationCount (c : CommandLine) : Nat :=
  operations.countP c.has + if (c.value? .history).isSome then 1 else 0

/-! ## Reading -/

/-- The command line with one switch more. -/
def turnOn (c : CommandLine) (s : Switch) :
    Except CommandLineStop CommandLine :=
  match s with
  | .version => .error .version
  | .help => .error .help
  | s =>
    if c.has s then .error .misuse
    else .ok { c with switches := c.switches ++ [s] }

/-- Whether a text can be the value of a parameter. -/
def isValueOf (p : Parameter) (text : String) : Bool :=
  match p with
  | .revision | .steps =>
    (Numeral.readNat 10 Numeral.maxWord text.toList).toBool
  | .configuration => text ≠ ""
  | _ => true

/-- The command line with one parameter more. -/
def set (c : CommandLine) (p : Parameter) (text : String) :
    Except CommandLineStop CommandLine :=
  if (c.value? p).isSome ∨ !isValueOf p text then .error .misuse
  else .ok { c with values := c.values ++ [(p, text)] }

/-- Reads names of one letter.  A parameter takes the rest of the word as its
value; behind the last letter it is left to the next word. -/
def readLetters (c : CommandLine) :
    List Char → Except CommandLineStop (CommandLine × Option Parameter)
  | [] => .ok (c, none)
  | letter :: rest =>
    match shortNames.lookup letter with
    | none => .error .misuse
    | some (.inl s) => do
      let c ← c.turnOn s
      c.readLetters rest
    | some (.inr p) =>
      match rest with
      | [] => .ok (c, some p)
      | '=' :: rest => (·, none) <$> c.set p (String.ofList rest)
      | rest => (·, none) <$> c.set p (String.ofList rest)

/-- Reads a long name, behind which a value may be joined. -/
def readLong (c : CommandLine) (word : List Char) :
    Except CommandLineStop (CommandLine × Option Parameter) :=
  let (name, rest) := word.span (· ≠ '=')
  match longNames.lookup (String.ofList name), rest with
  | some (.inl s), [] => (·, none) <$> c.turnOn s
  | some (.inr p), [] => .ok (c, some p)
  | some (.inr p), _ :: text => (·, none) <$> c.set p (String.ofList text)
  | _, _ => .error .misuse

/-- Reads a word with names.  The answer tells the parameter whose value is the
next word. -/
def readWord (c : CommandLine) (word : String) :
    Except CommandLineStop (CommandLine × Option Parameter) :=
  match word.toList with
  | '-' :: '-' :: name => c.readLong name
  | '-' :: letter :: letters => c.readLetters (letter :: letters)
  | _ => .error .misuse

/-- Whether a word of its own can be a value.  A word that looks like names is
none. -/
def isFreeValue (word : String) : Bool :=
  word = "-" || !word.startsWith "-"

/-- Reads words behind those already read.  Two hyphens end the names, so that
nothing may follow. -/
def readFrom (c : CommandLine) :
    List String → Except CommandLineStop CommandLine
  | [] => .ok c
  | word :: rest =>
    if word = "--" then
      if rest.isEmpty then .ok c else .error .misuse
    else
      match c.readWord word, rest with
      | .error stop, _ => .error stop
      | .ok (c, none), rest => c.readFrom rest
      | .ok (_, some _), [] => .error .misuse
      | .ok (c, some p), value :: rest =>
        if isFreeValue value then
          match c.set p value with
          | .ok c => c.readFrom rest
          | .error stop => .error stop
        else .error .misuse

/-- Reads a command line, which must ask for one operation. -/
def read (words : List String) : Except CommandLineStop CommandLine := do
  let c ← readFrom {} words
  if c.operationCount = 1 then return c else throw .misuse

end CommandLine

end SettingsArchive
