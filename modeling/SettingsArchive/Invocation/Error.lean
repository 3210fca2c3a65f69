import SettingsArchive.Configuration
import SettingsArchive.Output

/-!
# Errors of invocations

When an invocation fails it prints what failed, then what was behind it, and
for some errors of storage first what to do about it.  `InvocationError.chain`
holds the wordings, and `InvocationError.text` is what is printed.
-/

namespace SettingsArchive

/-- Why an invocation fails. -/
inductive InvocationError where
  | options (fault : OptionsFault)
  | configuration (fault : ConfigurationFault)
  | openArchive (path : String) (error : ArchiveError)
  | missingLocation (error : ArchiveError)
  | input
  | history (error : ArchiveError)
  | noEntry (path location : String)
  | refused (attempt : String) (error : ArchiveError)
  | saveArchive (error : StorageError)

namespace InvocationError

/-- The wordings of an error of storage and of what is behind it. -/
def storageChain (e : StorageError) : List String :=
  e.message :: e.cause?.toList.map FileError.message

/-- The wording of an error of the archive and of what is behind it. -/
def archiveChain : ArchiveError → List String
  | .storage e => storageChain e
  | e => [e.message]

/-- The wording of an error, and those of what is behind it. -/
def chain : InvocationError → List String
  | .options fault => fault.message :: fault.cause?.toList
  | .configuration fault =>
    "Failed to load configuration" :: fault.message :: fault.cause?.toList
  | .openArchive path e =>
    ("Failed to open archive " ++ Text.quoted path) :: archiveChain e
  | .missingLocation e => [e.message]
  | .input =>
    ["Failed to read document from standard input",
      "stream did not contain valid UTF-8"]
  | .history e => [e.message]
  | .noEntry path location => [s!"No entry at '{path}' in location '{location}'"]
  | .refused attempt e => [attempt, e.message]
  | .saveArchive e => "Failed to save archive" :: storageChain e

/-- What to do about an error. -/
def hint? : InvocationError → Option String
  | .openArchive _ (.storage e) => e.hint?
  | .saveArchive e => e.hint?
  | _ => none

/-- The exit code.  An archive without a further number for its writes breaks
off. -/
def exitCode : InvocationError → Nat
  | .refused _ .counterExhausted => 101
  | .openArchive _ .counterExhausted => 101
  | _ => 1

/-- A text whose further lines begin with some blanks. -/
def indented (blanks text : String) : String :=
  ("\n" ++ blanks).intercalate (text.splitOn "\n")

/-- The lines of what is behind an error, which are numbered if there are
several. -/
def causeLines : List String → List String
  | [cause] => ["    " ++ indented "    " cause]
  | causes => causes.mapIdx fun i cause =>
    let number := toString i
    String.ofList (List.replicate (5 - number.length) ' ') ++ number ++ ": "
      ++ indented "       " cause

/-- The text that is printed about an error. -/
def text (e : InvocationError) : String :=
  let hint := e.hint?.toList.map ("Hint: " ++ ·)
  let error := match e.chain with
    | [] => []
    | [message] => ["Error: " ++ message]
    | message :: causes =>
      ["Error: " ++ message, "", "Caused by:"] ++ causeLines causes
  Output.lines (hint ++ error)

end InvocationError

end SettingsArchive
