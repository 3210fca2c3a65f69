/-!
# Rollback policies

A rollback of many settings may find some of them without a value to go back
to.  The policy says whether the others are rolled back all the same.
-/

namespace SettingsArchive

/-- What a rollback does about settings that it cannot roll back: it skips
them, or it is refused. -/
inductive Policy where
  | bestEffort
  | strict
deriving DecidableEq, Repr

namespace Policy

/-- The name of a policy. -/
def name : Policy → String
  | .bestEffort => "best-effort"
  | .strict => "strict"

/-- The policy of this name. -/
def ofName? : String → Option Policy
  | "best-effort" => some .bestEffort
  | "strict" => some .strict
  | _ => none

/-- The message about a name that no policy has. -/
def unknownMessage (name : String) : String :=
  s!"Invalid rollback policy '{name}'. Use 'best-effort' or 'strict'."

end Policy

end SettingsArchive
