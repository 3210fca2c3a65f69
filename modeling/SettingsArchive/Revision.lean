import SettingsArchive.Instant
import SettingsArchive.Value

/-!
# Revisions

A revision is what one write left in the history of a setting: the number of
the write, its instant, the value, and how it treated the revision before it.
A revision that a later write retired is superseded, and may be trimmed.
-/

namespace SettingsArchive

/-- How a write treats the revision that it follows: it retires it, or it
leaves it as a checkpoint. -/
inductive Mask where
  | retire
  | keep
deriving DecidableEq, Repr

namespace Mask

/-- The name of a mask in documents and reports. -/
def name : Mask → String
  | .retire => "previous"
  | .keep => "none"

/-- The mask of this name. -/
def ofName? : String → Option Mask
  | "previous" => some .retire
  | "none" => some .keep
  | _ => none

/-- A mask is found by its name. -/
theorem ofName?_name (m : Mask) : ofName? m.name = some m := by
  cases m <;> rfl

end Mask

/-- One revision of a setting. -/
structure Revision where
  id : Nat
  time : Instant
  value : Value
  mask : Mask
  superseded : Bool

instance : BEq Revision where
  beq r s :=
    r.id == s.id && r.time == s.time && r.value == s.value
      && r.mask == s.mask && r.superseded == s.superseded

end SettingsArchive
