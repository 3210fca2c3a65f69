import SettingsArchive.Archive.Rollback
import SettingsArchive.Value.Json

/-!
# Reports for programs

What the archive answers can be shown as JSON.  The members of an object
stand in the order in which they are defined here.
-/

namespace SettingsArchive

open Json (ofNat ofText? ofTexts)

/-- A number, or null. -/
def Json.ofNat? : Option Nat → Json
  | some n => .ofNat n
  | none => .null

/-- A revision as a report shows it. -/
def Revision.toJson (r : Revision) : Json :=
  .object
    [("id", ofNat r.id), ("timestamp", .string r.time.rfc3339),
      ("value", r.value.toJson), ("mask", .string r.mask.name),
      ("superseded", .bool r.superseded)]

/-- An entry as a report shows it. -/
def Entry.toJson (e : Entry) : Json :=
  .object
    [("name", .string e.name),
      ("revisions", .array (e.revisions.map Revision.toJson))]

/-- The overview of a location as a report shows it. -/
def LocationSummary.toJson (l : LocationSummary) : Json :=
  .object
    [("id", .string l.id), ("parent", ofText? l.parent),
      ("backends", ofTexts l.backends), ("entries", ofNat l.entries),
      ("current", .bool l.current)]

/-- What storing a document did. -/
def StoreReport.toJson (r : StoreReport) : Json :=
  .object
    [("location", .string r.location), ("backend", .string r.backend),
      ("revision_id", .ofNat? r.revision), ("stored", ofNat r.stored)]

/-- What a rollback did. -/
def RollbackReport.toJson (r : RollbackReport) : Json :=
  .object
    [("revision_id", .ofNat? r.revision), ("applied", ofTexts r.applied),
      ("skipped", ofTexts r.skipped)]

/-- A target: its kind, and what it holds. -/
def Target.toJson : Target → Json
  | .date time =>
    .object [("kind", .string "date"), ("value", .string time.rfc3339)]
  | .last => .object [("kind", .string "last")]
  | .steps count =>
    .object [("kind", .string "steps"), ("value", ofNat count)]
  | .revision id =>
    .object [("kind", .string "revision-id"), ("value", ofNat id)]

/-- What a rollback is asked for. -/
def RollbackRequest.toJson (r : RollbackRequest) : Json :=
  .object
    [("target", r.target.toJson), ("backend", ofText? r.backend),
      ("recursive", .bool r.recursive)]

end SettingsArchive
