import SettingsArchive.Archive.Rollback

/-!
# The archive as a service

A front end for settings needs four things of a store: to read a value, to
write a value, to go back, and to list the locations.  `SettingsService`
names them without files, locks or documents, and an archive provides them.
A write is dated by the caller's clock and retires the revision before it.
-/

namespace SettingsArchive

/-- What a front end for settings needs of a store. -/
class SettingsService (σ : Type) where
  /-- The value that is seen at a path of a location. -/
  value : (store : σ) → (location path : String) →
    Except ArchiveError (Option Value)
  /-- Stores one value at an instant.  The answer is the number of the
  write. -/
  write : (store : σ) → (location path : String) → Value → (now : Instant) →
    Except ArchiveError Nat × σ
  /-- Writes earlier values again at an instant. -/
  goBack : (store : σ) → (location : String) → RollbackRequest →
    (now : Instant) → Except ArchiveError RollbackReport × σ
  /-- The overviews of all locations. -/
  locations : σ → List LocationSummary

instance : SettingsService Archive where
  value a location path := a.get location path
  write a location path value now :=
    match a.storeValue location path value now .retire with
    | .ok (revision, a) => (.ok revision, a)
    | .error e => (.error e, a)
  goBack a location request now := a.rollback location request now
  locations a := a.summaries

end SettingsArchive
