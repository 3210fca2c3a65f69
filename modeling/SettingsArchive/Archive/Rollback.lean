import SettingsArchive.Archive.Read
import SettingsArchive.Archive.Store
import SettingsArchive.Target

/-!
# Rolling back

A rollback writes earlier values again, as new revisions of the location it
is asked for.  `plan` says for every path what would happen: its value comes
back, or it is skipped for a reason.  `preview` shows the plan as a snapshot,
and `rollback` carries it out.
-/

namespace SettingsArchive

/-- What a rollback is asked for: a target, for one backend or for all, and
with or without the locations above. -/
structure RollbackRequest where
  target : Target
  backend : Option String := none
  recursive : Bool := false
deriving DecidableEq

/-- What a rollback did. -/
structure RollbackReport where
  revision : Option Nat
  applied : List String
  skipped : List String
deriving DecidableEq, Repr

/-- What a rollback would do: the values that come back, and the settings
that stay with their current values. -/
structure RollbackPlan where
  resolved : List (Path × Value) := []
  skipped : List (Path × Value) := []

namespace Archive

/-- The revision that a path goes back to.  Its value must be of the kind
that the location itself holds there. -/
def resolveAt (target : Target) (own : Option Entry) (chain : List Entry)
    (path : Path) : Except ArchiveError Revision :=
  match target.resolveChain chain with
  | none => .error (.unresolved path.text)
  | some r =>
    match own with
    | some e =>
      if e.kind ≠ r.value.kind then
        .error (.typeMismatch path.text e.kind r.value.kind)
      else .ok r
    | none => .ok r

/-- Adds a path to a plan. -/
def planPath (policy : Policy) (target : Target) (scopes : List Location)
    (plan : RollbackPlan) (path : Path) : Except ArchiveError RollbackPlan :=
  let chain := entriesAt scopes path
  let own := scopes.head?.bind (·.tree.get? path)
  match resolveAt target own chain path with
  | .ok r => .ok { plan with resolved := plan.resolved ++ [(path, r.value)] }
  | .error reason =>
    match policy, chain with
    | .strict, _ => .error reason
    | .bestEffort, [] => .ok plan
    | .bestEffort, e :: _ =>
      .ok { plan with skipped := plan.skipped ++ [(path, e.current)] }

/-- The plan of a rollback. -/
def plan (a : Archive) (id : String) (request : RollbackRequest) :
    Except ArchiveError RollbackPlan := do
  match request.backend with
  | some backend => Location.checkBackend backend
  | none => pure ()
  let scopes ← a.scopes id request.recursive
  (pathsIn scopes request.backend).foldlM
    (planPath a.policy request.target scopes) {}

/-- The snapshot of what a rollback would leave behind. -/
def preview (a : Archive) (id : String) (request : RollbackRequest) :
    Except ArchiveError Xml.Element := do
  let plan ← a.plan id request
  let items := (plan.resolved ++ plan.skipped).map fun (path, value) =>
    (Path.text path, value)
  return Snapshot.toElement request.backend items

/-- Writes the values of a plan under one number, up to the first one that is
refused.  The backends of the paths are registered. -/
def applyAll (l : Location) (time : Instant) (revision : Nat) :
    List (Path × Value) → Except ArchiveError Unit × Location
  | [] => (.ok (), l)
  | (path, value) :: items =>
    match l.tree.store path.text value time revision .retire with
    | .error e => (.error e, l)
    | .ok tree =>
      let l := { l with tree }
      match Path.backendOf path.text with
      | .error e => (.error e, l)
      | .ok backend => applyAll (l.ensureBackend backend) time revision items

/-- The plan, the location and the number for a rollback that may be carried
out.  A plan without values takes no number. -/
def prepareRollback (a : Archive) (id : String) (request : RollbackRequest)
    (now : Instant) :
    Except ArchiveError (RollbackPlan × Location × Option Nat × Archive) := do
  let plan ← a.plan id request
  let l ← a.location id
  plan.resolved.forM fun (path, value) =>
    l.tree.checkWrite path.text value now
  if plan.resolved.isEmpty then return (plan, l, none, a)
  let (revision, a) ← a.allocate
  return (plan, l, some revision, a)

/-- Writes earlier values again.  When a path has no backend the rollback
ends there, and the values before it stay written. -/
def rollback (a : Archive) (id : String) (request : RollbackRequest)
    (now : Instant) : Except ArchiveError RollbackReport × Archive :=
  match a.prepareRollback id request now with
  | .error e => (.error e, a)
  | .ok (plan, l, revision, a) =>
    let report : RollbackReport :=
      ⟨revision, plan.resolved.map (·.1.text), plan.skipped.map (·.1.text)⟩
    match revision with
    | none => (.ok report, a)
    | some id =>
      match applyAll l now id plan.resolved with
      | (.error e, l) => (.error e, a.put l)
      | (.ok (), l) => (.ok report, (a.put l).changed)

end Archive

end SettingsArchive
