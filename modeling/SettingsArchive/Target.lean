import SettingsArchive.Error
import SettingsArchive.Entry

/-!
# Targets of a rollback

A rollback goes back to a date, to the value before the current one, some
steps back, or to what one write stored.  A target is looked up in the
history of one entry, or in a chain of entries of which each hides the next
ones.

In a chain, a date and a write are found in the first entry that has them.
Steps walk through all histories of the chain as if they were one: when the
history of an entry ends, the walk goes on with the entry that it hides.
-/

namespace SettingsArchive

/-- What a rollback goes back to. -/
inductive Target where
  | date (time : Instant)
  | last
  | steps (count : Nat)
  | revision (id : Nat)
deriving DecidableEq

namespace Entry

/-- The latest revision dated at or before an instant. -/
def latestBy? (e : Entry) (time : Instant) : Option Revision :=
  e.newestFirst.find? (·.time ≤ time)

/-- The revision before the head. -/
def previous? (e : Entry) : Option Revision :=
  e.past.getLast?

/-- The revision so many steps before the head, or the first one if the
history is shorter. -/
def stepsBack? (e : Entry) (count : Nat) : Option Revision :=
  e.revisions[e.revisions.length - 1 - count]?

/-- The revision with this number. -/
def written? (e : Entry) (id : Nat) : Option Revision :=
  e.revisions.find? (·.id == id)

end Entry

namespace Target

/-- The target of some criteria.  When several are given, a revision comes
before a date, a date before steps, and steps before the last value. -/
def ofCriteria (date : Option Instant) (last : Bool) (steps revision : Option Nat) :
    Except ArchiveError Target :=
  match revision, date, steps, last with
  | some id, _, _, _ => .ok (.revision id)
  | none, some time, _, _ => .ok (.date time)
  | none, none, some count, _ => .ok (.steps count)
  | none, none, none, true => .ok .last
  | none, none, none, false => .error .noCriteria

/-- The revision of an entry that a target means. -/
def resolve (t : Target) (e : Entry) : Option Revision :=
  match t with
  | .date time => e.latestBy? time
  | .last => e.previous?
  | .steps count => e.stepsBack? count
  | .revision id => e.written? id

/-- The revision that a target means in a chain of entries, the nearest one
first. -/
def resolveChain (t : Target) (chain : List Entry) : Option Revision :=
  let walk := chain.flatMap Entry.newestFirst
  match t with
  | .last => walk[1]?
  | .steps count => (walk.take (count + 1)).getLast?
  | t => chain.findSome? t.resolve

end Target

end SettingsArchive
