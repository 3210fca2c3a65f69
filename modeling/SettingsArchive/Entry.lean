import SettingsArchive.Revision

/-!
# Entries

An entry is a setting with its history.  The last revision is the head and
holds the current value, so a history is never empty, which the type of an
entry says: `past` may be empty and `head` is always there.

`append` and `trim` are the only operations.  Neither changes a revision
other than by superseding the head that a write follows, and a trim drops
superseded revisions only.
-/

namespace SettingsArchive

/-- A setting with its revisions: those before the head, oldest first, and
the head. -/
structure Entry where
  name : String
  past : List Revision
  head : Revision

namespace Entry

/-- The revisions, oldest first. -/
def revisions (e : Entry) : List Revision :=
  e.past ++ [e.head]

/-- The revisions, newest first. -/
def newestFirst (e : Entry) : List Revision :=
  e.head :: e.past.reverse

/-- The revisions, newest first, are the revisions in reverse. -/
theorem newestFirst_eq (e : Entry) : e.newestFirst = e.revisions.reverse := by
  simp [newestFirst, revisions]

/-- The current value. -/
def current (e : Entry) : Value :=
  e.head.value

/-- The kind of the setting, which its first revision fixes. -/
def kind (e : Entry) : Kind :=
  (e.past.headD e.head).value.kind

/-- Entries are compared by their names and revisions. -/
instance : BEq Entry where
  beq d e := d.name == e.name && d.revisions == e.revisions

/-- The entry of a first revision. -/
def ofFirst (name : String) (first : Revision) : Entry :=
  ⟨name, [], first⟩

/-- The entry with these revisions, oldest first, if there are any. -/
def ofRevisions? (name : String) (revisions : List Revision) : Option Entry :=
  revisions.getLast?.map (⟨name, revisions.dropLast, ·⟩)

/-- An entry is made of its revisions. -/
theorem ofRevisions?_revisions (e : Entry) :
    ofRevisions? e.name e.revisions = some e := by
  simp [ofRevisions?, revisions]

/-- The revisions of an entry made of revisions are these. -/
theorem revisions_of_ofRevisions? {name : String} {rs : List Revision}
    {e : Entry} (h : ofRevisions? name rs = some e) :
    e.name = name ∧ e.revisions = rs := by
  obtain ⟨r, hr, rfl⟩ := Option.map_eq_some_iff.1 h
  obtain ⟨front, rfl⟩ := List.getLast?_eq_some_iff.1 hr
  simp [revisions]

/-- The head as a write leaves it. -/
def retired (mask : Mask) (head : Revision) : Revision :=
  match mask with
  | .retire => { head with superseded := true }
  | .keep => head

/-- The entry with one more revision.  The order of revisions and the kind
are the caller's concern. -/
def append (e : Entry) (r : Revision) : Entry :=
  { e with past := e.past ++ [retired r.mask e.head], head := r }

/-- The revisions without the first `count` superseded ones. -/
def dropSuperseded : Nat → List Revision → List Revision
  | _, [] => []
  | 0, rs => rs
  | count + 1, r :: rs =>
    if r.superseded then dropSuperseded count rs
    else r :: dropSuperseded (count + 1) rs

/-- How many revisions a trim drops that leaves at most `kept` superseded
ones before the head. -/
def excess (e : Entry) (kept : Nat) : Nat :=
  e.past.countP (·.superseded) - kept

/-- The entry with at most `kept` superseded revisions before the head, the
newest ones. -/
def trim (e : Entry) (kept : Nat) : Entry :=
  { e with past := dropSuperseded (e.excess kept) e.past }

end Entry

end SettingsArchive
