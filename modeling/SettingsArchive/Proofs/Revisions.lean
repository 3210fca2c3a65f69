import SettingsArchive.Proofs.Recorded

/-!
# Histories as lists

`Directory.revisions` is the history of a path, which is empty where there is no
setting.  A write adds one revision at the end and changes of the others at most
whether they are superseded: all else is the core of a revision
(`Written.map_core`).
-/

namespace SettingsArchive

open Directory

/-- All of a revision but whether it is superseded. -/
def Revision.core (r : Revision) : Nat × Instant × Value × Mask :=
  (r.id, r.time, r.value, r.mask)

namespace Entry

@[simp] theorem core_retired (mask : Mask) (r : Revision) :
    (retired mask r).core = r.core := by
  cases mask <;> rfl

@[simp] theorem map_core_append (e : Entry) (r : Revision) :
    (e.append r).revisions.map Revision.core =
      e.revisions.map Revision.core ++ [r.core] := by
  simp [append, revisions]

end Entry

namespace Directory

variable {d d' : Directory} {path : Path}

/-- The history of a path, the oldest revision first. -/
def revisions (d : Directory) (path : Path) : List Revision :=
  (d.get? path).elim [] Entry.revisions

theorem revisions_of_get? {e : Entry} (h : d.get? path = some e) :
    d.revisions path = e.revisions := by
  rw [revisions, h]
  rfl

theorem revisions_of_none (h : d.get? path = none) : d.revisions path = [] := by
  rw [revisions, h]
  rfl

theorem map_core_write (hpath : path ≠ []) (d : Directory) (r : Revision)
    (q : Path) :
    ((d.write path r).revisions q).map Revision.core =
      (d.revisions q).map Revision.core ++
        if q = path then [r.core] else [] := by
  rw [revisions, get?_write hpath]
  split
  · rename_i hq
    subst hq
    unfold revisions
    cases d.get? q with
    | none => rfl
    | some e => exact e.map_core_append r
  · rw [List.append_nil]
    rfl

/-- Writes add their values to the histories of their paths. -/
theorem Written.map_core {time : Instant} {id : Nat} {mask : Mask}
    {items : List (Path × Value)} (h : Written time id mask items d d')
    (q : Path) :
    (d'.revisions q).map Revision.core = (d.revisions q).map Revision.core ++
      (items.filter (·.1 = q)).map fun x => (id, time, x.2, mask) := by
  induction h with
  | nil d => simp
  | @cons path value items d d' valid _ _ ih =>
    rw [ih, map_core_write valid.1]
    by_cases hq : q = path
    · simp [hq, Revision.core]
    · simp [hq, Ne.symm hq]

end Directory

end SettingsArchive
