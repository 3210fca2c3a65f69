import SettingsArchive.Proofs.Storage.FaultyDisk
import SettingsArchive.Storage.Session

/-!
# What sessions do to a disk

Opening, saving, closing and dropping a session, whatever goes wrong with the
operations on the disk.  A session that cannot be opened has given the lock
back, and one that is closed gives it back after it was saved or could not be
saved.
-/

namespace SettingsArchive.Session

open FileSystem FilePath FaultyDisk Disk

variable {d e : Disk} {path : String}

theorem ensures_unlock (number : LockNumber) :
    Ensures (FileSystem.unlock number) d fun _ e => e = d.unlock number :=
  fun _ => rfl

/-! ## Opening -/

/-- What is known about a session that was opened on a disk, which is `f` but
for the lock that the session holds. -/
structure Opened (path : String) (s : Session) (d f : Disk) : Prop where
  path_eq : s.path = path
  spares : Spares path d f
  available : IsAvailable path s.lock f
  read : ∃ text, text.map String.toUTF8 = d.content? path ∧
    ofFile path text = .ok s.archive

theorem ensures_openFile (path : String) (timeout : Nat) :
    Ensures (Session.openFile path timeout) d fun r e =>
      (∃ err, r = .error err ∧ Spares path d e) ∨
        ∃ s f, r = .ok s ∧ e = f.hold s.lock ∧ Opened path s d f := by
  refine (ensures_acquire path timeout).bind fun r e h => ?_
  rcases h with ⟨err, rfl, hspares⟩ | ⟨number, f, rfl, rfl, hspares, hav⟩
  · exact ensures_pure (.inl ⟨_, rfl, hspares⟩)
  · have hreaches : (f.hold number).Reaches path :=
      hav.reaches.mono fun _ h => h
    refine (ensures_readDatabase hreaches).bind fun r g h => ?_
    obtain ⟨rfl, hread⟩ := h
    split
    · rename_i archive harchive
      obtain ⟨text, htext, hof⟩ := bind_eq_ok harchive
      refine ensures_pure (.inr ⟨⟨archive, path, number⟩, f, rfl, rfl, ?_⟩)
      refine ⟨rfl, hspares, hav, text, ?_, hof⟩
      cases r with
      | error err => cases htext
      | ok t =>
        obtain rfl := Except.ok.inj htext
        exact (hread t rfl).trans hspares.content?_eq
    · refine (ensures_unlock number).bind fun _ g hg => ?_
      rw [unlock_hold hav.free] at hg
      subst hg
      exact ensures_pure (.inl ⟨_, rfl, hspares⟩)

/-- A database that is open is not opened again: the wait for the lock runs
into the timeout. -/
theorem openFile_of_isHeld {number : LockNumber} (h : IsHeld path number d)
    (timeout : Nat) :
    (Session.openFile path timeout : StateM FaultyDisk _) ⟨d, []⟩
      = (.error (.storage (.lockTimeout (lockOf path) timeout)), ⟨d, []⟩) := by
  rw [Session.openFile, openAt, bind_apply, acquire_of_isHeld h]
  rfl

/-- A database that nobody has open is opened with the archive in its text. -/
theorem openFile_of_isAvailable {number : LockNumber} {text : String}
    {archive : Archive} (h : IsAvailable path number d)
    (hcontent : d.content? path = some text.toUTF8)
    (harchive : ofFile path (some text) = .ok archive) (timeout : Nat) :
    (Session.openFile path timeout : StateM FaultyDisk _) ⟨d, []⟩
      = (.ok ⟨archive, path, number⟩, ⟨d.hold number, []⟩) := by
  have hreaches : (d.hold number).Reaches path := h.reaches.mono fun _ h => h
  have hread : Except.mapError ArchiveError.storage (.ok (some text))
      >>= ofFile path = .ok archive :=
    harchive
  rw [Session.openFile, openAt, bind_apply, acquire_of_isAvailable h]
  simp only
  rw [bind_apply, readDatabase_of_content? hreaches hcontent]
  simp only [hread]
  rfl

/-! ## Saving and closing -/

/-- What came of saving a session. -/
theorem ensures_flush (s : Session) :
    Ensures s.flush d fun r e =>
      (∃ err, r = (.error err, { s with archive := s.archive.pruned }) ∧
          Spares s.path d e) ∨
        r = (.ok (), { s with archive := s.archive.saved }) ∧
          Commits s.path s.archive.pruned.text.toUTF8 d e := by
  refine (ensures_atomicWrite _ _).bind fun r e h => ?_
  rcases h with ⟨err, rfl, hspares⟩ | ⟨rfl, hcommits⟩
  · exact ensures_pure (.inl ⟨err, rfl, hspares⟩)
  · exact ensures_pure (.inr ⟨rfl, hcommits⟩)

theorem ensures_drop (s : Session) :
    Ensures s.drop d fun _ e => e = d.unlock s.lock :=
  ensures_unlock s.lock

/-- What came of closing a session: the disk on which its lock is given back is
the same, or it was spared, or the database was written. -/
theorem ensures_close (s : Session) :
    Ensures s.close d fun r e => ∃ f, e = f.unlock s.lock ∧
      ((s.archive.dirty = false ∧ r = .ok () ∧ f = d) ∨
        (s.archive.dirty ∧ ∃ err, r = .error err ∧ Spares s.path d f) ∨
        (s.archive.dirty ∧ r = .ok () ∧
          Commits s.path s.archive.pruned.text.toUTF8 d f)) := by
  have hdrop : ∀ (r : Except StorageError Unit) f,
      Ensures (s.drop >>= fun _ => pure r) f fun q e =>
        q = r ∧ e = f.unlock s.lock :=
    fun r f => (ensures_drop s).bind fun _ _ hg => ensures_pure ⟨rfl, hg⟩
  unfold close
  cases s.archive.dirty with
  | true =>
    simp only [if_true, bind_map_left]
    refine (ensures_flush s).bind fun r f h => (hdrop _ f).mono fun q g hg => ?_
    obtain ⟨rfl, hg⟩ := hg
    refine ⟨f, hg, ?_⟩
    rcases h with ⟨err, rfl, hspares⟩ | ⟨rfl, hcommits⟩
    · exact .inr (.inl ⟨trivial, err, rfl, hspares⟩)
    · exact .inr (.inr ⟨trivial, rfl, hcommits⟩)
  | false =>
    refine (hdrop (.ok ()) d).mono fun q g hg => ?_
    exact ⟨d, hg.2, .inl ⟨rfl, hg.1, rfl⟩⟩

end SettingsArchive.Session
