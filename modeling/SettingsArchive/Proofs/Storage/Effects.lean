import SettingsArchive.Proofs.Storage.Disk

/-!
# What the operations of a disk do

Each operation has one lemma here, which says what an operation that succeeded
found, what it left, and which files it touched.  `opened_of_openFile` is
behind those of the operations that write.
-/

namespace SettingsArchive.Disk

open FilePath

variable {d e : Disk} {path : String} {place : Place} {number : Nat}
  {data : ByteArray}

/-! ## Nodes -/

theorem keeps_put_directory (hplace : place ≠ [])
    (hnone : d.node? place = none) :
    Keeps [] [] d (d.put place .directory) where
  directory p hp := by
    rw [node?_put d hplace]
    split
    · rfl
    · exact hp
  file p _ f hf := by
    rw [file?_put_directory d hplace, if_neg, hf]
    rintro rfl
    simp [file?, hnone] at hf
  absent p _ hf := by
    rw [file?_put_directory d hplace, hf, ite_self]
  fresh p _ f hf hg := by
    rw [file?_put_directory d hplace, hf, ite_self] at hg
    cases hg
  next := Nat.le_refl _
  locked := rfl
  sound hd := by
    refine ⟨fun p f hf => hd.file p f ?_, hd.locked⟩
    rw [file?_put_directory d hplace] at hf
    exact (Option.ite_none_left_eq_some.1 hf).2

theorem keeps_put_file (hplace : place ≠ [])
    (hdirectory : d.node? place ≠ some .directory)
    (hnumber : d.IsSound → number < d.nextNumber) :
    Keeps [place] [place] d (d.put place (.file number data)) where
  directory p hp := by
    rw [node?_put d hplace, if_neg, hp]
    rintro rfl
    exact hdirectory hp
  file p hp f hf := by
    rw [file?_put_file d hplace, if_neg (by simpa using hp), hf]
  absent p hp hf := by
    rw [file?_put_file d hplace, if_neg (by simpa using hp), hf]
  fresh p hp f hf hg := by
    rw [file?_put_file d hplace, if_neg (by simpa using hp), hf] at hg
    cases hg
  next := Nat.le_refl _
  locked := rfl
  sound hd := by
    refine ⟨fun p f hf => ?_, hd.locked⟩
    rw [file?_put_file d hplace] at hf
    split at hf
    · rw [← Option.some.inj hf]
      exact hnumber hd
    · exact hd.file p f hf

theorem keeps_clear (hplace : place ≠ [])
    (hdirectory : d.node? place ≠ some .directory) :
    Keeps [] [place] d (d.clear place) where
  directory p hp := by
    rw [node?_clear d hplace, if_neg, hp]
    rintro rfl
    exact hdirectory hp
  file p hp f hf := by
    rw [file?_clear d hplace, if_neg (by simpa using hp), hf]
  absent p _ hf := by
    rw [file?_clear d hplace, hf, ite_self]
  fresh p _ f hf hg := by
    rw [file?_clear d hplace, hf, ite_self] at hg
    cases hg
  next := Nat.le_refl _
  locked := rfl
  sound hd := by
    refine ⟨fun p f hf => hd.file p f ?_, hd.locked⟩
    rw [file?_clear d hplace] at hf
    exact (Option.ite_none_left_eq_some.1 hf).2

/-- A file that is moved to another place, or to its own. -/
theorem keeps_move {there : Place} (hplace : place ≠ []) (hthere : there ≠ [])
    (hfile : d.file? place = some (number, data))
    (hdirectory : d.node? there ≠ some .directory) :
    Keeps [there] [place, there] d
      ((d.clear place).put there (.file number data)) where
  directory p hp := by
    rw [node?_put _ hthere, node?_clear d hplace, if_neg, if_neg, hp]
    · rintro rfl
      rw [file?_of_directory hp] at hfile
      cases hfile
    · rintro rfl
      exact hdirectory hp
  file p hp f hf := by
    rw [List.mem_cons, List.mem_singleton, not_or] at hp
    rw [file?_put_file _ hthere, file?_clear d hplace, if_neg hp.2,
      if_neg hp.1, hf]
  absent p hp hf := by
    rw [file?_put_file _ hthere, file?_clear d hplace,
      if_neg (by simpa using hp), hf, ite_self]
  fresh p hp f hf hg := by
    rw [List.mem_cons, List.mem_singleton, not_or] at hp
    rw [file?_put_file _ hthere, file?_clear d hplace, if_neg hp.2, hf,
      ite_self] at hg
    cases hg
  next := Nat.le_refl _
  locked := rfl
  sound hd := by
    refine ⟨fun p f hf => ?_, hd.locked⟩
    rw [file?_put_file _ hthere, file?_clear d hplace] at hf
    split at hf
    · rw [← Option.some.inj hf]
      exact hd.file _ _ hfile
    · exact hd.file p f (Option.ite_none_left_eq_some.1 hf).2

/-- The disk with a new file at a place. -/
def make (d : Disk) (place : Place) : Disk :=
  { d with nextNumber := d.nextNumber + 1 }.put place
    (.file d.nextNumber .empty)

theorem file?_make (hplace : place ≠ []) :
    (d.make place).file? place = some (d.nextNumber, .empty) := by
  rw [make, file?_put_file _ hplace, if_pos rfl]

theorem keeps_make (hplace : place ≠ []) (hnone : d.node? place = none) :
    Keeps [place] [] d (d.make place) := by
  have hnext : Keeps [place] [place] d
      { d with nextNumber := d.nextNumber + 1 } :=
    { Keeps.refl [place] [place] d with
      next := Nat.le_succ _
      sound := fun hd =>
        ⟨fun p f hf => Nat.lt_succ_of_lt (hd.file p f hf),
          fun n hn => Nat.lt_succ_of_lt (hd.locked n hn)⟩ }
  have hput : Keeps [place] [place] { d with nextNumber := d.nextNumber + 1 }
      (d.make place) := by
    apply keeps_put_file hplace
    · intro hdirectory
      exact absurd (hnone.symm.trans hdirectory) (by simp)
    · exact fun _ => Nat.lt_succ_self _
  have hfile : d.file? place = none := by simp [file?, hnone]
  refine { hnext.trans hput with file := ?_, fresh := ?_ }
  · intro p _ f hf
    apply (hnext.trans hput).file p _ f hf
    rw [List.mem_singleton]
    rintro rfl
    rw [hfile] at hf
    cases hf
  · intro p _ f hf hg
    by_cases hp : p = place
    · rw [hp, file?_make hplace] at hg
      exact Nat.le_of_eq (congrArg Prod.fst (Option.some.inj hg))
    · have habsent := (hnext.trans hput).absent p (by simpa using hp) hf
      rw [habsent] at hg
      cases hg

/-! ## Finding files -/

theorem look_eq_ok {name : String} {node : Option Node}
    (h : d.look place name = .ok node) :
    name.utf8ByteSize ≤ maxName ∧ d.node? (place ++ [name]) = node := by
  unfold look at h
  split at h
  · cases h
  · rename_i hsize
    exact ⟨Nat.not_lt.1 hsize, Except.ok.inj h⟩

/-- A path that finds a file names its place. -/
theorem file?_of_find (h : d.find path = .ok (.file number data)) :
    ∃ p, place? path = some p ∧ d.file? p = some (number, data) := by
  obtain ⟨r, hfollow, hend⟩ := bind_eq_ok h
  cases r with
  | «at» p => cases hend
  | named p name slash =>
    obtain ⟨node, hlook, hnode⟩ := bind_eq_ok hend
    have hthere := (look_eq_ok hlook).2
    rcases node with _ | node
    · cases hnode
    · cases slash with
      | true => cases node <;> cases hnode
      | false =>
        obtain ⟨hname, -, rfl, rfl⟩ := of_follow_named hfollow
        refine ⟨_, by rw [place?, if_pos hname], ?_⟩
        cases node with
        | directory => cases hnode
        | file n x =>
          obtain ⟨rfl, rfl⟩ := Node.file.inj (Except.ok.inj hnode)
          exact file?_eq_some_iff.2 hthere

/-- Whether there is a directory, asked of a disk. -/
theorem isDirectory_eq (path : String) (d : Disk) :
    (FileSystem.isDirectory path : StateM Disk Bool) d
      = (match d.find path with | .ok .directory => true | _ => false, d) := by
  change (match d.find path with
    | .ok .directory => (pure true : StateM Disk Bool)
    | _ => pure false) d = _
  cases d.find path with
  | error e => rfl
  | ok node => cases node <;> rfl

/-! ## Making directories -/

theorem keeps_makeDirectory (h : d.makeDirectory path = .ok e) :
    Keeps [] [] d e := by
  obtain ⟨r, -, hend⟩ := bind_eq_ok h
  cases r with
  | «at» p => cases hend
  | named p name slash =>
    obtain ⟨node, hlook, hmade⟩ := bind_eq_ok hend
    cases node with
    | some node => cases hmade
    | none =>
      obtain rfl := Except.ok.inj hmade
      exact keeps_put_directory (by simp) (look_eq_ok hlook).2

/-- A directory that is there is not made again. -/
theorem makeDirectory_of_find (h : d.find path = .ok .directory) :
    d.makeDirectory path = .error .alreadyThere := by
  obtain ⟨r, hfollow, hend⟩ := bind_eq_ok h
  cases r with
  | «at» p => rw [makeDirectory, hfollow]; rfl
  | named p name slash =>
    obtain ⟨node, hlook, hnode⟩ := bind_eq_ok hend
    cases node with
    | none => cases hnode
    | some node =>
      rw [makeDirectory, hfollow]
      change (d.look p name >>= _) = _
      rw [hlook]
      rfl

/-! ## Opening and writing files -/

/-- What is known about a file that was opened for writing. -/
structure Opened (d : Disk) (path : String) (place : Place) (number : Nat)
    (data : ByteArray) (e : Disk) : Prop where
  taken : IsTaken path
  leads : d.Leads (directories path)
  size : (fileName path).utf8ByteSize ≤ maxName
  place?_eq : place? path = some place
  file : e.file? place = some (number, data)
  found : d.file? place = some (number, data) ∧ e = d ∨
    d.file? place = none ∧ data = .empty
  keeps : Keeps [place] [] d e

theorem opened_of_openFile
    (h : d.openFile path = .ok (place, number, data, e)) :
    Opened d path place number data e := by
  obtain ⟨r, hfollow, hend⟩ := bind_eq_ok h
  cases r with
  | «at» p => cases hend
  | named p name slash =>
    cases slash with
    | true => cases hend
    | false =>
      obtain ⟨hname, hleads, rfl, rfl⟩ := of_follow_named hfollow
      obtain ⟨htaken, -⟩ := isTaken_of_follow hfollow
      obtain ⟨node, hlook, hopen⟩ := bind_eq_ok hend
      obtain ⟨hsize, hnode⟩ := look_eq_ok hlook
      cases node with
      | none =>
        obtain ⟨rfl, rfl, rfl, rfl⟩ := by simpa using Except.ok.inj hopen
        exact {
          taken := htaken
          leads := hleads
          size := hsize
          place?_eq := by rw [place?, if_pos hname]
          file := file?_make (by simp)
          found := .inr ⟨by simp [file?, hnode], rfl⟩
          keeps := keeps_make (by simp) hnode }
      | some node =>
        cases node with
        | directory => cases hopen
        | file n x =>
          obtain ⟨rfl, rfl, rfl, rfl⟩ := by simpa using Except.ok.inj hopen
          exact {
            taken := htaken
            leads := hleads
            size := hsize
            place?_eq := by rw [place?, if_pos hname]
            file := file?_eq_some_iff.2 hnode
            found := .inl ⟨file?_eq_some_iff.2 hnode, rfl⟩
            keeps := .refl _ _ _ }

theorem Opened.names (h : Opened d path place number data e) :
    d.Names path place :=
  ⟨h.taken, h.leads, h.size, h.place?_eq⟩

/-- A log file that was opened stays if it was there. -/
theorem opened_of_openLog (h : d.openLog path = .ok (number, e)) :
    ∃ place data, Opened d path place number data e := by
  obtain ⟨⟨place, n, data, f⟩, hopen, hf⟩ := bind_eq_ok h
  obtain ⟨rfl, rfl⟩ := Prod.mk.inj (Except.ok.inj hf)
  exact ⟨place, data, opened_of_openFile hopen⟩

/-- A file that was filled has the content. -/
theorem keeps_fill (h : d.fill path data = .ok e) :
    ∃ place number, d.Names path place ∧
      e.file? place = some (number, data) ∧ Keeps [place] [place] d e := by
  obtain ⟨⟨place, number, old, f⟩, hopen, hf⟩ := bind_eq_ok h
  obtain rfl := Except.ok.inj hf
  have hopened := opened_of_openFile hopen
  have hne := ne_nil_of_place? hopened.place?_eq
  have hput : Keeps [place] [place] f (f.put place (.file number data)) := by
    apply keeps_put_file hne
    · rw [file?_eq_some_iff.1 hopened.file]
      simp
    · exact fun hsound => hsound.file _ _ hopened.file
  refine ⟨place, number, hopened.names, ?_, ?_⟩
  · rw [file?_put_file f hne, if_pos rfl]
  · exact (hopened.keeps.mono (List.Subset.refl _) (List.nil_subset _)).trans hput

/-- What is known about a file that was given another name. -/
structure Moved (d : Disk) (target : String) (here there : Place)
    (number : Nat) (data : ByteArray) (e : Disk) : Prop where
  names : d.Names target there
  directory : d.node? there ≠ some .directory
  moved : e = (d.clear here).put there (.file number data)

theorem moved_of_rename {source target : String}
    (hsource : place? source = some place)
    (hfile : d.file? place = some (number, data))
    (h : d.rename source target = .ok e) :
    ∃ there, Moved d target place there number data e := by
  obtain ⟨r, hfollow, h⟩ := bind_eq_ok h
  obtain ⟨q, htarget, h⟩ := bind_eq_ok h
  obtain ⟨-, rfl⟩ := follow_of_place? hsource hfollow
  cases q with
  | «at» p => cases h
  | named p name slash =>
    obtain ⟨node, hlook, h⟩ := bind_eq_ok h
    have hnode := (look_eq_ok hlook).2
    rw [← (isName_of_place? hsource).2, file?_eq_some_iff.1 hfile] at hnode
    obtain rfl := hnode
    obtain ⟨other, hother, h⟩ := bind_eq_ok h
    obtain ⟨hsize, hthere⟩ := look_eq_ok hother
    cases slash with
    | true => cases h
    | false =>
      obtain ⟨hname, hleads, rfl, rfl⟩ := of_follow_named htarget
      have hnames : d.Names target
          (placeOf (directories target) ++ [fileName target]) := {
        taken := (isTaken_of_follow htarget).1
        leads := hleads
        size := hsize
        place?_eq := by rw [place?, if_pos hname] }
      refine ⟨_, hnames, ?_, ?_⟩
      · intro hdirectory
        rw [hthere.symm.trans hdirectory] at h
        cases h
      · rw [(isName_of_place? hsource).2]
        split at h
        · cases h
        · cases h
        · exact (Except.ok.inj h).symm

namespace Moved

variable {target : String} {there : Place}

theorem there_ne_nil (h : Moved d target place there number data e) :
    there ≠ [] :=
  ne_nil_of_place? h.names.place?_eq

theorem file?_eq (h : Moved d target place there number data e) :
    e.file? there = some (number, data) := by
  rw [h.moved, file?_put_file _ h.there_ne_nil, if_pos rfl]

theorem keeps (h : Moved d target place there number data e)
    (hplace : place ≠ []) (hfile : d.file? place = some (number, data)) :
    Keeps [there] [place, there] d e := by
  rw [h.moved]
  exact keeps_move hplace h.there_ne_nil hfile h.directory

/-- Nothing is left under the old name. -/
theorem node?_eq (h : Moved d target place there number data e)
    (hplace : place ≠ []) (hne : place ≠ there) : e.node? place = none := by
  rw [h.moved, node?_put _ h.there_ne_nil, if_neg hne, node?_clear d hplace,
    if_pos rfl]

end Moved

/-- A file that was renamed is there under its new name. -/
theorem keeps_rename {source target : String}
    (hsource : place? source = some place)
    (hfile : d.file? place = some (number, data))
    (h : d.rename source target = .ok e) :
    ∃ there, place? target = some there ∧
      e.file? there = some (number, data) ∧
      Keeps [there] [place, there] d e := by
  obtain ⟨there, hmoved⟩ := moved_of_rename hsource hfile h
  exact ⟨there, hmoved.names.place?_eq, hmoved.file?_eq,
    hmoved.keeps (ne_nil_of_place? hsource) hfile⟩

theorem keeps_remove (hplace : place? path = some place)
    (h : d.remove path = .ok e) : Keeps [] [place] d e := by
  obtain ⟨r, hfollow, h⟩ := bind_eq_ok h
  obtain ⟨-, rfl⟩ := follow_of_place? hplace hfollow
  obtain ⟨node, hlook, h⟩ := bind_eq_ok h
  have hnode := (look_eq_ok hlook).2
  rw [← (isName_of_place? hplace).2] at hnode
  cases node with
  | none => cases h
  | some node =>
    cases node with
    | directory => cases h
    | file n x =>
      obtain rfl := Except.ok.inj h
      rw [← (isName_of_place? hplace).2]
      exact keeps_clear (ne_nil_of_place? hplace) (by simp [hnode])

/-! ## Locks -/

/-- The disk with one more lock that is held. -/
def hold (d : Disk) (number : LockNumber) : Disk :=
  { d with locked := number :: d.locked }

/-- What came of taking a lock.  It is free unless the answer is that it is
held. -/
theorem lock_cases {answer : Option LockNumber} (h : d.lock path = .ok (answer, e)) :
    ∃ place number data f, Opened d path place number data f ∧
      ((number ∈ f.locked ∧ answer = none ∧ e = f) ∨
        (number ∉ f.locked ∧ answer = some number ∧ e = f.hold number)) := by
  obtain ⟨⟨place, number, data, f⟩, hopen, hf⟩ := bind_eq_ok h
  refine ⟨place, number, data, f, opened_of_openFile hopen, ?_⟩
  simp only at hf
  split at hf
  · rename_i hmem
    obtain ⟨rfl, rfl⟩ := by simpa using Except.ok.inj hf
    exact .inl ⟨hmem, rfl, rfl⟩
  · rename_i hmem
    obtain ⟨rfl, rfl⟩ := by simpa using Except.ok.inj hf
    exact .inr ⟨hmem, rfl, rfl⟩

/-- Who gives a lock back no longer holds it. -/
theorem locked_unlock {locked : List LockNumber}
    (h : d.locked = number :: locked) (hfree : number ∉ locked) :
    (d.unlock number).locked = locked := by
  simp only [unlock, h, List.filter_cons, ne_eq, not_true_eq_false,
    decide_false, Bool.false_eq_true, if_false]
  rw [List.filter_eq_self]
  intro n hn
  rw [decide_eq_true_eq]
  rintro rfl
  exact hfree hn

/-- A lock that was taken and given back. -/
theorem unlock_hold (hfree : number ∉ d.locked) :
    (d.hold number).unlock number = d := by
  have hlocked : ((d.hold number).unlock number).locked = d.locked :=
    locked_unlock rfl hfree
  cases d
  exact congrArg (Disk.mk _ · _) hlocked

/-! ## A database and the files beside it -/

/-- What stays when a database is read or written: directories, the number of
its lock file, and who holds a lock. -/
structure KeepsLock (path : String) (d e : Disk) : Prop where
  directory : ∀ p, d.node? p = some .directory → e.node? p = some .directory
  lockFile : ∀ f, d.file? (lockPlace path) = some f →
    e.file? (lockPlace path) = some f
  locked : e.locked = d.locked
  sound : d.IsSound → e.IsSound

theorem KeepsLock.refl (path : String) (d : Disk) : KeepsLock path d d where
  directory _ h := h
  lockFile _ h := h
  locked := rfl
  sound h := h

theorem KeepsLock.trans {f : Disk} (h : KeepsLock path d e)
    (h' : KeepsLock path e f) : KeepsLock path d f where
  directory p hp := h'.directory p (h.directory p hp)
  lockFile x hx := h'.lockFile x (h.lockFile x hx)
  locked := h'.locked.trans h.locked
  sound hd := h'.sound (h.sound hd)

theorem Keeps.keepsLock {made written : List Place}
    (h : Keeps made written d e) (hlock : lockPlace path ∉ written) :
    KeepsLock path d e where
  directory := h.directory
  lockFile := h.file _ hlock
  locked := h.locked
  sound := h.sound

/-- What stays where nothing is touched but the lock file of a database, which
may have been made, and the temporary file. -/
abbrev Spares (path : String) : Disk → Disk → Prop :=
  Keeps [lockPlace path, temporaryPlace path] [temporaryPlace path]

namespace Spares

theorem of_keeps (h : Keeps [] [] d e) : Spares path d e :=
  h.mono (List.nil_subset _) (List.nil_subset _)

/-- The database has the content that it had. -/
theorem content?_eq (h : Spares path d e) : e.content? path = d.content? path := by
  have hlock := place?_ne_lockPlace path
  have htemporary := place?_ne_temporaryPlace path
  apply Keeps.content?_eq h
  · intro p hp hmem
    rw [List.mem_cons, List.mem_singleton] at hmem
    rcases hmem with rfl | rfl
    · exact hlock hp
    · exact htemporary hp
  · intro p hp hmem
    rw [List.mem_singleton] at hmem
    subst hmem
    exact htemporary hp

theorem keepsLock (h : Spares path d e) : KeepsLock path d e :=
  Keeps.keepsLock h (by simp [lockPlace_ne_temporaryPlace])

end Spares

/-- A disk on which a database was given its content. -/
structure Commits (path : String) (data : ByteArray) (d e : Disk) : Prop
    extends KeepsLock path d e where
  content : e.content? path = some data

/-- A temporary file that is given the name of its database. -/
theorem commits_rename {data : ByteArray} {number : Nat}
    (hfile : d.file? (temporaryPlace path) = some (number, data))
    (h : d.rename (temporaryOf path) path = .ok e) : Commits path data d e := by
  obtain ⟨there, hthere, hmoved, hkeeps⟩ :=
    keeps_rename (place?_temporaryOf path) hfile h
  have hlock : lockPlace path ∉ [temporaryPlace path, there] := by
    have hne := place?_ne_lockPlace path
    rw [hthere] at hne
    simp only [List.mem_cons, List.not_mem_nil, or_false, not_or]
    exact ⟨lockPlace_ne_temporaryPlace path, fun heq => hne (by rw [heq])⟩
  refine ⟨hkeeps.keepsLock hlock, ?_⟩
  rw [content?, hthere, Option.bind_some, hmoved]
  rfl

theorem Commits.of_spares {f : Disk} {data : ByteArray} (h : Spares path d e)
    (hcommits : Commits path data e f) : Commits path data d f :=
  ⟨h.keepsLock.trans hcommits.toKeepsLock, hcommits.content⟩

/-! ## The lock of a database -/

/-- A disk on which the lock of a database is there to be taken. -/
structure IsAvailable (path : String) (number : LockNumber) (d : Disk) :
    Prop where
  reaches : d.Reaches path
  file : ∃ data, d.file? (lockPlace path) = some (number, data)
  free : number ∉ d.locked

/-- Where the lock of a database was taken, it was available. -/
theorem lock_lockOf {answer : Option LockNumber}
    (h : d.lock (lockOf path) = .ok (answer, e)) :
    (answer = none ∧ Spares path d e) ∨
      ∃ number f, answer = some number ∧ e = f.hold number ∧
        Spares path d f ∧ IsAvailable path number f := by
  obtain ⟨place, number, data, f, hopened, hcases⟩ := lock_cases h
  obtain rfl := Option.some.inj ((place?_lockOf path).symm.trans hopened.place?_eq)
  have hspares : Spares path d f :=
    hopened.keeps.mono (by simp) (List.nil_subset _)
  rcases hcases with ⟨-, rfl, rfl⟩ | ⟨hfree, rfl, rfl⟩
  · exact .inl ⟨rfl, hspares⟩
  · refine .inr ⟨number, f, rfl, rfl, hspares, ?_⟩
    have hslash : '/' ∉ ".lock".toList := by decide
    have hreaches : d.Reaches path := {
      taken := hopened.taken
      size := by
        have hsize := hopened.size
        rwa [lockOf, fileName_append hslash] at hsize
      leads := by
        have hleads := hopened.leads
        rwa [lockOf, directories_append hslash] at hleads }
    exact ⟨hreaches.mono hspares.directory, ⟨data, hopened.file⟩, hfree⟩

/-- The lock file of a database within reach, opened. -/
theorem openFile_lockOf (h : d.Reaches path)
    (hfile : d.file? (lockPlace path) = some (number, data)) :
    d.openFile (lockOf path) = .ok (lockPlace path, number, data, d) := by
  have hname : isName (fileName (lockOf path)) := by
    rw [lockOf, fileName_append (by decide)]
    exact isName_append _ (by decide)
  have hleads : d.Leads (directories (lockOf path)) := by
    rw [lockOf, directories_append (by decide)]
    exact h.leads
  have hsize : ¬ maxName < (fileName (lockOf path)).utf8ByteSize := by
    rw [lockOf, fileName_append (by decide)]
    exact Nat.not_lt.2 h.size
  have hplace : placeOf (directories (lockOf path)) ++ [fileName (lockOf path)]
      = lockPlace path :=
    ((isName_of_place? (place?_lockOf path)).2).symm
  rw [openFile, follow_of_isName h.taken hname hleads]
  change (d.look _ _ >>= _) = _
  rw [look, if_neg hsize, hplace, file?_eq_some_iff.1 hfile]
  rfl

/-- A lock that is there to be taken is given out. -/
theorem lock_of_isAvailable (h : IsAvailable path number d) :
    d.lock (lockOf path) = .ok (some number, d.hold number) := by
  obtain ⟨data, hfile⟩ := h.file
  rw [lock, openFile_lockOf h.reaches hfile]
  exact if_neg h.free

/-- A lock that was given back is there to be taken again. -/
theorem isAvailable_unlock (h : IsAvailable path number d)
    (hkeeps : KeepsLock path (d.hold number) e) :
    IsAvailable path number (e.unlock number) where
  reaches := h.reaches.mono hkeeps.directory
  file := h.file.imp fun _ hfile => hkeeps.lockFile _ hfile
  free := by
    rw [locked_unlock hkeeps.locked h.free]
    exact h.free

/-- A disk on which the lock of a database is held. -/
structure IsHeld (path : String) (number : LockNumber) (d : Disk) : Prop where
  reaches : d.Reaches path
  file : ∃ data, d.file? (lockPlace path) = some (number, data)
  held : number ∈ d.locked

/-- A lock that is held is not given out again. -/
theorem lock_of_isHeld (h : IsHeld path number d) :
    d.lock (lockOf path) = .ok (none, d) := by
  obtain ⟨data, hfile⟩ := h.file
  rw [lock, openFile_lockOf h.reaches hfile]
  exact if_pos h.held

end SettingsArchive.Disk
