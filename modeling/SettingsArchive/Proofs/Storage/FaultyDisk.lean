import SettingsArchive.Proofs.Storage.Effects

/-!
# Disks that fail

Any operation of a file system may fail, for reasons that no disk can foresee.
A faulty disk is a disk with a list of what goes wrong: each operation takes
the next item from it, and either fails with the error there and leaves the
disk alone, or does what it does on the disk.  Questions are answered
truthfully, and a lock can always be given back.

`Ensures` is what holds of the answer and of the disk behind a computation,
whatever goes wrong.  The computations of a file system have one lemma each.
Making room for a file does nothing but make directories and ask for them, so
what holds of these holds of it, on any file system (`FileSystem.IsStepwise`).
Where a database is opened and written, everything but the database itself and
the two files beside it stays: see `Disk.Spares` and `Disk.Commits`.
-/

namespace SettingsArchive

/-! ## Making room on any file system -/

namespace FileSystem

variable {m : Type → Type} [Monad m] [FileSystem m]

/-- A property that making a directory and asking for one have, and that
computations have if the steps they are made of have it. -/
structure IsStepwise (P : (α : Type) → m α → Prop) : Prop where
  finished : ∀ {α : Type} (a : α), P α (pure a)
  andThen : ∀ {α β : Type} {x : m α} {f : α → m β}, P α x → (∀ a, P β (f a)) →
    P β (x >>= f)
  isDirectory : ∀ path, P _ (isDirectory path)
  makeDirectory : ∀ path, P _ (makeDirectory path)

namespace IsStepwise

variable {P : (α : Type) → m α → Prop}

theorem ensureDirectory (h : IsStepwise P) (path : String) :
    P _ (ensureDirectory path) := by
  refine h.andThen (h.makeDirectory path) fun r => ?_
  cases r with
  | ok u => exact h.finished _
  | error e =>
    refine h.andThen (h.isDirectory path) fun b => ?_
    cases b <;> exact h.finished _

theorem makeAll (h : IsStepwise P) (paths : List String) :
    P _ (makeAll paths) := by
  induction paths with
  | nil => exact h.finished _
  | cons path around ih =>
    refine h.andThen (h.makeDirectory path) fun r => ?_
    cases r with
    | ok u => exact h.finished _
    | error e =>
      dsimp only
      split
      · refine h.andThen ih fun r => ?_
        cases r with
        | ok u => exact h.ensureDirectory path
        | error e => exact h.finished _
      · refine h.andThen (h.isDirectory path) fun b => ?_
        cases b <;> exact h.finished _

/-- Making room for a file is made of such steps. -/
theorem makeRoomFor (h : IsStepwise P) (path : String) :
    P _ (makeRoomFor path) := by
  unfold FileSystem.makeRoomFor
  split
  · exact h.finished _
  · refine h.andThen (h.makeAll _) fun r => ?_
    cases r <;> exact h.finished _

end IsStepwise

end FileSystem

/-- A disk and what goes wrong with the operations on it, one after the
other. -/
structure FaultyDisk where
  disk : Disk
  faults : List (Option FileError) := []

namespace FaultyDisk

/-- An operation that may fail. -/
def attempt {α : Type} (run : StateM Disk (Except FileError α)) :
    StateM FaultyDisk (Except FileError α) := fun s =>
  match s.faults with
  | some e :: faults => (.error e, { s with faults })
  | faults =>
    let (answer, disk) := run s.disk
    (answer, { disk, faults := faults.tail })

/-- An operation that does not fail. -/
def ask {α : Type} (run : StateM Disk α) : StateM FaultyDisk α := fun s =>
  let (answer, disk) := run s.disk
  (answer, { s with disk })

instance : FileSystem (StateM FaultyDisk) where
  makeDirectory path := attempt (FileSystem.makeDirectory path)
  isDirectory path := ask (FileSystem.isDirectory path)
  isThere path := ask (FileSystem.isThere path)
  readText path := attempt (FileSystem.readText path)
  create path := attempt (FileSystem.create path)
  openLog path := attempt (FileSystem.openLog path)
  write path data := attempt (FileSystem.write path data)
  rename source target := attempt (FileSystem.rename source target)
  remove path := attempt (FileSystem.remove path)
  lock path timeout := attempt (FileSystem.lock path timeout)
  unlock number := ask (FileSystem.unlock number)

/-! ## Whatever goes wrong -/

/-- What holds of the answer of a computation on a disk and of the disk behind
it, whatever goes wrong. -/
def Ensures {α : Type} (x : StateM FaultyDisk α) (d : Disk)
    (post : α → Disk → Prop) : Prop :=
  ∀ faults, post (x ⟨d, faults⟩).1 (x ⟨d, faults⟩).2.disk

variable {α β : Type} {d e : Disk}

theorem ensures_pure {a : α} {post : α → Disk → Prop} (h : post a d) :
    Ensures (pure a) d post :=
  fun _ => h

theorem Ensures.mono {x : StateM FaultyDisk α} {mid post : α → Disk → Prop}
    (h : Ensures x d mid) (himp : ∀ a e, mid a e → post a e) :
    Ensures x d post :=
  fun faults => himp _ _ (h faults)

theorem bind_apply {σ : Type} (x : StateM σ α) (f : α → StateM σ β) (s : σ) :
    (x >>= f) s = f (x s).1 (x s).2 :=
  rfl

/-- A computation that goes on after another one. -/
theorem Ensures.bind {x : StateM FaultyDisk α} {f : α → StateM FaultyDisk β}
    {mid : α → Disk → Prop} {post : β → Disk → Prop} (h : Ensures x d mid)
    (hf : ∀ a e, mid a e → Ensures (f a) e post) : Ensures (x >>= f) d post :=
  fun faults => hf _ _ (h faults) _

theorem act_cases {α : Type} (run : Disk → Except SystemError (α × Disk))
    (d : Disk) :
    (∃ err, Disk.act run d = (.error err, d)) ∨
      ∃ a e, run d = .ok (a, e) ∧ Disk.act run d = (.ok a, e) := by
  unfold Disk.act
  cases run d with
  | error err => exact .inl ⟨err.toFileError, rfl⟩
  | ok answer => exact .inr ⟨answer.1, answer.2, rfl, rfl⟩

/-- An operation that fails leaves the disk alone, and one that succeeds does
what it does on the disk. -/
theorem ensures_attempt {run : Disk → Except SystemError (α × Disk)} :
    Ensures (attempt (Disk.act run)) d fun r e =>
      (∃ err, r = .error err ∧ e = d) ∨ ∃ a, r = .ok a ∧ run d = .ok (a, e) := by
  have hact : ∀ r e, Disk.act run d = (r, e) →
      (∃ err, r = .error err ∧ e = d) ∨ ∃ a, r = .ok a ∧ run d = .ok (a, e) := by
    intro r e h
    rcases act_cases run d with ⟨err, hrun⟩ | ⟨a, f, hrun, hact⟩
    · obtain ⟨rfl, rfl⟩ := Prod.mk.inj (hrun.symm.trans h)
      exact .inl ⟨err, rfl, rfl⟩
    · obtain ⟨rfl, rfl⟩ := Prod.mk.inj (hact.symm.trans h)
      exact .inr ⟨a, rfl, hrun⟩
  intro faults
  match faults with
  | some err :: faults => exact .inl ⟨err, rfl, rfl⟩
  | none :: faults => exact hact _ _ rfl
  | [] => exact hact _ _ rfl

theorem ensures_change {run : Disk → Except SystemError Disk} :
    Ensures (attempt (Disk.change run)) d fun r e =>
      (∃ err, r = .error err ∧ e = d) ∨ r = .ok () ∧ run d = .ok e := by
  refine ensures_attempt.mono fun r e h => ?_
  rcases h with h | ⟨⟨⟩, hr, hrun⟩
  · exact .inl h
  · obtain ⟨f, hf, heq⟩ := map_eq_ok hrun
    obtain ⟨-, rfl⟩ := Prod.mk.inj heq
    exact .inr ⟨hr, hf⟩

theorem ensures_ask {run : StateM Disk α} {a : α} (h : run d = (a, e)) :
    Ensures (ask run) d fun b f => b = a ∧ f = e := by
  intro faults
  simp only [ask, h, and_self]

/-! ## Where nothing goes wrong -/

theorem attempt_nil {run : StateM Disk (Except FileError α)}
    {r : Except FileError α} (h : run d = (r, e)) :
    attempt run ⟨d, []⟩ = (r, ⟨e, []⟩) := by
  simp only [attempt, h]
  rfl

theorem ask_nil {run : StateM Disk α} {a : α} (h : run d = (a, e)) :
    ask run ⟨d, []⟩ = (a, ⟨e, []⟩) := by
  simp only [ask, h]

/-! ## Making room -/

open FileSystem

/-- Whatever goes wrong, directories are made and no file is touched. -/
theorem isStepwise_keeps : IsStepwise fun α (x : StateM FaultyDisk α) =>
    ∀ d, Ensures x d fun _ e => Disk.Keeps [] [] d e where
  finished a d := ensures_pure (.refl _ _ _)
  andThen hx hf d := (hx d).bind fun a e h =>
    (hf a e).mono fun _ _ h' => h.trans h'
  isDirectory path d := by
    refine (ensures_ask (Disk.isDirectory_eq path d)).mono fun b e h => ?_
    rw [h.2]
    exact .refl _ _ _
  makeDirectory path d := by
    refine ensures_change.mono fun r e h => ?_
    rcases h with ⟨-, -, rfl⟩ | ⟨-, h⟩
    · exact .refl _ _ _
    · exact Disk.keeps_makeDirectory h

theorem ensures_makeRoomFor (path : String) :
    Ensures (makeRoomFor path) d fun _ e => Disk.Keeps [] [] d e :=
  isStepwise_keeps.makeRoomFor path d

/-! ## Opening a database -/

open Disk FilePath

theorem ensures_acquire (path : String) (timeout : Nat) :
    Ensures (acquire (lockOf path) timeout) d fun r e =>
      (∃ err, r = .error err ∧ Spares path d e) ∨
        ∃ number f, r = .ok number ∧ e = f.hold number ∧
          Spares path d f ∧ IsAvailable path number f := by
  refine (ensures_makeRoomFor _).bind fun r f hf => ?_
  have hroom : Spares path d f := .of_keeps hf
  cases r with
  | error err => exact ensures_pure (.inl ⟨err, rfl, hroom⟩)
  | ok u =>
    refine ensures_attempt.bind fun r g hg => ?_
    rcases hg with ⟨err, rfl, rfl⟩ | ⟨answer, rfl, hlock⟩
    · exact ensures_pure (.inl ⟨_, rfl, hroom⟩)
    · rcases lock_lockOf hlock with ⟨rfl, hspares⟩ | ⟨number, h, rfl, rfl, hspares, hav⟩
      · exact ensures_pure (.inl ⟨_, rfl, hroom.trans hspares⟩)
      · exact ensures_pure
          (.inr ⟨number, h, rfl, rfl, hroom.trans hspares, hav⟩)

/-- What is read from a database within reach is its content. -/
theorem ensures_readDatabase {path : String} (h : d.Reaches path) :
    Ensures (readDatabase path) d fun r e =>
      e = d ∧ ∀ text, r = .ok text →
        text.map String.toUTF8 = d.content? path := by
  have hthere : (isThere path : StateM Disk Bool) d
      = ((d.find path).toBool, d) := rfl
  refine (ensures_ask hthere).bind fun b f hf => ?_
  obtain ⟨rfl, rfl⟩ := hf
  split
  · refine ensures_attempt.bind fun r g hg => ?_
    rcases hg with ⟨err, rfl, rfl⟩ | ⟨text, rfl, hread⟩
    · exact ensures_pure ⟨rfl, fun text htext => by cases htext⟩
    · obtain ⟨t, ht, heq⟩ := map_eq_ok hread
      obtain ⟨rfl, rfl⟩ := Prod.mk.inj heq
      refine ensures_pure ⟨rfl, fun text htext => ?_⟩
      rw [← Except.ok.inj htext, Option.map_some, h.content?_of_readText ht]
  · rename_i hfind
    refine ensures_pure ⟨rfl, fun text htext => ?_⟩
    rw [← Except.ok.inj htext, Option.map_none,
      h.content?_of_find (Bool.not_eq_true _ ▸ hfind)]

/-- The content of a database within reach is what is read from it. -/
theorem readDatabase_of_content? {path text : String} (h : d.Reaches path)
    (hcontent : d.content? path = some text.toUTF8) :
    (readDatabase path : StateM FaultyDisk _) ⟨d, []⟩
      = (.ok (some text), ⟨d, []⟩) := by
  obtain ⟨number, hfind⟩ := h.find_of_content? hcontent
  have hthere : (isThere path : StateM FaultyDisk _) ⟨d, []⟩
      = (true, ⟨d, []⟩) := by
    have hask : (isThere path : StateM Disk Bool) d = (true, d) := by
      change ((d.find path).toBool, d) = _
      rw [hfind]
      rfl
    exact ask_nil hask
  have hread : (readText path : StateM FaultyDisk _) ⟨d, []⟩
      = (.ok text, ⟨d, []⟩) := by
    have hact : act (fun d => (·, d) <$> Disk.readText path d) d
        = (.ok text, d) := by
      rw [act, h.readText_of_content? hcontent]
      rfl
    exact attempt_nil hact
  rw [readDatabase, bind_apply, hthere]
  simp only [if_true]
  rw [bind_apply, hread]
  rfl

/-! ## Locks that are held or free -/

/-- A directory that is there need not be made. -/
theorem makeDirectories_of_find {path : String} (hne : path ≠ "")
    (h : d.find path = .ok .directory) :
    (makeDirectories path : StateM FaultyDisk _) ⟨d, []⟩
      = (.ok (), ⟨d, []⟩) := by
  obtain ⟨around, haround⟩ :
      ∃ around, ancestry path.length path = path :: around := by
    cases hlength : path.length with
    | zero => exact absurd (String.length_eq_zero_iff.1 hlength) hne
    | succ n =>
      rw [ancestry, if_neg hne]
      split <;> exact ⟨_, rfl⟩
  have hact : Disk.change (Disk.makeDirectory path) d
      = (.error SystemError.alreadyThere.toFileError, d) := by
    rw [Disk.change, act, makeDirectory_of_find h]
    rfl
  have hmake : (makeDirectory path : StateM FaultyDisk _) ⟨d, []⟩
      = (.error SystemError.alreadyThere.toFileError, ⟨d, []⟩) :=
    attempt_nil hact
  have hthere : (isDirectory path : StateM FaultyDisk _) ⟨d, []⟩
      = (true, ⟨d, []⟩) := by
    have hask := isDirectory_eq path d
    rw [h] at hask
    exact ask_nil hask
  have hkind : SystemError.alreadyThere.toFileError.kind ≠ .notFound := by decide
  rw [makeDirectories, haround, makeAll, bind_apply, hmake]
  simp only [if_neg hkind]
  rw [bind_apply, hthere]
  rfl

/-- Where the lock file is within reach, there is room for it. -/
theorem makeRoomFor_of_reaches {path : String} (h : d.Reaches path) :
    (makeRoomFor (lockOf path) : StateM FaultyDisk _) ⟨d, []⟩
      = (.ok (), ⟨d, []⟩) := by
  have hname : isName (fileName (lockOf path)) := by
    rw [lockOf, fileName_append (by decide)]
    exact isName_append _ (by decide)
  rw [makeRoomFor]
  cases hparent : parent? (lockOf path) with
  | none => rfl
  | some directory =>
    by_cases hempty : directory = ""
    · subst hempty
      rfl
    · obtain ⟨⟨rest, hrest⟩, hfront⟩ := parent?_spec hname hparent hempty
      have htaken : IsTaken directory := by
        have := h.taken
        rw [hrest] at this
        exact this.of_append
      have hleads : d.Leads (directories (lockOf path)) := by
        rw [lockOf, directories_append (by decide)]
        exact h.leads
      have hfind := find_of_leads htaken hempty (hleads.of_prefix hfront)
      simp only
      rw [bind_apply, makeDirectories_of_find hempty hfind]
      rfl

/-- An attempt to take a lock that is held runs into the timeout. -/
theorem acquire_of_isHeld {path : String} {number : LockNumber}
    (h : IsHeld path number d) (timeout : Nat) :
    (acquire (lockOf path) timeout : StateM FaultyDisk _) ⟨d, []⟩
      = (.error (.lockTimeout (lockOf path) timeout), ⟨d, []⟩) := by
  have hact : act (Disk.lock (lockOf path)) d = (.ok none, d) := by
    rw [act, lock_of_isHeld h]
  have hlock : (lock (lockOf path) timeout : StateM FaultyDisk _) ⟨d, []⟩
      = (.ok none, ⟨d, []⟩) :=
    attempt_nil hact
  rw [acquire, bind_apply, makeRoomFor_of_reaches h.reaches]
  simp only
  rw [bind_apply, hlock]
  rfl

/-- A lock that is there to be taken is taken. -/
theorem acquire_of_isAvailable {path : String} {number : LockNumber}
    (h : IsAvailable path number d) (timeout : Nat) :
    (acquire (lockOf path) timeout : StateM FaultyDisk _) ⟨d, []⟩
      = (.ok number, ⟨d.hold number, []⟩) := by
  have hact : act (Disk.lock (lockOf path)) d
      = (.ok (some number), d.hold number) := by
    rw [act, lock_of_isAvailable h]
  have hlock : (lock (lockOf path) timeout : StateM FaultyDisk _) ⟨d, []⟩
      = (.ok (some number), ⟨d.hold number, []⟩) :=
    attempt_nil hact
  rw [acquire, bind_apply, makeRoomFor_of_reaches h.reaches]
  simp only
  rw [bind_apply, hlock]
  rfl

/-! ## Writing a database -/

theorem ensures_giveUp (path : String) (err : StorageError) :
    Ensures (giveUp (temporaryOf path) err) d fun r e =>
      r = .error err ∧ Spares path d e := by
  refine ensures_change.bind fun r e h => ensures_pure ⟨rfl, ?_⟩
  rcases h with ⟨-, -, rfl⟩ | ⟨-, hremove⟩
  · exact .refl _ _ _
  · exact (keeps_remove (place?_temporaryOf path) hremove).mono
      (List.nil_subset _) (by simp)

/-- A file beside a database that was filled. -/
theorem spares_fill {path : String} {data : ByteArray}
    (h : d.fill (temporaryOf path) data = .ok e) :
    Spares path d e ∧
      ∃ number, e.file? (temporaryPlace path) = some (number, data) := by
  obtain ⟨place, number, hnames, hfile, hkeeps⟩ := keeps_fill h
  obtain rfl :=
    Option.some.inj ((place?_temporaryOf path).symm.trans hnames.place?_eq)
  exact ⟨hkeeps.mono (by simp) (by simp), number, hfile⟩

/-- A database that is written has its new content, or else the one that it
had. -/
theorem ensures_atomicWrite (path : String) (data : ByteArray) :
    Ensures (atomicWrite path data) d fun r e =>
      (∃ err, r = .error err ∧ Spares path d e) ∨
        r = .ok () ∧ Commits path data d e := by
  refine (ensures_makeRoomFor _).bind fun r f hf => ?_
  have hroom : Spares path d f := .of_keeps hf
  cases r with
  | error err => exact ensures_pure (.inl ⟨err, rfl, hroom⟩)
  | ok u =>
    refine ensures_change.bind fun r g hg => ?_
    rcases hg with ⟨err, rfl, rfl⟩ | ⟨rfl, hcreate⟩
    · exact ensures_pure (.inl ⟨_, rfl, hroom⟩)
    have hcreated := hroom.trans (spares_fill hcreate).1
    refine ensures_change.bind fun r h hh => ?_
    rcases hh with ⟨err, rfl, rfl⟩ | ⟨rfl, hwrite⟩
    · exact (ensures_giveUp path _).mono
        fun r e he => .inl ⟨_, he.1, hcreated.trans he.2⟩
    obtain ⟨hspares, number, hfile⟩ := spares_fill hwrite
    have hwritten := hcreated.trans hspares
    refine ensures_change.bind fun r i hi => ?_
    rcases hi with ⟨err, rfl, rfl⟩ | ⟨rfl, hrename⟩
    · exact (ensures_giveUp path _).mono
        fun r e he => .inl ⟨_, he.1, hwritten.trans he.2⟩
    · exact ensures_pure
        (.inr ⟨rfl, (commits_rename hfile hrename).of_spares hwritten⟩)

end FaultyDisk

end SettingsArchive
