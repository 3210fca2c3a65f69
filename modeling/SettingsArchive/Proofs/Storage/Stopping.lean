import SettingsArchive.Proofs.Storage.FaultyDisk

/-!
# Processes that stop

A process works on a disk, which may be of any kind, and something becomes of
each of its operations: it is carried out, it fails, or the process stops in it
or right after it.  An operation that is not carried out leaves the disk alone,
but a write may have come as far as some bytes of its file.  A renaming happens
at once.  Where the process stops, the disk is the one that the next process
finds.  Questions are answered as the disk answers them.

`Runs` is what holds of the answer of a process and of the host behind it,
and what holds of the host if it stops, for what becomes of its operations
on that host.
-/

namespace SettingsArchive

/-- What becomes of an operation.  `part` is what a write has left in its
file. -/
inductive Fate where
  | done
  | fails (error : FileError) (part : ByteArray)
  | stops (part : ByteArray)
  | stopsAfter

/-- What is noted about a file: that a process created it, or that it was not
removed because that failed for reasons of its own. -/
inductive Event where
  | created (path : String)
  | notRemoved (path : String)
deriving DecidableEq

/-- A disk, what becomes of the operations on it, one after the other, and what
was noted so far, the last first.  Operations for which nothing is planned are
carried out. -/
structure Host (δ : Type) where
  disk : δ
  fates : List Fate
  log : List Event := []

/-- A computation that may stop before it has an answer. -/
abbrev Process (δ : Type) := OptionT (StateM (Host δ))

namespace Host

variable {δ α β : Type}

/-- An operation of a process: what it does to the disk, what it leaves if it
breaks off, and what is noted if it succeeds or fails. -/
structure Task (δ α : Type) where
  run : StateM δ (Except FileError α)
  broken : ByteArray → δ → δ := fun _ d => d
  done : List Event := []
  failed : List Event := []

/-- Carries out an operation, which may still find that the disk forbids it. -/
def Task.carryOut (t : Task δ α) (s : Host δ) : Except FileError α × Host δ :=
  let (answer, disk) := t.run s.disk
  (answer, { s with
    disk
    log := if answer.toBool then t.done ++ s.log else s.log })

/-- Leaves an operation where it breaks off. -/
def Task.breakOff (t : Task δ α) (part : ByteArray) (s : Host δ) : Host δ :=
  { s with disk := t.broken part s.disk }

/-- The host when what becomes of one operation is settled. -/
def next (s : Host δ) : Host δ :=
  { s with fates := s.fates.tail }

/-- What becomes of an operation is what is planned next. -/
def perform (t : Task δ α) : Process δ (Except FileError α) :=
  OptionT.mk fun s =>
    match s.fates.headD .done with
    | .done => (some (t.carryOut s.next).1, (t.carryOut s.next).2)
    | .fails e part =>
      (some (.error e), { t.breakOff part s.next with log := t.failed ++ s.log })
    | .stops part => (none, t.breakOff part s.next)
    | .stopsAfter => (none, (t.carryOut s.next).2)

/-- An operation in which nothing goes wrong. -/
def ask (run : StateM δ α) : Process δ α :=
  OptionT.mk fun s =>
    let (answer, disk) := run s.disk
    (some answer, { s with disk })

instance [FileSystem (StateM δ)] : FileSystem (Process δ) where
  makeDirectory path := perform { run := FileSystem.makeDirectory path }
  isDirectory path := ask (FileSystem.isDirectory path)
  isThere path := ask (FileSystem.isThere path)
  readText path := perform { run := FileSystem.readText path }
  create path := perform {
    run := FileSystem.create path
    done := [.created path] }
  openLog path := perform { run := FileSystem.openLog path }
  write path data := perform {
    run := FileSystem.write path data
    broken := fun part d => ((FileSystem.write path part : StateM δ _) d).2 }
  rename source target := perform { run := FileSystem.rename source target }
  remove path := perform {
    run := FileSystem.remove path
    failed := [.notRemoved path] }
  lock path timeout := perform { run := FileSystem.lock path timeout }
  unlock number := ask (FileSystem.unlock number)

/-- The answer of a process that begins on a disk, unless it stops, and the
host behind it. -/
def start (x : Process δ α) (d : δ) (fates : List Fate) : Option α × Host δ :=
  x.run { disk := d, fates }

/-! ## What holds behind a process -/

/-- What holds of the answer of a process and of the host behind it, and
what holds of the host if the process stops. -/
def Runs (x : Process δ α) (s : Host δ) (post : α → Host δ → Prop)
    (stop : Host δ → Prop) : Prop :=
  match (x.run s).1 with
  | some a => post a (x.run s).2
  | none => stop (x.run s).2

variable {s : Host δ}

theorem runs_pure {a : α} {post : α → Host δ → Prop} {stop : Host δ → Prop}
    (h : post a s) : Runs (pure a) s post stop :=
  h

theorem Runs.mono {x : Process δ α} {mid post : α → Host δ → Prop}
    {halt stop : Host δ → Prop} (h : Runs x s mid halt)
    (hpost : ∀ a t, mid a t → post a t) (hstop : ∀ t, halt t → stop t) :
    Runs x s post stop := by
  revert h
  unfold Runs
  cases (x.run s).1 with
  | some a => exact hpost a _
  | none => exact hstop _

theorem bind_run (x : Process δ α) (f : α → Process δ β) (s : Host δ) :
    (x >>= f).run s = match (x.run s).1 with
      | some a => (f a).run (x.run s).2
      | none => (none, (x.run s).2) := by
  change (match (x.run s).1 with
    | some a => (f a).run
    | none => pure none : StateM (Host δ) (Option β)) (x.run s).2 = _
  cases (x.run s).1 <;> rfl

/-- A process that goes on after another one, which may stop there too. -/
theorem Runs.bind {x : Process δ α} {f : α → Process δ β}
    {mid : α → Host δ → Prop} {post : β → Host δ → Prop}
    {halt stop : Host δ → Prop} (h : Runs x s mid halt)
    (hstop : ∀ t, halt t → stop t)
    (hf : ∀ a t, mid a t → Runs (f a) t post stop) :
    Runs (x >>= f) s post stop := by
  revert h
  unfold Runs
  rw [bind_run]
  cases (x.run s).1 with
  | some a => exact hf a _
  | none => exact hstop _

theorem perform_run (t : Task δ α) (s : Host δ) :
    (perform t).run s = match s.fates.headD .done with
      | .done => (some (t.carryOut s.next).1, (t.carryOut s.next).2)
      | .fails e part =>
        (some (.error e), { t.breakOff part s.next with log := t.failed ++ s.log })
      | .stops part => (none, t.breakOff part s.next)
      | .stopsAfter => (none, (t.carryOut s.next).2) :=
  rfl

/-- An operation that is carried out is refused by the disk or changes it. -/
theorem change_cases (run : δ → Except SystemError δ) (d : δ) :
    (∃ err e, run d = .error err ∧ Disk.change run d = (.error e, d)) ∨
      ∃ e, run d = .ok e ∧ Disk.change run d = (.ok (), e) := by
  rw [Disk.change, Disk.act]
  cases run d with
  | error err => exact .inl ⟨err, _, rfl, rfl⟩
  | ok e => exact .inr ⟨e, rfl, rfl⟩

/-- What comes of an operation that changes the disk. -/
theorem runs_perform {t : Task δ Unit} (run : δ → Except SystemError δ)
    (hrun : t.run = Disk.change run) :
    Runs (perform t) s
      (fun r u => (r = .ok () ∧ run s.disk = .ok u.disk ∧ u.log = t.done ++ s.log) ∨
        ∃ e, r = .error e ∧
          (((∃ err, run s.disk = .error err) ∧ u.disk = s.disk ∧ u.log = s.log) ∨
            ∃ part, u.disk = t.broken part s.disk ∧ u.log = t.failed ++ s.log))
      (fun u => (u.disk = s.disk ∧ u.log = s.log) ∨
        (run s.disk = .ok u.disk ∧ u.log = t.done ++ s.log) ∨
          ∃ part, u.disk = t.broken part s.disk ∧ u.log = s.log) := by
  have hout : (∃ err e, run s.disk = .error err ∧
        t.carryOut s.next = (.error e, s.next)) ∨
      ∃ e, run s.disk = .ok e ∧ t.carryOut s.next
        = (.ok (), { s.next with disk := e, log := t.done ++ s.log }) := by
    have hnext : s.next.disk = s.disk := rfl
    rw [Task.carryOut, hrun, hnext]
    rcases change_cases run s.disk with ⟨err, e, herr, hchange⟩ | ⟨e, hok, hchange⟩ <;>
      rw [hchange]
    · exact .inl ⟨err, e, herr, rfl⟩
    · exact .inr ⟨e, hok, rfl⟩
  rw [Runs, perform_run]
  cases s.fates.headD .done with
  | done =>
    rcases hout with ⟨err, e, herr, hout⟩ | ⟨e, hok, hout⟩ <;> rw [hout]
    · exact .inr ⟨e, rfl, .inl ⟨⟨err, herr⟩, rfl, rfl⟩⟩
    · exact .inl ⟨rfl, hok, rfl⟩
  | fails e part => exact .inr ⟨e, rfl, .inr ⟨part, rfl, rfl⟩⟩
  | stops part => exact .inr (.inr ⟨part, rfl, rfl⟩)
  | stopsAfter =>
    rcases hout with ⟨err, e, herr, hout⟩ | ⟨e, hok, hout⟩ <;> rw [hout]
    · exact .inl ⟨rfl, rfl⟩
    · exact .inr (.inl ⟨hok, rfl⟩)

/-- An operation that breaks off without a trace changes the disk or leaves it
alone. -/
theorem runs_whole {t : Task δ Unit} (run : δ → Except SystemError δ)
    (hrun : t.run = Disk.change run) (hwhole : ∀ part d, t.broken part d = d) :
    Runs (perform t) s
      (fun r u => (r = .ok () ∧ run s.disk = .ok u.disk ∧ u.log = t.done ++ s.log) ∨
        ∃ e, r = .error e ∧ u.disk = s.disk ∧
          (((∃ err, run s.disk = .error err) ∧ u.log = s.log) ∨
            u.log = t.failed ++ s.log))
      (fun u => (u.disk = s.disk ∧ u.log = s.log) ∨
        (run s.disk = .ok u.disk ∧ u.log = t.done ++ s.log)) := by
  apply (runs_perform run hrun).mono
  · intro r u h
    rcases h with h | ⟨e, hr, ⟨herr, hdisk, hlog⟩ | ⟨part, hdisk, hlog⟩⟩
    · exact .inl h
    · exact .inr ⟨e, hr, hdisk, .inl ⟨herr, hlog⟩⟩
    · exact .inr ⟨e, hr, hdisk.trans (hwhole part _), .inr hlog⟩
  · intro u h
    rcases h with h | h | ⟨part, hdisk, hlog⟩
    · exact .inl h
    · exact .inr h
    · exact .inl ⟨hdisk.trans (hwhole part _), hlog⟩

theorem runs_ask {run : StateM δ α} {a : α} {stop : Host δ → Prop}
    (h : run s.disk = (a, s.disk)) :
    Runs (ask run) s (fun b t => b = a ∧ t = s) stop := by
  have hask : (ask run).run s = (some a, s) := by
    change (some (run s.disk).1, { s with disk := (run s.disk).2 }) = _
    rw [h]
  rw [Runs, hask]
  exact ⟨rfl, rfl⟩

/-! ## Making room -/

/-- A relation between disks that is kept to where directories are made and
asked for. -/
structure IsGrowth [FileSystem (StateM δ)] (grows : δ → δ → Prop) : Prop where
  refl : ∀ d, grows d d
  trans : ∀ {d e f}, grows d e → grows e f → grows d f
  isDirectory : ∀ path d,
    ((FileSystem.isDirectory path : StateM δ _) d).2 = d
  makeDirectory : ∀ path, ∃ run : δ → Except SystemError δ,
    (FileSystem.makeDirectory path : StateM δ _) = Disk.change run ∧
      ∀ d e, run d = .ok e → grows d e

variable [FileSystem (StateM δ)] {grows : δ → δ → Prop}

/-- Whatever becomes of the steps, nothing but such a growth happens, also where
the process stops. -/
theorem IsGrowth.isStepwise (h : IsGrowth grows) :
    FileSystem.IsStepwise fun α (x : Process δ α) => ∀ s, Runs x s
      (fun _ t => grows s.disk t.disk ∧ t.log = s.log)
      (fun t => grows s.disk t.disk ∧ t.log = s.log) where
  finished a s := runs_pure ⟨h.refl _, rfl⟩
  andThen hx hf s := by
    apply (hx s).bind
    · exact fun _ hst => hst
    · intro a t hst
      exact (hf a t).mono
        (fun _ _ htu => ⟨h.trans hst.1 htu.1, htu.2.trans hst.2⟩)
        fun _ htu => ⟨h.trans hst.1 htu.1, htu.2.trans hst.2⟩
  isDirectory path s := by
    have hask : (FileSystem.isDirectory path : StateM δ _) s.disk
        = (((FileSystem.isDirectory path : StateM δ _) s.disk).1, s.disk) :=
      Prod.ext rfl (h.isDirectory path s.disk)
    apply (runs_ask hask).mono
    · rintro _ _ ⟨-, rfl⟩
      exact ⟨h.refl _, rfl⟩
    · exact fun _ hstop => hstop
  makeDirectory path s := by
    obtain ⟨run, hrun, hmade⟩ := h.makeDirectory path
    apply (runs_whole run hrun fun _ _ => rfl).mono
    · intro r t ht
      rcases ht with ⟨-, hok, hlog⟩ | ⟨e, -, hdisk, hlog⟩
      · exact ⟨hmade _ _ hok, hlog⟩
      · rw [hdisk]
        exact ⟨h.refl _, hlog.elim And.right id⟩
    · intro t ht
      rcases ht with ⟨hdisk, hlog⟩ | ⟨hok, hlog⟩
      · rw [hdisk]
        exact ⟨h.refl _, hlog⟩
      · exact ⟨hmade _ _ hok, hlog⟩

theorem IsGrowth.makeRoomFor (h : IsGrowth grows) (path : String) (s : Host δ) :
    Runs (FileSystem.makeRoomFor path) s
      (fun _ t => grows s.disk t.disk ∧ t.log = s.log)
      (fun t => grows s.disk t.disk ∧ t.log = s.log) :=
  h.isStepwise.makeRoomFor path s

end Host

end SettingsArchive
