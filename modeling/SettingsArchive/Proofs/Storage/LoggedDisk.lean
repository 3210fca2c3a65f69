import SettingsArchive.Proofs.Storage.Erasure
import SettingsArchive.Proofs.Storage.Session
import SettingsArchive.Proofs.Storage.Simulation

/-!
# Disks with a logger

What a program logs goes into a file of the disk that it works on.  On a logged
disk anything may have been appended to the open log file when an operation is
done, whatever the file is, and an operation may fail as on a faulty disk.  A
question may be doubted too: asking whether something is there may fail, and a
question that fails is answered with no.

A log file that is neither the database nor the temporary file beside it makes no
difference to opening and saving the database (`isSimulation_shadows`).  A logged
disk then does what a faulty disk does on which the log file is empty, as long as
questions are answered truthfully: see `Shadows`.
-/

namespace SettingsArchive

/-- A disk, what goes wrong with the operations on it and the questions, one
after the other, the number of the log file if it is open, and what is logged
behind each operation. -/
structure LoggedDisk where
  disk : Disk
  faults : List (Option FileError) := []
  doubts : List Bool := []
  log : Option Nat := none
  lines : List ByteArray := []

namespace LoggedDisk

/-- What was logged is in the log file. -/
def logged (s : LoggedDisk) : LoggedDisk :=
  { s with
    disk := match s.log with
      | none => s.disk
      | some number => s.disk.append number (s.lines.headD .empty)
    lines := s.lines.tail }

/-- An operation that may fail, and what is logged behind it. -/
def attempt {α : Type} (x : StateM FaultyDisk α) : StateM LoggedDisk α :=
  fun s =>
    let (answer, t) := x ⟨s.disk, s.faults⟩
    (answer, { s with disk := t.disk, faults := t.faults }.logged)

/-- A question.  If asking fails, the answer is no. -/
def ask (x : StateM FaultyDisk Bool) : StateM LoggedDisk Bool := fun s =>
  let (answer, t) := attempt x s
  (answer && !s.doubts.headD false, { t with doubts := s.doubts.tail })

/-- Opens the log file. -/
def openLog (path : String) : StateM LoggedDisk (Except FileError Unit) :=
  fun s =>
    match attempt (FaultyDisk.attempt (Disk.act (Disk.openLog path))) s with
    | (.ok number, t) => (.ok (), { t with log := some number }.logged)
    | (.error e, t) => (.error e, t)

instance : FileSystem (StateM LoggedDisk) where
  makeDirectory path := attempt (FileSystem.makeDirectory path)
  isDirectory path := ask (FileSystem.isDirectory path)
  isThere path := ask (FileSystem.isThere path)
  readText path := attempt (FileSystem.readText path)
  create path := attempt (FileSystem.create path)
  openLog path := openLog path
  write path data := attempt (FileSystem.write path data)
  rename source target := attempt (FileSystem.rename source target)
  remove path := attempt (FileSystem.remove path)
  lock path timeout := attempt (FileSystem.lock path timeout)
  unlock number := attempt (FileSystem.unlock number)

/-- The answer of a computation on a disk with a logger, and the disk behind
it. -/
abbrev after {α : Type} (s : LoggedDisk) (x : StateM LoggedDisk α) :
    α × LoggedDisk :=
  x s

theorem after_bind {α β : Type} (s : LoggedDisk) (x : StateM LoggedDisk α)
    (f : α → StateM LoggedDisk β) :
    s.after (x >>= f) = (s.after x).2.after (f (s.after x).1) :=
  rfl

/-! ## Disks on which the log file is empty -/

open Disk FilePath FileSystem

/-- A logged disk on which no question is doubted, and the faulty disk that has
nothing in the log file, which is not the database. -/
structure Shadows (path : String) (log : Option Nat) (s : LoggedDisk)
    (t : FaultyDisk) : Prop where
  log_eq : s.log = log
  disk : t.disk = s.disk.erase log
  faults : t.faults = s.faults
  doubts : s.doubts = []
  apart : ∀ number, log = some number → Apart number path s.disk

/-- An operation on a disk that does not see what is in the log file, and keeps
it apart from the database. -/
structure Ignores {α : Type} (path : String) (log : Option Nat)
    (run : Disk → Except SystemError (α × Disk)) (d : Disk) : Prop where
  same : run (d.erase log) = (run d).map (erasing log)
  apart : ∀ a e, run d = .ok (a, e) →
    ∀ number, log = some number → Apart number path e

variable {α β : Type} {path : String} {log : Option Nat} {s : LoggedDisk}
  {t : FaultyDisk}

/-- What is logged cannot be seen. -/
theorem Shadows.logged (h : Shadows path log s t) :
    Shadows path log s.logged t where
  log_eq := h.log_eq
  disk := by
    rw [h.disk, LoggedDisk.logged, h.log_eq]
    cases log with
    | none => rfl
    | some number => exact (erase_append number _ s.disk).symm
  faults := h.faults
  doubts := h.doubts
  apart := by
    intro number hnumber
    rw [LoggedDisk.logged, h.log_eq, hnumber]
    exact (h.apart number hnumber).append number _

/-- Operations that do not see the log file agree. -/
theorem simulates_act {run : Disk → Except SystemError (α × Disk)}
    (h : ∀ d, (∀ number, log = some number → Apart number path d) →
      Ignores path log run d) :
    Simulates (Shadows path log) (attempt (FaultyDisk.attempt (act run)))
      (FaultyDisk.attempt (act run)) := by
  intro s t hst
  have hfaults := hst.faults
  have hdisk := hst.disk
  have hrun := h s.disk hst.apart
  obtain ⟨d, faults⟩ := t
  obtain rfl : faults = s.faults := hfaults
  obtain rfl : d = s.disk.erase log := hdisk
  -- what the operation does where nothing goes wrong
  have hact : ∀ rest, (act run (s.disk.erase log)).1 = (act run s.disk).1 ∧
      Shadows path log { s with disk := (act run s.disk).2, faults := rest }
        ⟨(act run (s.disk.erase log)).2, rest⟩ := by
    intro rest
    unfold act
    rw [hrun.same]
    cases hd : run s.disk with
    | error err =>
      exact ⟨rfl, { hst with disk := rfl, faults := rfl }⟩
    | ok answer =>
      obtain ⟨a, e⟩ := answer
      exact ⟨rfl, { hst with
        disk := rfl, faults := rfl, apart := hrun.apart a e hd }⟩
  have hattempt : (FaultyDisk.attempt (act run) ⟨s.disk, s.faults⟩).1 =
        (FaultyDisk.attempt (act run) ⟨s.disk.erase log, s.faults⟩).1 ∧
      Shadows path log { s with
        disk := (FaultyDisk.attempt (act run) ⟨s.disk, s.faults⟩).2.disk
        faults := (FaultyDisk.attempt (act run) ⟨s.disk, s.faults⟩).2.faults }
        (FaultyDisk.attempt (act run) ⟨s.disk.erase log, s.faults⟩).2 := by
    cases s.faults with
    | nil => exact ⟨(hact []).1.symm, (hact []).2⟩
    | cons fault faults =>
      cases fault with
      | none => exact ⟨(hact faults).1.symm, (hact faults).2⟩
      | some err =>
        exact ⟨rfl, { hst with disk := rfl, faults := rfl }⟩
  exact ⟨hattempt.1, hattempt.2.logged⟩

theorem simulates_change {run : Disk → Except SystemError Disk}
    (hsame : ∀ d, (∀ number, log = some number → Apart number path d) →
      run (d.erase log) = (run d).map (erase log))
    (hapart : ∀ d e number, Apart number path d → run d = .ok e →
      Apart number path e) :
    Simulates (Shadows path log) (attempt (FaultyDisk.attempt (Disk.change run)))
      (FaultyDisk.attempt (Disk.change run)) := by
  apply simulates_act
  intro d hd
  refine ⟨?_, fun a e h number hnumber => ?_⟩
  · rw [hsame d hd]
    cases run d <;> rfl
  · obtain ⟨f, hf, heq⟩ := map_eq_ok h
    obtain ⟨-, rfl⟩ := Prod.mk.inj heq
    exact hapart d f number (hd number hnumber) hf

/-- Questions whose answer does not depend on the log file agree. -/
theorem simulates_ask {run : StateM Disk Bool}
    (h : ∀ d, run d = ((run d).1, d) ∧ (run (d.erase log)).1 = (run d).1) :
    Simulates (Shadows path log) (ask (FaultyDisk.ask run)) (FaultyDisk.ask run) := by
  intro s t hst
  have hs : FaultyDisk.ask run ⟨s.disk, s.faults⟩ =
      ((run s.disk).1, ⟨s.disk, s.faults⟩) := by
    rw [FaultyDisk.ask, (h s.disk).1]
  have ht : FaultyDisk.ask run t = ((run s.disk).1, t) := by
    rw [FaultyDisk.ask, (h t.disk).1, hst.disk, (h s.disk).2, ← hst.disk]
  have hask : ask (FaultyDisk.ask run) s =
      ((run s.disk).1, { s.logged with doubts := s.doubts.tail }) := by
    rw [ask, attempt, hs, hst.doubts]
    simp only [List.headD_nil, Bool.not_false, Bool.and_true]
    rfl
  rw [hask, ht]
  exact ⟨rfl, { hst.logged with doubts := by rw [hst.doubts]; rfl }⟩

/-! ## Operations -/

theorem simulates_makeDirectory (path : String) (log : Option Nat)
    (directory : String) :
    Simulates (Shadows path log) (makeDirectory directory) (makeDirectory directory) :=
  simulates_change (fun d _ => makeDirectory_erase log d directory)
    fun _ _ _ h hmade => h.of_keeps (keeps_makeDirectory hmade)

theorem simulates_isDirectory (path : String) (log : Option Nat)
    (directory : String) :
    Simulates (Shadows path log) (isDirectory directory) (isDirectory directory) := by
  apply simulates_ask
  intro d
  have hfind := find_erase log d directory
  rw [Disk.isDirectory_eq, Disk.isDirectory_eq, hfind]
  refine ⟨rfl, ?_⟩
  cases d.find directory with
  | error err => rfl
  | ok node => cases node <;> rfl

theorem simulates_isThere (path : String) (log : Option Nat) (file : String) :
    Simulates (Shadows path log) (isThere file) (isThere file) := by
  apply simulates_ask
  intro d
  refine ⟨rfl, ?_⟩
  change ((d.erase log).find file).toBool = (d.find file).toBool
  rw [find_erase]
  cases d.find file <;> rfl

theorem simulates_readText (file : String)
    (h : ∀ d, (∀ number, log = some number → Apart number path d) →
      ∀ n x, d.find file = .ok (.file n x) → log ≠ some n) :
    Simulates (Shadows path log) (readText file) (readText file) := by
  apply simulates_act
  intro d hd
  refine ⟨?_, fun a e hread => ?_⟩
  · rw [readText_erase (h d hd)]
    cases d.readText file <;> rfl
  · obtain ⟨text, -, heq⟩ := map_eq_ok hread
    obtain ⟨-, rfl⟩ := Prod.mk.inj heq
    exact hd

/-- The database is not the log file. -/
theorem simulates_readText_self (path : String) (log : Option Nat) :
    Simulates (Shadows path log) (readText path) (readText path) := by
  apply simulates_readText
  rintro d hd n x hfind rfl
  obtain ⟨p, hp, hfile⟩ := file?_of_find hfind
  exact (hd n rfl).database p hp _ hfile rfl

theorem simulates_fill (path : String) (log : Option Nat) (data : ByteArray) :
    Simulates (Shadows path log)
      (attempt (FaultyDisk.attempt (Disk.change (fill (temporaryOf path) data))))
      (FaultyDisk.attempt (Disk.change (fill (temporaryOf path) data))) := by
  apply simulates_change
  · intro d hd
    apply fill_erase
    rintro p n x e hopen rfl
    exact (hd n rfl).ne_of_openFile hopen rfl
  · exact fun d e number h hfill => h.of_fill hfill

theorem simulates_rename (path : String) (log : Option Nat) :
    Simulates (Shadows path log) (rename (temporaryOf path) path)
      (rename (temporaryOf path) path) :=
  simulates_change (fun d _ => rename_erase log d _ _)
    fun _ _ _ h hrename => h.of_rename hrename

theorem simulates_remove (path : String) (log : Option Nat) :
    Simulates (Shadows path log) (remove (temporaryOf path)) (remove (temporaryOf path)) :=
  simulates_change (fun d _ => remove_erase log d _)
    fun _ _ _ h hremove => h.of_remove hremove

theorem simulates_lock (path : String) (log : Option Nat) (file : String)
    (timeout : Nat) :
    Simulates (Shadows path log) (lock file timeout) (lock file timeout) :=
  simulates_act fun d hd => ⟨lock_erase log d file,
    fun _ _ hlock number hnumber => (hd number hnumber).of_lock hlock⟩

theorem simulates_unlock (path : String) (log : Option Nat) (number : LockNumber) :
    Simulates (Shadows path log) (unlock number) (unlock number) := by
  intro s t hst
  have hunlocked : Shadows path log { s with disk := s.disk.unlock number }
      ⟨t.disk.unlock number, t.faults⟩ :=
    { hst with
      disk := by rw [hst.disk]; rfl
      apart := fun n hn =>
        ⟨(hst.apart n hn).next, (hst.apart n hn).database,
          (hst.apart n hn).temporary⟩ }
  exact ⟨rfl, hunlocked.logged⟩

/-- A database is opened and saved with the same answers, whatever is logged. -/
theorem isSimulation_shadows (path : String) (log : Option Nat) :
    IsSimulation (Shadows path log) path where
  makeDirectory := simulates_makeDirectory path log
  isDirectory := simulates_isDirectory path log
  isThere := simulates_isThere path log path
  readText := simulates_readText_self path log
  create := simulates_fill path log .empty
  write := simulates_fill path log
  rename := simulates_rename path log
  remove := simulates_remove path log
  lock := simulates_lock path log
  unlock := simulates_unlock path log

/-- A log file that cannot be opened leaves the disk alone.  If it is opened, its
number is that of the log from then on, and something may have been logged. -/
theorem openLog_cases (path : String) {s : LoggedDisk} (hlog : s.log = none) :
    (openLog path s).2.doubts = s.doubts ∧
      ((openLog path s).2.disk = s.disk ∧ (openLog path s).2.log = none ∨
        ∃ number e more, s.disk.openLog path = .ok (number, e) ∧
          (openLog path s).2.disk = e.append number more ∧
          (openLog path s).2.log = some number) := by
  have hopens : FaultyDisk.Ensures
      (FaultyDisk.attempt (act (Disk.openLog path))) s.disk _ :=
    FaultyDisk.ensures_attempt
  have hcases := hopens s.faults
  unfold openLog attempt
  generalize FaultyDisk.attempt (act (Disk.openLog path)) ⟨s.disk, s.faults⟩ =
    outcome at hcases
  obtain ⟨answer, t⟩ := outcome
  rcases hcases with ⟨err, rfl, hdisk⟩ | ⟨number, rfl, hopen⟩
  · refine ⟨rfl, Or.inl ⟨?_, hlog⟩⟩
    simp only [logged, hlog]
    exact hdisk
  · refine ⟨rfl, Or.inr ⟨number, t.disk, s.lines.tail.headD .empty, hopen, ?_,
      rfl⟩⟩
    simp only [logged, hlog]

end LoggedDisk

end SettingsArchive
