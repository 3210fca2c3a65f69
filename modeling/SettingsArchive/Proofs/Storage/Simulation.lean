import SettingsArchive.Storage.Session

/-!
# Computations on two kinds of disks

Two computations on disks of different kinds correspond if they give the same
answer wherever the disks correspond, and leave disks that correspond.
`IsSimulation` asks this of the operations that are done on the files of a
database.  Whatever is built from these operations corresponds then: reading and
writing the database, and opening and closing a session.
-/

namespace SettingsArchive

variable {σ τ α β : Type}

/-- Two computations give the same answer on disks that correspond, and leave
disks that correspond. -/
def Simulates (R : σ → τ → Prop) (x : StateM σ α) (y : StateM τ α) : Prop :=
  ∀ s t, R s t → (x s).1 = (y t).1 ∧ R (x s).2 (y t).2

variable {R : σ → τ → Prop}

theorem simulates_pure (a : α) :
    Simulates R (pure a : StateM σ α) (pure a : StateM τ α) :=
  fun _ _ h => ⟨rfl, h⟩

/-- Computations that correspond may go on with answers of which something is
known. -/
theorem Simulates.bind_of {x : StateM σ α} {y : StateM τ α} {f : α → StateM σ β}
    {g : α → StateM τ β} {P : α → Prop} (h : Simulates R x y)
    (hP : ∀ t, P (y t).1) (hf : ∀ a, P a → Simulates R (f a) (g a)) :
    Simulates R (x >>= f) (y >>= g) := by
  intro s t hst
  obtain ⟨hanswer, hrest⟩ := h s t hst
  have hgo := hf (y t).1 (hP t) (x s).2 (y t).2 hrest
  change (f (x s).1 (x s).2).1 = _ ∧ R (f (x s).1 (x s).2).2 _
  rw [hanswer]
  exact hgo

theorem Simulates.bind {x : StateM σ α} {y : StateM τ α} {f : α → StateM σ β}
    {g : α → StateM τ β} (h : Simulates R x y)
    (hf : ∀ a, Simulates R (f a) (g a)) : Simulates R (x >>= f) (y >>= g) :=
  h.bind_of (P := fun _ => True) (fun _ => trivial) fun a _ => hf a

open FileSystem FilePath

/-- The operations on the files of a database correspond. -/
structure IsSimulation [FileSystem (StateM σ)] [FileSystem (StateM τ)]
    (R : σ → τ → Prop) (path : String) : Prop where
  makeDirectory : ∀ directory,
    Simulates R (makeDirectory directory) (makeDirectory directory)
  isDirectory : ∀ directory,
    Simulates R (isDirectory directory) (isDirectory directory)
  isThere : Simulates R (isThere path) (isThere path)
  readText : Simulates R (readText path) (readText path)
  create : Simulates R (create (temporaryOf path)) (create (temporaryOf path))
  write : ∀ data,
    Simulates R (write (temporaryOf path) data) (write (temporaryOf path) data)
  rename : Simulates R (rename (temporaryOf path) path)
    (rename (temporaryOf path) path)
  remove : Simulates R (remove (temporaryOf path)) (remove (temporaryOf path))
  lock : ∀ file timeout, Simulates R (lock file timeout) (lock file timeout)
  unlock : ∀ number, Simulates R (unlock number) (unlock number)

namespace IsSimulation

variable [FileSystem (StateM σ)] [FileSystem (StateM τ)] {path : String}

/-! ## Making room -/

theorem ensureDirectory (h : IsSimulation R path) (directory : String) :
    Simulates R (ensureDirectory directory) (ensureDirectory directory) := by
  refine (h.makeDirectory directory).bind fun r => ?_
  cases r with
  | ok u => exact simulates_pure _
  | error err =>
    refine (h.isDirectory directory).bind fun b => ?_
    cases b <;> exact simulates_pure _

theorem makeAll (h : IsSimulation R path) (directories : List String) :
    Simulates R (makeAll directories) (makeAll directories) := by
  induction directories with
  | nil => exact simulates_pure _
  | cons directory around ih =>
    refine (h.makeDirectory directory).bind fun r => ?_
    cases r with
    | ok u => exact simulates_pure _
    | error err =>
      dsimp only
      split
      · refine ih.bind fun r => ?_
        cases r with
        | ok u => exact h.ensureDirectory directory
        | error err => exact simulates_pure _
      · refine (h.isDirectory directory).bind fun b => ?_
        cases b <;> exact simulates_pure _

theorem makeRoomFor (h : IsSimulation R path) (file : String) :
    Simulates R (makeRoomFor file) (makeRoomFor file) := by
  unfold FileSystem.makeRoomFor
  split
  · exact simulates_pure _
  · refine (h.makeAll _).bind fun r => ?_
    cases r <;> exact simulates_pure _

/-! ## Reading and writing -/

theorem readDatabase (h : IsSimulation R path) :
    Simulates R (readDatabase path) (readDatabase path) := by
  refine h.isThere.bind fun b => ?_
  cases b with
  | false => exact simulates_pure _
  | true =>
    refine h.readText.bind fun r => ?_
    cases r <;> exact simulates_pure _

theorem giveUp (h : IsSimulation R path) (err : StorageError) :
    Simulates R (giveUp (temporaryOf path) err)
      (giveUp (temporaryOf path) err) :=
  h.remove.bind fun _ => simulates_pure _

theorem atomicWrite (h : IsSimulation R path) (data : ByteArray) :
    Simulates R (atomicWrite path data) (atomicWrite path data) := by
  refine (h.makeRoomFor path).bind fun r => ?_
  cases r with
  | error err => exact simulates_pure _
  | ok u =>
    refine h.create.bind fun r => ?_
    cases r with
    | error err => exact simulates_pure _
    | ok u =>
      refine (h.write data).bind fun r => ?_
      cases r with
      | error err => exact h.giveUp _
      | ok u =>
        refine h.rename.bind fun r => ?_
        cases r with
        | error err => exact h.giveUp _
        | ok u => exact simulates_pure _

/-! ## Sessions -/

theorem acquire (h : IsSimulation R path) (file : String) (timeout : Nat) :
    Simulates R (acquire file timeout) (acquire file timeout) := by
  refine (h.makeRoomFor file).bind fun r => ?_
  cases r with
  | error err => exact simulates_pure _
  | ok u =>
    refine (h.lock file timeout).bind fun r => ?_
    rcases r with err | answer
    · exact simulates_pure _
    · cases answer <;> exact simulates_pure _

theorem openAt (h : IsSimulation R path) (lockPath : String) (timeout : Nat) :
    Simulates R (Session.openAt path lockPath timeout)
      (Session.openAt path lockPath timeout) := by
  refine (h.acquire lockPath timeout).bind fun r => ?_
  cases r with
  | error err => exact simulates_pure _
  | ok number =>
    refine h.readDatabase.bind fun r => ?_
    split
    · exact simulates_pure _
    · exact (h.unlock number).bind fun _ => simulates_pure _

variable {s : Session}

theorem drop (h : IsSimulation R s.path) : Simulates R s.drop s.drop :=
  h.unlock s.lock

theorem flush (h : IsSimulation R s.path) : Simulates R s.flush s.flush := by
  refine (h.atomicWrite _).bind fun r => ?_
  cases r <;> exact simulates_pure _

theorem close (h : IsSimulation R s.path) : Simulates R s.close s.close := by
  have hdrop : ∀ r : Except StorageError Unit,
      Simulates R (s.drop >>= fun _ => pure r : StateM σ _)
        (s.drop >>= fun _ => pure r : StateM τ _) :=
    fun r => h.drop.bind fun _ => simulates_pure r
  unfold Session.close
  cases s.archive.dirty with
  | true =>
    simp only [if_true, bind_map_left]
    exact h.flush.bind fun r => hdrop r.1
  | false => exact hdrop (.ok ())

end IsSimulation

end SettingsArchive
