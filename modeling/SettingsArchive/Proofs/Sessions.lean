import SettingsArchive.Proofs.Storage.Session

/-!
# No lost update

Any number of parties open sessions on one database, change their archives,
save, close and drop them, in any order, and any operation on the disk may
fail.  `World.run` carries out their turns one after the other and keeps a log
of the answers.

`Stepped` says what one turn can do, and `Orderly` is what holds of a world and
the log that led to it: at most one session is open, it holds the lock, it
read what was committed last before it was opened, and nobody else committed
anything since.  `World.serial_run` draws the conclusions for one more turn.
-/

namespace SettingsArchive

open FilePath Disk FaultyDisk

namespace World

/-- What a party can do in a turn. -/
inductive Deed where
  | openFile (timeout : Nat)
  | edit (change : Archive → Archive)
  | flush
  | close
  | drop

/-- A turn of a party, and what goes wrong with its operations on the disk. -/
structure Turn where
  party : Nat
  deed : Deed
  faults : List (Option FileError) := []

/-- What a party is told about its turn.  A database that was written is told
with its new content. -/
inductive Answer where
  | idle
  | opened (archive : Archive)
  | refused (e : ArchiveError)
  | edited
  | committed (data : ByteArray)
  | failed (e : StorageError)
  | closed

/-- The answers, each with the party that was told it. -/
abbrev Log := List (Nat × Answer)

end World

/-- A disk, and the sessions that are open on one of its files.  A party has at
most one of them: who wants two is two parties. -/
structure World where
  disk : Disk
  sessions : Nat → Option Session := fun _ => none

namespace World

/-- The world with another session of a party, or none. -/
def put (w : World) (party : Nat) (session : Option Session) : World :=
  { w with sessions := fun j => if j = party then session else w.sessions j }

/-- A computation on the disk of a world. -/
def on {α : Type} (w : World) (faults : List (Option FileError))
    (x : StateM FaultyDisk α) : α × World :=
  let (a, after) := x ⟨w.disk, faults⟩
  (a, { w with disk := after.disk })

/-- What is told of an attempt to save. -/
def answer (s : Session) : Except StorageError Unit → Answer
  | .ok () => .committed s.archive.pruned.text.toUTF8
  | .error e => .failed e

/-- One turn on the database at a path.  A party can open the database if it
has no session, and do everything else if it has one. -/
def step (path : String) (turn : Turn) (w : World) : Answer × World :=
  match turn.deed, w.sessions turn.party with
  | .openFile timeout, none =>
    match w.on turn.faults (Session.openFile path timeout) with
    | (.ok s, w) => (.opened s.archive, w.put turn.party (some s))
    | (.error e, w) => (.refused e, w)
  | .edit change, some s =>
    (.edited, w.put turn.party (some { s with archive := change s.archive }))
  | .flush, some s =>
    let ((result, s'), w) := w.on turn.faults s.flush
    (answer s result, w.put turn.party (some s'))
  | .close, some s =>
    let (result, w) := w.on turn.faults s.close
    (if s.archive.dirty then answer s result else .closed,
      w.put turn.party none)
  | .drop, some s =>
    let ((), w) := w.on turn.faults s.drop
    (.closed, w.put turn.party none)
  | _, _ => (.idle, w)

/-- Turns one after the other.  The answers come in the order of the turns. -/
def run (path : String) : List Turn → World → Log × World
  | [], w => ([], w)
  | turn :: turns, w =>
    let (answer, w) := w.step path turn
    let (log, w) := run path turns w
    ((turn.party, answer) :: log, w)

/-- The content of a database after the commits of a log. -/
def lastCommit (content : Option ByteArray) (log : Log) : Option ByteArray :=
  log.foldl (fun content entry =>
    match entry.2 with
    | .committed data => some data
    | _ => content) content

/-- Whether a party has a session. -/
def IsOpen (w : World) (party : Nat) : Prop :=
  (w.sessions party).isSome

/-- Nobody holds the lock on the database. -/
def IsFree (path : String) (d : Disk) : Prop :=
  ∀ number data, d.file? (lockPlace path) = some (number, data) →
    number ∉ d.locked

/-! ## One turn -/

/-- What one turn can do. -/
inductive Stepped (path : String) (w : World) (turn : Turn) :
    Answer → World → Prop
  | idle
    (hidle : (∃ timeout, turn.deed = .openFile timeout) ↔ w.IsOpen turn.party) :
    Stepped path w turn .idle w
  | refused {timeout : Nat} {err : ArchiveError} {d : Disk}
    (hdeed : turn.deed = .openFile timeout)
    (hspares : Spares path w.disk d)
    (hheld : ∀ number, IsHeld path number w.disk → turn.faults = [] →
      err = .storage (.lockTimeout (lockOf path) timeout)) :
    Stepped path w turn (.refused err) { w with disk := d }
  | opened {timeout : Nat} {s : Session} {f : Disk}
    (hdeed : turn.deed = .openFile timeout)
    (hnone : w.sessions turn.party = none)
    (hopened : Session.Opened path s w.disk f) :
    Stepped path w turn (.opened s.archive)
      ({ w with disk := f.hold s.lock }.put turn.party (some s))
  | edited {change : Archive → Archive} {s : Session}
    (hdeed : turn.deed = .edit change)
    (hsome : w.sessions turn.party = some s) :
    Stepped path w turn .edited
      (w.put turn.party (some { s with archive := change s.archive }))
  | unsaved {s : Session} {err : StorageError} {d : Disk} {archive : Archive}
    (hdeed : turn.deed = .flush)
    (hsome : w.sessions turn.party = some s)
    (hspares : Spares s.path w.disk d) :
    Stepped path w turn (.failed err)
      ({ w with disk := d }.put turn.party (some { s with archive }))
  | saved {s : Session} {d : Disk} {archive : Archive}
    (hdeed : turn.deed = .flush)
    (hsome : w.sessions turn.party = some s)
    (hcommits : Commits s.path s.archive.pruned.text.toUTF8 w.disk d) :
    Stepped path w turn (.committed s.archive.pruned.text.toUTF8)
      ({ w with disk := d }.put turn.party (some { s with archive }))
  | closed {s : Session} {answer : Answer} {d : Disk}
    (hdeed : turn.deed = .close ∨ turn.deed = .drop)
    (hsome : w.sessions turn.party = some s)
    (hanswer : answer = .closed ∨ ∃ err, answer = .failed err)
    (hspares : Spares s.path w.disk d) :
    Stepped path w turn answer
      ({ w with disk := d.unlock s.lock }.put turn.party none)
  | committed {s : Session} {d : Disk}
    (hdeed : turn.deed = .close)
    (hsome : w.sessions turn.party = some s)
    (hcommits : Commits s.path s.archive.pruned.text.toUTF8 w.disk d) :
    Stepped path w turn (.committed s.archive.pruned.text.toUTF8)
      ({ w with disk := d.unlock s.lock }.put turn.party none)

theorem on_of_ensures {α : Type} {x : StateM FaultyDisk α} {w : World}
    {post : α → Disk → Prop} (h : Ensures x w.disk post)
    (faults : List (Option FileError)) :
    ∃ a d, w.on faults x = (a, { w with disk := d }) ∧ post a d :=
  ⟨_, _, rfl, h faults⟩

theorem stepped_openFile {path : String} {turn : Turn} {w : World}
    {timeout : Nat} (hdeed : turn.deed = .openFile timeout)
    (hnone : w.sessions turn.party = none) :
    Stepped path w turn (w.step path turn).1 (w.step path turn).2 := by
  obtain ⟨r, d, hon, h⟩ :=
    on_of_ensures (Session.ensures_openFile path timeout) turn.faults
  rw [step, hdeed, hnone]
  simp only
  rw [hon]
  rcases h with ⟨err, rfl, hspares⟩ | ⟨s, f, rfl, rfl, hopened⟩
  · refine .refused hdeed hspares fun number hheld hfaults => ?_
    have htimeout := Session.openFile_of_isHeld hheld timeout
    rw [on, hfaults, htimeout] at hon
    exact (Except.error.inj (Prod.mk.inj hon).1).symm
  · exact .opened hdeed hnone hopened

theorem stepped_flush {path : String} {turn : Turn} {w : World} {s : Session}
    (hdeed : turn.deed = .flush) (hsome : w.sessions turn.party = some s) :
    Stepped path w turn (w.step path turn).1 (w.step path turn).2 := by
  obtain ⟨r, d, hon, h⟩ := on_of_ensures (Session.ensures_flush s) turn.faults
  rw [step, hdeed, hsome]
  simp only
  rw [hon]
  rcases h with ⟨err, rfl, hspares⟩ | ⟨rfl, hcommits⟩
  · exact .unsaved hdeed hsome hspares
  · exact .saved hdeed hsome hcommits

theorem stepped_close {path : String} {turn : Turn} {w : World} {s : Session}
    (hdeed : turn.deed = .close) (hsome : w.sessions turn.party = some s) :
    Stepped path w turn (w.step path turn).1 (w.step path turn).2 := by
  obtain ⟨r, d, hon, f, rfl, h⟩ :=
    on_of_ensures (Session.ensures_close s) turn.faults
  rw [step, hdeed, hsome]
  simp only
  rw [hon]
  rcases h with ⟨hclean, rfl, rfl⟩ | ⟨hdirty, err, rfl, hspares⟩ |
    ⟨hdirty, rfl, hcommits⟩
  · exact .closed (.inl hdeed) hsome (.inl (by simp [hclean])) (.refl _ _ _)
  · exact .closed (.inl hdeed) hsome (.inr ⟨err, by simp [hdirty, answer]⟩)
      hspares
  · simp only [if_pos hdirty]
    exact .committed hdeed hsome hcommits

theorem stepped_drop {path : String} {turn : Turn} {w : World} {s : Session}
    (hdeed : turn.deed = .drop) (hsome : w.sessions turn.party = some s) :
    Stepped path w turn (w.step path turn).1 (w.step path turn).2 := by
  obtain ⟨⟨⟩, d, hon, rfl⟩ :=
    on_of_ensures (Session.ensures_drop s) turn.faults
  rw [step, hdeed, hsome]
  simp only
  rw [hon]
  exact .closed (.inr hdeed) hsome (.inl rfl) (.refl _ _ _)

theorem stepped_step (path : String) (turn : Turn) (w : World) :
    Stepped path w turn (w.step path turn).1 (w.step path turn).2 := by
  cases hsession : w.sessions turn.party with
  | none =>
    cases hdeed : turn.deed with
    | openFile timeout => exact stepped_openFile hdeed hsession
    | _ =>
      rw [step, hdeed, hsession]
      exact .idle (by simp [hdeed, IsOpen, hsession])
  | some s =>
    cases hdeed : turn.deed with
    | openFile timeout =>
      rw [step, hdeed, hsession]
      exact .idle (by simp [hdeed, IsOpen, hsession])
    | edit change =>
      rw [step, hdeed, hsession]
      exact .edited hdeed hsession
    | flush => exact stepped_flush hdeed hsession
    | close => exact stepped_close hdeed hsession
    | drop => exact stepped_drop hdeed hsession

/-! ## What holds of a world and its log -/

/-- A party read what was committed last before it opened the database, and
nobody else committed anything since. -/
def HasRead (path : String) (start : Disk) (log : Log) (party : Nat) : Prop :=
  ∃ before archive between text,
    log = before ++ (party, .opened archive) :: between ∧
      text.map String.toUTF8 = lastCommit (start.content? path) before ∧
      Session.ofFile path text = .ok archive ∧
      ∀ j data, (j, .committed data) ∈ between → j = party

/-- A session of a party that holds the lock on the database.  The locks that
were held in the beginning are held still. -/
structure Holds (path : String) (start : Disk) (log : Log) (d : Disk)
    (party : Nat) (s : Session) : Prop where
  path_eq : s.path = path
  reaches : d.Reaches path
  file : ∃ data, d.file? (lockPlace path) = some (s.lock, data)
  locked : d.locked = s.lock :: start.locked
  free : s.lock ∉ start.locked
  hasRead : HasRead path start log party

/-- What holds of a world and the log that led to it. -/
structure Orderly (path : String) (start : Disk) (log : Log) (w : World) :
    Prop where
  sound : w.disk.IsSound
  content : w.disk.content? path = lastCommit (start.content? path) log
  sessions : ((∀ i, w.sessions i = none) ∧ w.disk.locked = start.locked) ∨
    ∃ i s, w.sessions i = some s ∧ (∀ j, j ≠ i → w.sessions j = none) ∧
      Holds path start log w.disk i s

variable {path : String} {start d e : Disk} {log : Log} {w : World}
  {party : Nat} {s : Session}

theorem lastCommit_concat (content : Option ByteArray) (log : Log)
    (entry : Nat × Answer) :
    lastCommit content (log ++ [entry])
      = match entry.2 with
        | .committed data => some data
        | _ => lastCommit content log := by
  rw [lastCommit, List.foldl_append]
  rfl

/-- What a party read stays what was committed last but for its own commits,
as long as nobody else commits anything. -/
theorem HasRead.concat {entry : Nat × Answer}
    (h : HasRead path start log party)
    (hown : ∀ data, entry.2 = .committed data → entry.1 = party) :
    HasRead path start (log ++ [entry]) party := by
  obtain ⟨before, archive, between, text, rfl, htext, hof, hbetween⟩ := h
  refine ⟨before, archive, between ++ [entry], text, by simp, htext, hof, ?_⟩
  intro j data hmem
  rw [List.mem_append, List.mem_singleton] at hmem
  rcases hmem with hmem | rfl
  · exact hbetween j data hmem
  · exact hown data rfl

/-- A session goes on holding the lock while nobody else commits anything. -/
theorem Holds.concat {entry : Nat × Answer} {archive : Archive}
    (h : Holds path start log d party s) (hkeeps : KeepsLock path d e)
    (hown : ∀ data, entry.2 = .committed data → entry.1 = party) :
    Holds path start (log ++ [entry]) e party { s with archive } where
  path_eq := h.path_eq
  reaches := h.reaches.mono hkeeps.directory
  file := h.file.imp fun _ hf => hkeeps.lockFile _ hf
  locked := hkeeps.locked.trans h.locked
  free := h.free
  hasRead := h.hasRead.concat hown

theorem Holds.isHeld (h : Holds path start log d party s) :
    IsHeld path s.lock d where
  reaches := h.reaches
  file := h.file
  held := by
    rw [h.locked]
    exact List.mem_cons_self

/-- While a session holds the lock, no other one is opened. -/
theorem Holds.not_opened {t : Session} (h : Holds path start log d party s)
    (hopened : Session.Opened path t d e) : False := by
  obtain ⟨data, hfile⟩ := h.file
  obtain ⟨other, hother⟩ := hopened.available.file
  have hkept := hopened.spares.keepsLock.lockFile _ hfile
  have hlock : s.lock = t.lock :=
    (Prod.mk.inj (Option.some.inj (hkept.symm.trans hother))).1
  apply hopened.available.free
  rw [hopened.spares.locked, ← hlock]
  exact h.isHeld.held

/-- The party with a session is the only one. -/
theorem Orderly.holds (h : Orderly path start log w)
    (hsome : w.sessions party = some s) :
    Holds path start log w.disk party s ∧
      ∀ j, j ≠ party → w.sessions j = none := by
  rcases h.sessions with ⟨hnone, -⟩ | ⟨i, t, hi, hothers, hholds⟩
  · rw [hnone] at hsome
    cases hsome
  · obtain rfl : party = i := by
      apply Decidable.byContradiction
      intro hne
      rw [hothers party hne] at hsome
      cases hsome
    obtain rfl := Option.some.inj (hi.symm.trans hsome)
    exact ⟨hholds, hothers⟩

theorem put_sessions (w : World) (party j : Nat) (session : Option Session) :
    (w.put party session).sessions j
      = if j = party then session else w.sessions j :=
  rfl

/-- The session of a party, and no other one. -/
theorem orderly_put {archive : Archive} {answer : Answer}
    (h : Orderly path start log w) (hsome : w.sessions party = some s)
    (hkeeps : KeepsLock path w.disk d)
    (hcontent : d.content? path
      = lastCommit (start.content? path) (log ++ [(party, answer)])) :
    Orderly path start (log ++ [(party, answer)])
      ({ w with disk := d }.put party (some { s with archive })) := by
  obtain ⟨hholds, hothers⟩ := h.holds hsome
  refine ⟨hkeeps.sound h.sound, hcontent,
    .inr ⟨party, { s with archive }, ?_, ?_, ?_⟩⟩
  · rw [put_sessions, if_pos rfl]
  · intro j hj
    rw [put_sessions, if_neg hj]
    exact hothers j hj
  · exact hholds.concat hkeeps fun _ _ => rfl

/-- A party gave back the lock, and there is no session any more. -/
theorem orderly_unlock {answer : Answer}
    (h : Orderly path start log w) (hsome : w.sessions party = some s)
    (hkeeps : KeepsLock path w.disk d)
    (hcontent : d.content? path
      = lastCommit (start.content? path) (log ++ [(party, answer)])) :
    Orderly path start (log ++ [(party, answer)])
      ({ w with disk := d.unlock s.lock }.put party none) := by
  obtain ⟨hholds, hothers⟩ := h.holds hsome
  have hsound := hkeeps.sound h.sound
  refine ⟨⟨hsound.file, ?_⟩, hcontent, .inl ⟨?_, ?_⟩⟩
  · intro n hn
    exact hsound.locked n (List.mem_filter.1 hn).1
  · intro i
    rw [put_sessions]
    split
    · rfl
    · rename_i hi
      exact hothers i hi
  · exact locked_unlock (hkeeps.locked.trans hholds.locked) hholds.free

/-- A session was opened where there was none. -/
theorem orderly_opened (h : Orderly path start log w)
    (hnone : ∀ i, w.sessions i = none) (hlocked : w.disk.locked = start.locked)
    (hopened : Session.Opened path s w.disk d) :
    Orderly path start (log ++ [(party, .opened s.archive)])
      ({ w with disk := d.hold s.lock }.put party (some s)) := by
  have hkeeps := hopened.spares.keepsLock
  have hsound := hkeeps.sound h.sound
  have hstart : d.locked = start.locked := hkeeps.locked.trans hlocked
  obtain ⟨data, hfile⟩ := hopened.available.file
  obtain ⟨text, htext, hof⟩ := hopened.read
  have hholds : Holds path start (log ++ [(party, .opened s.archive)])
      (d.hold s.lock) party s := {
    path_eq := hopened.path_eq
    reaches := hopened.available.reaches.mono fun _ hp => hp
    file := ⟨data, hfile⟩
    locked := congrArg (s.lock :: ·) hstart
    free := by
      rw [← hstart]
      exact hopened.available.free
    hasRead := ⟨log, s.archive, [], text, rfl, htext.trans h.content, hof,
      fun _ _ hmem => by cases hmem⟩ }
  refine ⟨⟨hsound.file, ?_⟩, ?_, .inr ⟨party, s, ?_, ?_, hholds⟩⟩
  · intro n hn
    rcases List.mem_cons.1 hn with rfl | hn
    · exact hsound.file _ _ hfile
    · exact hsound.locked n hn
  · rw [lastCommit_concat]
    exact hopened.spares.content?_eq.trans h.content
  · rw [put_sessions, if_pos rfl]
  · intro j hj
    rw [put_sessions, if_neg hj]
    exact hnone j

/-- What holds of a world and its log holds after one more turn. -/
theorem Stepped.orderly {turn : Turn} {answer : Answer} {w' : World}
    (hstep : Stepped path w turn answer w') (h : Orderly path start log w) :
    Orderly path start (log ++ [(turn.party, answer)]) w' := by
  cases hstep with
  | idle hidle =>
    refine ⟨h.sound, ?_, ?_⟩
    · rw [h.content, lastCommit_concat]
    · rcases h.sessions with hnone | ⟨i, s, hi, hothers, hholds⟩
      · exact .inl hnone
      · exact .inr ⟨i, s, hi, hothers,
          hholds.concat (.refl path w.disk) fun _ heq => by cases heq⟩
  | refused hdeed hspares hheld =>
    have hkeeps := hspares.keepsLock
    refine ⟨hkeeps.sound h.sound, ?_, ?_⟩
    · rw [hspares.content?_eq, h.content, lastCommit_concat]
    · rcases h.sessions with ⟨hnone, hlocked⟩ | ⟨i, s, hi, hothers, hholds⟩
      · exact .inl ⟨hnone, hkeeps.locked.trans hlocked⟩
      · exact .inr ⟨i, s, hi, hothers,
          hholds.concat hkeeps fun _ heq => by cases heq⟩
  | opened hdeed hnone hopened =>
    rcases h.sessions with ⟨hall, hlocked⟩ | ⟨i, t, -, -, hholds⟩
    · exact orderly_opened h hall hlocked hopened
    · exact absurd hopened hholds.not_opened
  | edited hdeed hsome =>
    apply orderly_put h hsome (.refl path w.disk)
    rw [h.content, lastCommit_concat]
  | unsaved hdeed hsome hspares =>
    obtain rfl := (h.holds hsome).1.path_eq
    apply orderly_put h hsome hspares.keepsLock
    rw [hspares.content?_eq, h.content, lastCommit_concat]
  | saved hdeed hsome hcommits =>
    obtain rfl := (h.holds hsome).1.path_eq
    apply orderly_put h hsome hcommits.toKeepsLock
    rw [hcommits.content, lastCommit_concat]
  | closed hdeed hsome hanswer hspares =>
    obtain rfl := (h.holds hsome).1.path_eq
    apply orderly_unlock h hsome hspares.keepsLock
    rw [hspares.content?_eq, h.content, lastCommit_concat]
    rcases hanswer with rfl | ⟨err, rfl⟩ <;> rfl
  | committed hdeed hsome hcommits =>
    obtain rfl := (h.holds hsome).1.path_eq
    apply orderly_unlock h hsome hcommits.toKeepsLock
    rw [hcommits.content, lastCommit_concat]

/-- What holds in the beginning, where no session is open. -/
theorem orderly_start (path : String) {start : Disk} (h : start.IsSound) :
    Orderly path start [] { disk := start } where
  sound := h
  content := rfl
  sessions := .inl ⟨fun _ => rfl, rfl⟩

/-- What holds of a world and its log holds after any turns. -/
theorem Orderly.run (h : Orderly path start log w) (turns : List Turn) :
    Orderly path start (log ++ (World.run path turns w).1)
      (World.run path turns w).2 := by
  induction turns generalizing log w with
  | nil => simpa [World.run] using h
  | cons turn turns ih =>
    have hstep := (stepped_step path turn w).orderly h
    have hrest := ih hstep
    rwa [List.append_assoc] at hrest

/-! ## What is right about a turn -/

/-- A turn on the database at a path that loses no update: `log` and `w` are
what the turns before it came to, and `answer` and `w'` what it comes to. -/
structure IsSerial (path : String) (start : Disk) (log : Log) (w : World)
    (turn : Turn) (answer : Answer) (w' : World) : Prop where
  /-- At most one session is open. -/
  single : ∀ i j, w'.IsOpen i → w'.IsOpen j → i = j
  /-- While a session is open, nobody else opens one.  If nothing else goes
  wrong, it is the wait for the lock that takes too long. -/
  excluded : ∀ timeout, turn.deed = .openFile timeout →
    ∀ i, i ≠ turn.party → w.IsOpen i →
      ∃ err, answer = .refused err ∧
        (turn.faults = [] →
          err = .storage (.lockTimeout (lockOf path) timeout))
  /-- An attempt to open the database that fails leaves the database and all
  sessions alone, and the lock is free if it was. -/
  refused : ∀ err, answer = .refused err →
    w'.disk.content? path = w.disk.content? path ∧
      w'.sessions = w.sessions ∧ (IsFree path w.disk → IsFree path w'.disk)
  /-- A session begins with what was committed last. -/
  opened : ∀ archive, answer = .opened archive →
    ∃ text, text.map String.toUTF8 = lastCommit (start.content? path) log ∧
      Session.ofFile path text = .ok archive
  /-- The database changes only where its session, which holds the lock, is
  saved or closed, and it becomes the text of the archive of the session. -/
  written : w'.disk.content? path ≠ w.disk.content? path →
    ∃ s, w.sessions turn.party = some s ∧ IsHeld path s.lock w.disk ∧
      (turn.deed = .flush ∨ turn.deed = .close) ∧
      answer = .committed s.archive.pruned.text.toUTF8
  /-- What is committed is in the database, and whoever commits it has read
  what others committed. -/
  committed : ∀ data, answer = .committed data →
    w'.disk.content? path = some data ∧ HasRead path start log turn.party
  /-- Whoever closes or drops a session gives back the lock, whether the
  database could be written or not. -/
  released : turn.deed = .close ∨ turn.deed = .drop → w.IsOpen turn.party →
    ¬ w'.IsOpen turn.party ∧ IsFree path w'.disk

theorem Orderly.single (h : Orderly path start log w) {i j : Nat}
    (hi : w.IsOpen i) (hj : w.IsOpen j) : i = j := by
  obtain ⟨s, hs⟩ := Option.isSome_iff_exists.1 hi
  apply Decidable.byContradiction
  intro hne
  rw [IsOpen, (h.holds hs).2 j (Ne.symm hne)] at hj
  cases hj

theorem Orderly.exists_holds (h : Orderly path start log w) {i : Nat}
    (hi : w.IsOpen i) : ∃ s, Holds path start log w.disk i s := by
  obtain ⟨s, hs⟩ := Option.isSome_iff_exists.1 hi
  exact ⟨s, (h.holds hs).1⟩

variable {turn : Turn} {answer : Answer} {w' : World}

theorem Stepped.excluded (hstep : Stepped path w turn answer w')
    (h : Orderly path start log w) {timeout : Nat}
    (hdeed : turn.deed = .openFile timeout) {i : Nat} (hne : i ≠ turn.party)
    (hi : w.IsOpen i) :
    ∃ err, answer = .refused err ∧
      (turn.faults = [] →
        err = .storage (.lockTimeout (lockOf path) timeout)) := by
  obtain ⟨s, hholds⟩ := h.exists_holds hi
  cases hstep with
  | idle hidle => exact absurd (h.single hi (hidle.1 ⟨_, hdeed⟩)) hne
  | refused hother hspares hheld =>
    obtain rfl := Deed.openFile.inj (hother.symm.trans hdeed)
    exact ⟨_, rfl, hheld _ hholds.isHeld⟩
  | opened hother hnone hopened => exact absurd hopened hholds.not_opened
  | edited hother => cases hother.symm.trans hdeed
  | unsaved hother => cases hother.symm.trans hdeed
  | saved hother => cases hother.symm.trans hdeed
  | closed hother => rcases hother with hother | hother <;> cases hother.symm.trans hdeed
  | committed hother => cases hother.symm.trans hdeed

/-- A lock that was free is free where only the files beside a database were
touched. -/
theorem IsFree.spares (h : IsFree path d) (hsound : d.IsSound)
    (hspares : Spares path d e) : IsFree path e := by
  intro number data hfile
  rw [hspares.locked]
  cases hbefore : d.file? (lockPlace path) with
  | some f =>
    obtain rfl := Option.some.inj
      ((hspares.keepsLock.lockFile f hbefore).symm.trans hfile)
    exact h number data hbefore
  | none =>
    -- a lock file that was just made has a number that nobody holds
    have hfresh := hspares.fresh _ (by simp [lockPlace_ne_temporaryPlace]) _
      hbefore hfile
    intro hmem
    exact absurd (hsound.locked number hmem) (Nat.not_lt.2 hfresh)

theorem Stepped.written (hstep : Stepped path w turn answer w')
    (h : Orderly path start log w)
    (hne : w'.disk.content? path ≠ w.disk.content? path) :
    ∃ s, w.sessions turn.party = some s ∧ IsHeld path s.lock w.disk ∧
      (turn.deed = .flush ∨ turn.deed = .close) ∧
      answer = .committed s.archive.pruned.text.toUTF8 := by
  cases hstep with
  | idle => exact absurd rfl hne
  | refused _ hspares => exact absurd hspares.content?_eq hne
  | opened _ _ hopened => exact absurd hopened.spares.content?_eq hne
  | edited => exact absurd rfl hne
  | unsaved _ hsome hspares =>
    obtain rfl := (h.holds hsome).1.path_eq
    exact absurd hspares.content?_eq hne
  | saved hdeed hsome =>
    exact ⟨_, hsome, (h.holds hsome).1.isHeld, .inl hdeed, rfl⟩
  | closed _ hsome _ hspares =>
    obtain rfl := (h.holds hsome).1.path_eq
    exact absurd hspares.content?_eq hne
  | committed hdeed hsome =>
    exact ⟨_, hsome, (h.holds hsome).1.isHeld, .inr hdeed, rfl⟩

theorem Stepped.committed_of_answer (hstep : Stepped path w turn answer w')
    (h : Orderly path start log w) {data : ByteArray}
    (hanswer : answer = .committed data) :
    w'.disk.content? path = some data ∧ HasRead path start log turn.party := by
  cases hstep with
  | saved _ hsome hcommits =>
    obtain ⟨hholds, -⟩ := h.holds hsome
    obtain rfl := hholds.path_eq
    obtain rfl := Answer.committed.inj hanswer
    exact ⟨hcommits.content, hholds.hasRead⟩
  | committed _ hsome hcommits =>
    obtain ⟨hholds, -⟩ := h.holds hsome
    obtain rfl := hholds.path_eq
    obtain rfl := Answer.committed.inj hanswer
    exact ⟨hcommits.content, hholds.hasRead⟩
  | closed _ _ hclosed =>
    rcases hclosed with hclosed | ⟨err, hclosed⟩ <;>
      cases hclosed.symm.trans hanswer
  | _ => cases hanswer

/-- The lock that a session gives back is free. -/
theorem Holds.isFree_unlock (h : Holds path start log d party s)
    (hkeeps : KeepsLock path d e) : IsFree path (e.unlock s.lock) := by
  obtain ⟨data, hfile⟩ := h.file
  intro number other hother
  obtain ⟨rfl, -⟩ := Prod.mk.inj
    (Option.some.inj ((hkeeps.lockFile _ hfile).symm.trans hother))
  rw [locked_unlock (hkeeps.locked.trans h.locked) h.free]
  exact h.free

theorem Stepped.released (hstep : Stepped path w turn answer w')
    (h : Orderly path start log w)
    (hdeed : turn.deed = .close ∨ turn.deed = .drop)
    (hopen : w.IsOpen turn.party) :
    ¬ w'.IsOpen turn.party ∧ IsFree path w'.disk := by
  have hgone : ∀ d, ¬ ({ w with disk := d }.put turn.party none).IsOpen
      turn.party := by
    intro d
    rw [IsOpen, put_sessions, if_pos rfl]
    exact Bool.false_ne_true
  cases hstep with
  | idle hidle =>
    obtain ⟨timeout, hother⟩ := hidle.2 hopen
    rw [hother] at hdeed
    rcases hdeed with hdeed | hdeed <;> cases hdeed
  | closed _ hsome _ hspares =>
    obtain ⟨hholds, -⟩ := h.holds hsome
    obtain rfl := hholds.path_eq
    exact ⟨hgone _, hholds.isFree_unlock hspares.keepsLock⟩
  | committed _ hsome hcommits =>
    obtain ⟨hholds, -⟩ := h.holds hsome
    obtain rfl := hholds.path_eq
    exact ⟨hgone _, hholds.isFree_unlock hcommits.toKeepsLock⟩
  | refused hother | opened hother | edited hother | unsaved hother
  | saved hother =>
    rw [hother] at hdeed
    rcases hdeed with hdeed | hdeed <;> cases hdeed

theorem Stepped.refused_of_answer (hstep : Stepped path w turn answer w')
    (h : Orderly path start log w) {err : ArchiveError}
    (hanswer : answer = .refused err) :
    w'.disk.content? path = w.disk.content? path ∧
      w'.sessions = w.sessions ∧
      (IsFree path w.disk → IsFree path w'.disk) := by
  cases hstep with
  | refused _ hspares =>
    exact ⟨hspares.content?_eq, rfl, fun hfree => hfree.spares h.sound hspares⟩
  | closed _ _ hclosed =>
    rcases hclosed with hclosed | ⟨err, hclosed⟩ <;>
      cases hclosed.symm.trans hanswer
  | _ => cases hanswer

theorem Stepped.opened_of_answer (hstep : Stepped path w turn answer w')
    (h : Orderly path start log w) {archive : Archive}
    (hanswer : answer = .opened archive) :
    ∃ text, text.map String.toUTF8 = lastCommit (start.content? path) log ∧
      Session.ofFile path text = .ok archive := by
  cases hstep with
  | opened _ _ hopened =>
    obtain rfl := Answer.opened.inj hanswer
    obtain ⟨text, htext, hof⟩ := hopened.read
    exact ⟨text, htext.trans h.content, hof⟩
  | closed _ _ hclosed =>
    rcases hclosed with hclosed | ⟨err, hclosed⟩ <;>
      cases hclosed.symm.trans hanswer
  | _ => cases hanswer

/-- **No lost update.**  Whatever turns there were and whatever went wrong in
them, one more turn loses no update.  What goes wrong are operations that fail;
asking whether a file or a directory is there does not. -/
theorem serial_run (path : String) {start : Disk} (h : start.IsSound)
    (turns : List Turn) (turn : Turn) :
    let before := run path turns { disk := start }
    let after := before.2.step path turn
    IsSerial path start before.1 before.2 turn after.1 after.2 := by
  have horderly := (orderly_start path h).run turns
  have hstep := stepped_step path turn (run path turns { disk := start }).2
  have hnext := hstep.orderly horderly
  exact {
    single := fun i j => hnext.single
    excluded := fun timeout hdeed i hne hi =>
      hstep.excluded horderly hdeed hne hi
    refused := fun err hanswer => hstep.refused_of_answer horderly hanswer
    opened := fun archive hanswer => hstep.opened_of_answer horderly hanswer
    written := hstep.written horderly
    committed := fun data hanswer => hstep.committed_of_answer horderly hanswer
    released := hstep.released horderly }

/-- The first party opens a new database, the second one has to wait, and the
first one saves and closes. -/
def handover : List Turn :=
  [⟨0, .openFile 5000, []⟩, ⟨1, .openFile 100, []⟩, ⟨0, .close, []⟩]

theorem isSound_empty : ({} : Disk).IsSound where
  file p f h := by
    by_cases hp : p = [] <;> simp [file?, node?, hp] at h
  locked n h := by cases h

theorem serial_handover :
    ({} : Disk).IsSound ∧
      (let before := run "archive.xml" handover { disk := {} }
       let after := before.2.step "archive.xml" ⟨1, .openFile 100, []⟩
       IsSerial "archive.xml" {} before.1 before.2 ⟨1, .openFile 100, []⟩
          after.1 after.2 ∧
        (lastCommit none before.1).isSome ∧ (after.2.sessions 1).isSome) :=
  ⟨isSound_empty, serial_run "archive.xml" isSound_empty handover _,
    by decide +kernel⟩

end World

end SettingsArchive
