import SettingsArchive.Proofs.Invocation
import SettingsArchive.Proofs.Storage.LoggedDisk

/-!
# Invocations as transactions

An invocation that fails leaves the database as it was, and one that succeeds
leaves there what its operation made of the archive that was stored before.
That holds whatever goes wrong with the operations on files and whatever is
logged, if the log file is another file (`LogsElsewhere`) and questions are
answered truthfully: see `transaction_run`.

Neither may be left out (`not_transaction`).  The log file is opened before the
database, so where it is the database it is made or grows even if the invocation
fails.  And where asking whether there is a database fails, it is taken to be
missing and is replaced by a new one.

There are no links on these disks, so a log file at another place is another
file.

What is done within a session is looked at on a faulty disk, which has nothing in
the log file, and carried over to the disk with the logger (`Operated.of_erase`).
-/

namespace SettingsArchive.Invocation

open FileSystem FilePath FaultyDisk Disk Archive

variable {d e f : Disk} {path : String} {a : Archive}

/-! ## What an invocation is to do -/

/-- The operation that a command line asks for and the configuration for it, if
they can be read from the disk. -/
def plan? (env : Environment) (words : List String) (d : Disk) :
    Option (Options × Configuration) := do
  let line ← (CommandLine.read words).toOption
  let zone := Zone.ofSetting (env.lookup "TZ")
  let options ← (Options.ofCommandLine zone line).toOption
  let path := options.configuration.getD (Configuration.filePath env)
  let c ← ((Configuration.load env path : StateM Disk _) d).1.toOption
  return (options, c)

section Plan

variable {env : Environment} {words : List String}

theorem plan?_of_stop {stop : CommandLineStop}
    (h : CommandLine.read words = .error stop) : plan? env words d = none := by
  rw [plan?, h]
  rfl

variable {line : CommandLine} (hline : CommandLine.read words = .ok line)

include hline

theorem plan?_of_fault {fault : OptionsFault}
    (h : Options.ofCommandLine (Zone.ofSetting (env.lookup "TZ")) line
      = .error fault) : plan? env words d = none := by
  simp only [plan?, hline, h, Except.toOption, Option.bind_eq_bind,
    Option.bind_some, Option.bind_none]

theorem plan?_of_load {options : Options} {c : Configuration}
    (h : Options.ofCommandLine (Zone.ofSetting (env.lookup "TZ")) line
      = .ok options)
    (hload : ((Configuration.load env
      (options.configuration.getD (Configuration.filePath env)) :
        StateM Disk _) d).1 = .ok c) :
    plan? env words d = some (options, c) := by
  simp only [plan?, hline, h, hload, Except.toOption, Option.bind_eq_bind,
    Option.bind_some]
  rfl

end Plan

/-- The archive that is stored in a database: the one in its text, or a new one
if there is no file. -/
def Stores (path : String) (d : Disk) (a : Archive) : Prop :=
  ∃ text, text.map String.toUTF8 = d.content? path ∧
    Session.ofFile path text = .ok a

/-- The archive that the next session on a database begins with. -/
def Reopens (path : String) (d : Disk) (a : Archive) : Prop :=
  ∀ timeout, ((Session.openFile path timeout : StateM FaultyDisk _)
    ⟨d, []⟩).1.map Session.archive = .ok a

/-- The log file is neither the database nor the temporary file beside it,
whatever their names are. -/
def LogsElsewhere (log : Option String) (path : String) (d : Disk) : Prop :=
  ∀ name, log = some name → ∀ number e, d.openLog name = .ok (number, e) →
    (∀ p, place? path = some p → ∀ f, e.file? p = some f → f.1 ≠ number) ∧
      ∀ f, e.file? (temporaryPlace path) = some f → f.1 ≠ number

/-- What an invocation with its exit code did to the database.  Directories
without entries are dropped where something was saved, and nothing is written
where nothing was to be saved. -/
structure IsTransaction (options : Options) (c : Configuration)
    (supplies : Supplies) (d : Disk) (exitCode : Nat) (e : Disk) : Prop where
  failed : exitCode ≠ 0 → e.content? (c.databasePath options.isGlobal)
    = d.content? (c.databasePath options.isGlobal)
  succeeded : exitCode = 0 →
    (∀ a, Stores (c.databasePath options.isGlobal) d a →
      a.EveryInstant Instant.HasPlainYear) →
    ∃ a output b reopened, Stores (c.databasePath options.isGlobal) d a ∧
      options.carryOut supplies { a with policy := c.policy }
        = .ok (output, b) ∧
      Reopens (c.databasePath options.isGlobal) e reopened ∧
      (if b.dirty then b.pruned else b).IsReadAs reopened ∧
      (b.dirty = false → e.content? (c.databasePath options.isGlobal)
        = d.content? (c.databasePath options.isGlobal))

/-! ## Before the database is opened -/

/-- A configuration that was loaded is the one on the disk. -/
theorem ensures_load (env : Environment) (path : String) :
    Ensures (Configuration.load env path) d fun r e => e = d ∧
      ∀ c, r = .ok c →
        ((Configuration.load env path : StateM Disk _) d).1 = .ok c := by
  have hthere : (isThere path : StateM Disk Bool) d
      = ((d.find path).toBool, d) := rfl
  have hload : (Configuration.load env path : StateM Disk _) d
      = (if (d.find path).toBool then _ else _ : StateM Disk _) d := rfl
  rw [hload]
  refine (ensures_ask hthere).bind fun b f hf => ?_
  obtain ⟨rfl, rfl⟩ := hf
  split
  · refine ensures_attempt.bind fun r g hg => ?_
    rcases hg with ⟨err, rfl, rfl⟩ | ⟨text, rfl, hrun⟩
    · exact ensures_pure ⟨rfl, fun _ hc => by cases hc⟩
    · obtain ⟨t, ht, heq⟩ := map_eq_ok hrun
      obtain ⟨rfl, rfl⟩ := Prod.mk.inj heq
      have hread : (readText path : StateM Disk _) f = (.ok t, f) := by
        change act _ f = _
        rw [act, hrun]
      simp only [bind, StateT.bind, hread]
      cases (Configuration.ofDefaults env).withText? t with
      | some c => exact ensures_pure ⟨rfl, fun _ hc => hc⟩
      | none => exact ensures_pure ⟨rfl, fun _ hc => by cases hc⟩
  · exact ensures_pure ⟨rfl, fun _ hc => hc⟩

/-- What is stored in a database reads back from its own text. -/
theorem Stores.readsBack (h : Stores path d a)
    (hyears : a.EveryInstant Instant.HasPlainYear) :
    a.EveryInstant Instant.ReadsBack := by
  obtain ⟨text, -, hof⟩ := h
  refine hyears.and ?_
  cases text with
  | none =>
    obtain rfl := Except.ok.inj hof
    exact IsStart.fresh.endsMinute
  | some text => exact (IsStart.read (ofFile_eq_ok_iff.1 hof)).endsMinute

/-! ## While the database is open -/

theorem exitCode_ne_zero (err : InvocationError) : err.exitCode ≠ 0 := by
  unfold InvocationError.exitCode
  split <;> decide

/-- What came of carrying an operation out within a session: it failed, or it
was carried out and what it left was saved if there was something to be
saved. -/
theorem ensures_within (s : Session) (options : Options) (supplies : Supplies)
    (warning : String) :
    Ensures (within s options supplies warning) d fun outcome e =>
      ∃ f, e = f.unlock s.lock ∧
        ((outcome.exitCode ≠ 0 ∧ Spares s.path d f) ∨
          outcome.exitCode = 0 ∧ ∃ output b,
            options.carryOut supplies s.archive = .ok (output, b) ∧
              (b.dirty = false ∧ f = d ∨
                b.dirty ∧ Commits s.path b.pruned.text.toUTF8 d f)) := by
  unfold within
  cases hcarry : options.carryOut supplies s.archive with
  | error err =>
    refine (Session.ensures_drop s).bind fun _ e he => ?_
    exact ensures_pure ⟨d, he, .inl ⟨exitCode_ne_zero err, .refl _ _ _⟩⟩
  | ok answer =>
    obtain ⟨output, b⟩ := answer
    refine (Session.ensures_close { s with archive := b }).bind fun r e h => ?_
    obtain ⟨f, rfl, h⟩ := h
    rcases h with ⟨hclean, rfl, rfl⟩ | ⟨-, err, rfl, hspares⟩ |
      ⟨hdirty, rfl, hcommits⟩
    · exact ensures_pure
        ⟨f, rfl, .inr ⟨rfl, output, b, rfl, .inl ⟨hclean, rfl⟩⟩⟩
    · exact ensures_pure
        ⟨f, rfl, .inl ⟨exitCode_ne_zero (.saveArchive err), hspares⟩⟩
    · exact ensures_pure
        ⟨f, rfl, .inr ⟨rfl, output, b, rfl, .inr ⟨hdirty, hcommits⟩⟩⟩

/-- A database that nobody has open, with the text of an archive in it. -/
structure IsClosed (path : String) (d : Disk) (a : Archive) : Prop where
  available : ∃ number, IsAvailable path number d
  read : ∃ text, d.content? path = some text.toUTF8 ∧ ofText text = .ok a

/-- The next session on a database that is closed begins with its archive. -/
theorem IsClosed.reopens (h : IsClosed path d a) : Reopens path d a := by
  intro timeout
  obtain ⟨number, hav⟩ := h.available
  obtain ⟨text, hcontent, hread⟩ := h.read
  rw [Session.openFile_of_isAvailable hav hcontent (ofFile_eq_ok_iff.2 hread)]
  rfl

/-- What an operation made of the archive in a database is what the database
has when it is closed. -/
theorem exists_isClosed {options : Options} {input : ByteArray} {now : Instant}
    {policy : Policy} {output : String} {s : Session} {b : Archive}
    (hopened : Session.Opened path s d f)
    (hyears : s.archive.EveryInstant Instant.ReadsBack) (hnow : now.ReadsBack)
    (hcarry : options.carryOut ⟨input, now⟩ { s.archive with policy }
      = .ok (output, b))
    (hsaved : b.dirty = false ∧ e = f.hold s.lock ∨
      b.dirty ∧ Commits path b.pruned.text.toUTF8 (f.hold s.lock) e) :
    ∃ reopened, IsClosed path (e.unlock s.lock) reopened ∧
      (if b.dirty then b.pruned else b).IsReadAs reopened ∧
      (b.dirty = false → e.content? path = d.content? path) := by
  obtain ⟨text, htext, hof⟩ := hopened.read
  rcases hsaved with ⟨hclean, rfl⟩ | ⟨hdirty, hcommits⟩
  · -- what is not to be saved is what was read
    rcases Options.carryOut_cases hcarry with rfl | ⟨hdirty, -⟩
    · cases text with
      | none =>
        rw [← Except.ok.inj hof] at hclean
        cases hclean
      | some text =>
        rw [unlock_hold hopened.available.free]
        have hsame : f.content? path = d.content? path :=
          hopened.spares.content?_eq
        refine ⟨s.archive, ⟨⟨s.lock, hopened.available⟩, text,
          hsame.trans htext.symm, ofFile_eq_ok_iff.1 hof⟩, ?_, fun _ => hsame⟩
        rw [if_neg (Bool.eq_false_iff.1 hclean)]
        exact ⟨fun _ => rfl, rfl, rfl, rfl⟩
    · rw [hdirty] at hclean
      cases hclean
  · have hreachable : Reachable Operation.IsAnchored
        (s.archive.perform (.setPolicy policy)) :=
      (reachable_of_ofFile hof).perform trivial
    obtain ⟨c, hread, hreadAs⟩ :=
      exists_isReadAs_of_carryOut hreachable hyears hnow hcarry
    have hav := isAvailable_unlock hopened.available hcommits.toKeepsLock
    refine ⟨c, ⟨⟨s.lock, hav⟩, _, hcommits.content, hread⟩, ?_, ?_⟩
    · rwa [if_pos hdirty]
    · intro hclean
      rw [hdirty] at hclean
      cases hclean

/-- What was done to a database behind the log file, on a disk that nothing is
logged on. -/
structure Operated (options : Options) (c : Configuration)
    (supplies : Supplies) (d : Disk) (exitCode : Nat) (e : Disk) : Prop where
  failed : exitCode ≠ 0 → e.content? (c.databasePath options.isGlobal)
    = d.content? (c.databasePath options.isGlobal)
  succeeded : exitCode = 0 →
    (∀ a, Stores (c.databasePath options.isGlobal) d a →
      a.EveryInstant Instant.HasPlainYear) →
    ∃ a output b reopened, Stores (c.databasePath options.isGlobal) d a ∧
      options.carryOut supplies { a with policy := c.policy }
        = .ok (output, b) ∧
      IsClosed (c.databasePath options.isGlobal) e reopened ∧
      (if b.dirty then b.pruned else b).IsReadAs reopened ∧
      (b.dirty = false → e.content? (c.databasePath options.isGlobal)
        = d.content? (c.databasePath options.isGlobal))

section Operated

variable {options : Options} {c : Configuration} {supplies : Supplies}

theorem Operated.of_failed {exitCode : Nat} (hcode : exitCode ≠ 0)
    (h : e.content? (c.databasePath options.isGlobal)
      = d.content? (c.databasePath options.isGlobal)) :
    Operated options c supplies d exitCode e :=
  ⟨fun _ => h, fun hzero => absurd hzero hcode⟩

/-- What came of an operation within a session that was opened. -/
theorem operated_within {s : Session} {input : ByteArray} {now : Instant}
    (hnow : now.ReadsBack)
    (hopened : Session.Opened (c.databasePath options.isGlobal) s d f)
    (warning : String) :
    Ensures (within
        { s with archive := { s.archive with policy := c.policy } }
        options ⟨input, now⟩ warning) (f.hold s.lock) fun outcome e =>
      Operated options c ⟨input, now⟩ d outcome.exitCode e := by
  refine (ensures_within _ _ _ _).mono fun outcome e h => ?_
  obtain ⟨k, rfl, h⟩ := h
  simp only [hopened.path_eq] at h
  rcases h with ⟨hcode, hspares⟩ | ⟨hcode, output, b, hcarry, hsaved⟩
  · exact .of_failed hcode
      (hspares.content?_eq.trans hopened.spares.content?_eq)
  · refine ⟨fun hne => absurd hcode hne, fun _ hyears => ?_⟩
    have hstores : Stores (c.databasePath options.isGlobal) d s.archive :=
      hopened.read
    obtain ⟨reopened, hclosed, hread, hclean⟩ := exists_isClosed hopened
      (hstores.readsBack (hyears _ hstores)) hnow hcarry hsaved
    exact ⟨s.archive, output, b, reopened, hstores, hcarry, hclosed, hread,
      hclean⟩

theorem within_input {s : Session} {now : Instant} (input other : ByteArray)
    (h : options.action.readsInput = false) (warning : String) :
    (within s options ⟨input, now⟩ warning : StateM FaultyDisk Outcome)
      = within s options ⟨other, now⟩ warning := by
  rw [within, Options.carryOut_input input other h]
  rfl

theorem ensures_operate (env : Environment) (input : ByteArray) {now : Instant}
    (hnow : now.ReadsBack) (options : Options) (c : Configuration)
    (warning : String) :
    Ensures (operate ⟨env, pure input, pure now⟩ options c warning) d
      fun outcome e => Operated options c ⟨input, now⟩ d outcome.exitCode e := by
  refine (Session.ensures_openFile (c.databasePath options.isGlobal)
    c.lockTimeout).bind fun r e h => ?_
  rcases h with ⟨err, rfl, hspares⟩ | ⟨s, f, rfl, rfl, hopened⟩
  · exact ensures_pure (.of_failed (exitCode_ne_zero (.openArchive _ err))
      hspares.content?_eq)
  · simp only
    cases hinput : options.action.readsInput with
    | true =>
      exact operated_within hnow hopened _
    | false =>
      rw [if_neg Bool.false_ne_true, pure_bind, pure_bind,
        within_input _ input hinput]
      exact operated_within hnow hopened _

end Operated

/-! ## Behind the logger -/

section Logged

open LoggedDisk

variable {options : Options} {c : Configuration} {log : Option Nat}

theorem simulates_within (log : Option Nat) (s : Session) (options : Options)
    (supplies : Supplies) (warning : String) :
    Simulates (Shadows s.path log) (within s options supplies warning)
      (within s options supplies warning) := by
  unfold within
  cases options.carryOut supplies s.archive with
  | error err => exact (isSimulation_shadows s.path log).drop.bind fun _ => simulates_pure _
  | ok answer =>
    have hclose := (isSimulation_shadows s.path log).close
      (s := { s with archive := answer.2 })
    refine hclose.bind fun r => ?_
    cases r <;> exact simulates_pure _

theorem simulates_operate (env : Environment) (input : ByteArray) (now : Instant)
    (options : Options) (c : Configuration) (warning : String)
    (log : Option Nat) :
    Simulates (Shadows (c.databasePath options.isGlobal) log)
      (operate ⟨env, pure input, pure now⟩ options c warning)
      (operate ⟨env, pure input, pure now⟩ options c warning) := by
  have hpath : ∀ t : FaultyDisk, ∀ s : Session,
      ((Session.openFile (c.databasePath options.isGlobal) c.lockTimeout :
        StateM FaultyDisk _) t).1 = .ok s →
          s.path = c.databasePath options.isGlobal := by
    intro t s hs
    rcases Session.ensures_openFile (c.databasePath options.isGlobal)
      c.lockTimeout t.faults with ⟨err, herr, -⟩ | ⟨k, e, hk, -, hopened⟩
    · cases hs.symm.trans herr
    · obtain rfl := Except.ok.inj (hs.symm.trans hk)
      exact hopened.path_eq
  refine ((isSimulation_shadows _ log).openAt _ _).bind_of
    (P := fun r => ∀ s, r = .ok s → s.path = c.databasePath options.isGlobal)
    hpath fun r hr => ?_
  cases r with
  | error err => exact simulates_pure _
  | ok s =>
    obtain ⟨archive, path, lock⟩ := s
    obtain rfl : path = c.databasePath options.isGlobal := hr _ rfl
    have hwithin := simulates_within log ⟨{ archive with policy := c.policy },
      c.databasePath options.isGlobal, lock⟩ options
    dsimp only
    cases options.action.readsInput with
    | true => exact hwithin ⟨input, now⟩ warning
    | false => exact hwithin ⟨.empty, now⟩ warning

/-- A configuration that is loaded before anything is logged is the one on the
disk. -/
theorem load_logged (env : Environment) (path : String) {s : LoggedDisk}
    (hlog : s.log = none) (hasked : s.doubts = []) :
    let after := s.after (Configuration.load env path)
    after.2.disk = s.disk ∧ after.2.log = none ∧ after.2.doubts = [] ∧
      ∀ c, after.1 = .ok c →
        ((Configuration.load env path : StateM Disk _) s.disk).1 = .ok c := by
  have hagrees : Simulates (Shadows path none) (Configuration.load env path)
      (Configuration.load env path) := by
    refine (isSimulation_shadows path none).isThere.bind fun b => ?_
    cases b with
    | false => exact simulates_pure _
    | true =>
      refine (isSimulation_shadows path none).readText.bind fun r => ?_
      cases r with
      | error err => exact simulates_pure _
      | ok text =>
        dsimp only
        cases (Configuration.ofDefaults env).withText? text <;>
          exact simulates_pure _
  obtain ⟨hanswer, hrest⟩ := hagrees s ⟨s.disk, s.faults⟩
    ⟨hlog, (erase_none _).symm, rfl, hasked, nofun⟩
  obtain ⟨hdisk, hload⟩ := ensures_load (d := s.disk) env path s.faults
  have hsame := hrest.disk
  rw [erase_none, hdisk] at hsame
  exact ⟨hsame.symm, hrest.log_eq, hrest.doubts, fun c hc =>
    hload c (hanswer.symm.trans hc)⟩

/-- Opening a log file elsewhere leaves the database alone, and what is logged
makes no difference from then on. -/
theorem openLog_logged {logFile : Option String} {s : LoggedDisk}
    (hlog : s.log = none) (hasked : s.doubts = []) (hsound : s.disk.IsSound)
    (h : LogsElsewhere logFile path s.disk) :
    let after := s.after (openLog logFile)
    ∃ log, Shadows path log after.2 ⟨after.2.disk.erase log, after.2.faults⟩ ∧
      (after.2.disk.erase log).content? path = s.disk.content? path := by
  have hunlogged : ∀ t : LoggedDisk, t.disk = s.disk → t.log = none →
      t.doubts = [] → ∃ log, Shadows path log t ⟨t.disk.erase log, t.faults⟩ ∧
        (t.disk.erase log).content? path = s.disk.content? path := by
    intro t hdisk hlog hasked
    exact ⟨none, ⟨hlog, rfl, rfl, hasked, nofun⟩, by rw [erase_none, hdisk]⟩
  cases logFile with
  | none => exact hunlogged s rfl hlog hasked
  | some name =>
    intro after
    have hafter : after.2 = (LoggedDisk.openLog name s).2 := by
      change ((LoggedDisk.openLog name >>= _ : StateM LoggedDisk String) s).2 = _
      rw [bind_apply]
      cases (LoggedDisk.openLog name s).1 <;> rfl
    rw [hafter]
    obtain ⟨hdoubts, hcases⟩ := openLog_cases name hlog
    rcases hcases with ⟨hdisk, hlog⟩ | ⟨number, e, more, hopen, hdisk, hlog⟩
    · exact hunlogged _ hdisk hlog (hdoubts.trans hasked)
    · obtain ⟨hdatabase, htemporary⟩ := h name rfl number e hopen
      obtain ⟨place, data, hopened⟩ := opened_of_openLog hopen
      have hapart : Apart number path e :=
        ⟨(hopened.keeps.sound hsound).file _ _ hopened.file, hdatabase,
          htemporary⟩
      refine ⟨some number, ⟨hlog, rfl, rfl, hdoubts.trans hasked, ?_⟩, ?_⟩
      · rintro _ ⟨⟩
        rw [hdisk]
        exact hapart.append number more
      · rw [hdisk, erase_append, hapart.content?_erase]
        refine hopened.keeps.content?_eq (fun p hp hmem => ?_) (by simp)
        obtain rfl := List.mem_singleton.1 hmem
        exact hdatabase p hp _ hopened.file rfl

/-! ## Whole invocations -/

/-- What was done on the disk on which the log file is empty was done on the disk
with the logger. -/
theorem Operated.isTransaction {supplies : Supplies} {exitCode : Nat}
    {s : LoggedDisk} {t : FaultyDisk}
    (h : Operated options c supplies d exitCode t.disk)
    (hst : Shadows (c.databasePath options.isGlobal) log s t)
    (hsame : d.content? (c.databasePath options.isGlobal)
      = f.content? (c.databasePath options.isGlobal)) :
    IsTransaction options c supplies f exitCode s.disk := by
  have hcontent : t.disk.content? (c.databasePath options.isGlobal)
      = s.disk.content? (c.databasePath options.isGlobal) := by
    rw [hst.disk]
    cases log with
    | none => rw [erase_none]
    | some number => exact (hst.apart number rfl).content?_erase
  have hstores : ∀ a, Stores (c.databasePath options.isGlobal) d a ↔
      Stores (c.databasePath options.isGlobal) f a := by
    intro a
    rw [Stores, Stores, hsame]
  refine ⟨fun hcode => ?_, fun hcode hyears => ?_⟩
  · rw [← hcontent, h.failed hcode, hsame]
  · obtain ⟨a, output, b, reopened, ha, hcarry, hclosed, hread, hclean⟩ :=
      h.succeeded hcode fun a ha => hyears a ((hstores a).1 ha)
    obtain ⟨⟨number, hav⟩, text, htext, hof⟩ := hclosed
    have hclosed : IsClosed (c.databasePath options.isGlobal) s.disk reopened :=
      ⟨⟨number, isAvailable_of_erase (hst.disk ▸ hav)⟩, text,
        hcontent.symm.trans htext, hof⟩
    refine ⟨a, output, b, reopened, (hstores a).1 ha, hcarry, hclosed.reopens,
      hread, fun h => ?_⟩
    rw [← hcontent, hclean h, hsame]

theorem isTransaction_perform (env : Environment) (input : ByteArray)
    {now : Instant} (hnow : now.ReadsBack) {s : LoggedDisk}
    (hlog : s.log = none) (hasked : s.doubts = []) (hsound : s.disk.IsSound)
    (h : LogsElsewhere c.logFile (c.databasePath options.isGlobal) s.disk) :
    let after := s.after (perform ⟨env, pure input, pure now⟩ options c)
    IsTransaction options c ⟨input, now⟩ s.disk after.1.exitCode
      after.2.disk := by
  obtain ⟨log, hopened, hsame⟩ := openLog_logged hlog hasked hsound h
  have hoperated := ensures_operate
    (d := (s.after (openLog c.logFile)).2.disk.erase log) env input hnow options
    c (Output.lines (logFilter env options c).complaints
      ++ (s.after (openLog c.logFile)).1) (s.after (openLog c.logFile)).2.faults
  obtain ⟨hanswer, hst⟩ := simulates_operate env input now options c
    (Output.lines (logFilter env options c).complaints
      ++ (s.after (openLog c.logFile)).1) log _ _ hopened
  rw [← hanswer] at hoperated
  rw [perform, LoggedDisk.after_bind]
  exact hoperated.isTransaction hst hsame

end Logged

/-- **A transaction.**  Whatever goes wrong with the operations on files and
whatever is logged, an invocation that fails leaves the database as it was, and
one that succeeds leaves there what its operation made of the archive that was
stored.  Questions are answered truthfully (`htrue`), the log file is another
file, and the clock shows no leap second but at the end of a minute. -/
theorem transaction_run (env : Environment) (words : List String)
    (input : ByteArray) {now : Instant} (hyear : now.HasPlainYear)
    (hminute : now.EndsMinute) {s : LoggedDisk} (hstart : s.log = none)
    (htrue : s.doubts = []) (hsound : s.disk.IsSound) :
    let after := s.after (run ⟨env, pure input, pure now⟩ words)
    match plan? env words s.disk with
    | none => after.2.disk = s.disk
    | some (options, c) =>
      LogsElsewhere c.logFile (c.databasePath options.isGlobal) s.disk →
        IsTransaction options c ⟨input, now⟩ s.disk after.1.exitCode
          after.2.disk := by
  intro after
  have hafter : after = s.after (run ⟨env, pure input, pure now⟩ words) := rfl
  rw [hafter, run]
  cases hline : CommandLine.read words with
  | error stop =>
    rw [plan?_of_stop hline]
    rfl
  | ok line =>
    simp only
    cases hoptions : Options.ofCommandLine
        (Zone.ofSetting (env.lookup "TZ")) line with
    | error fault =>
      rw [plan?_of_fault hline hoptions]
      rfl
    | ok options =>
      simp only
      obtain ⟨hdisk, hlog, hasked, hload⟩ := load_logged env
        (options.configuration.getD (Configuration.filePath env)) hstart htrue
      rw [LoggedDisk.after_bind]
      generalize s.after (Configuration.load env _) = loaded at *
      obtain ⟨r, t⟩ := loaded
      cases r with
      | error fault =>
        split
        · exact hdisk
        · intro _
          refine ⟨fun _ => by rw [← hdisk]; rfl, fun hcode => ?_⟩
          exact absurd hcode (exitCode_ne_zero (.configuration fault))
      | ok c =>
        rw [plan?_of_load hline hoptions (hload c rfl), ← hdisk]
        simp only
        intro h
        exact isTransaction_perform env input ⟨hyear, hminute⟩ hlog hasked
          (hdisk ▸ hsound) h

/-- A disk with a database that holds nothing but the default location. -/
def plainDisk : Disk where
  nodes := [(["user"], .directory),
    (["user", "archive.xml"],
      .file 0 "<archive><location id=\"default\"/></archive>".toUTF8)]
  nextNumber := 1

theorem isSound_plainDisk : plainDisk.IsSound where
  file p f hf := by
    obtain ⟨number, data⟩ := f
    have hnode := file?_eq_some_iff.1 hf
    rw [node?] at hnode
    split at hnode
    · cases hnode
    · simp only [plainDisk, List.lookup_cons, List.lookup_nil] at hnode
      split at hnode
      · cases hnode
      · split at hnode
        · obtain ⟨rfl, -⟩ := Node.file.inj (Option.some.inj hnode)
          exact Nat.zero_lt_one
        · cases hnode
  locked n hn := by cases hn

/-- A location is added while something is logged to a file beside the database
and an operation fails. -/
theorem transaction_of_added_location :
    let words := ["--add-location", "--location", "desk"]
    let env := [("ARCHIVER_DATA_DIR", "user"), ("ARCHIVER_LOG_FILE", "user/log")]
    let surroundings : Surroundings (StateM LoggedDisk) :=
      ⟨env, pure .empty, pure (.ofSecond 9)⟩
    let s : LoggedDisk :=
      { disk := plainDisk, lines := List.replicate 9 "DEBUG\n".toUTF8 }
    let after := s.after (run surroundings words)
    (Instant.ofSecond 9).HasPlainYear ∧ (Instant.ofSecond 9).EndsMinute ∧
      after.1.exitCode = 0 ∧
      after.2.disk.content? "user/archive.xml"
        ≠ plainDisk.content? "user/archive.xml" ∧
      after.2.disk.content? "user/log" ≠ some .empty ∧
      ∃ options c, plan? env words plainDisk = some (options, c) ∧
        c.databasePath options.isGlobal = "user/archive.xml" ∧
        LogsElsewhere c.logFile "user/archive.xml" plainDisk ∧
        IsTransaction options c ⟨.empty, .ofSecond 9⟩ plainDisk
          after.1.exitCode after.2.disk := by
  intro words env surroundings s after
  have hyear : (Instant.ofSecond 9).HasPlainYear := by decide +kernel
  have hminute : (Instant.ofSecond 9).EndsMinute := by decide +kernel
  have hpath : (plan? env words plainDisk).map (fun p =>
      (p.2.databasePath p.1.isGlobal, p.2.logFile)) =
        some ("user/archive.xml", some "user/log") := by
    decide +kernel
  obtain ⟨⟨options, c⟩, hplan, hfacts⟩ := Option.map_eq_some_iff.1 hpath
  obtain ⟨hpath, hlogFile⟩ := Prod.mk.inj hfacts
  have helsewhere : LogsElsewhere c.logFile "user/archive.xml" plainDisk := by
    rw [hlogFile]
    rintro _ ⟨⟩ number e hopen
    have hlog : (plainDisk.openLog "user/log").toOption.map (fun x =>
        (x.1, x.2.file? (temporaryPlace "user/archive.xml"),
          (x.2.file? ["user", "archive.xml"]).map Prod.fst)) =
        some (1, none, some 0) := by decide +kernel
    rw [hopen] at hlog
    simp only [Except.toOption, Option.map_some, Option.some.injEq,
      Prod.mk.injEq, Option.map_eq_some_iff] at hlog
    obtain ⟨rfl, htemporary, x, hx, hnumber⟩ := hlog
    have hplace : place? "user/archive.xml" = some ["user", "archive.xml"] := by
      decide +kernel
    refine ⟨fun p hp f hf => ?_, fun f hf => ?_⟩
    · obtain rfl := Option.some.inj (hplace.symm.trans hp)
      obtain rfl := Option.some.inj (hx.symm.trans hf)
      rw [hnumber]
      exact Nat.zero_ne_one
    · cases htemporary.symm.trans hf
  have hrun := transaction_run env words .empty hyear hminute (s := s) rfl rfl
    isSound_plainDisk
  rw [show plan? env words s.disk = some (options, c) from hplan] at hrun
  simp only [hpath] at hrun
  have hchanged : after.1.exitCode = 0 ∧
      after.2.disk.content? "user/archive.xml"
        ≠ plainDisk.content? "user/archive.xml" ∧
      after.2.disk.content? "user/log" ≠ some .empty := by
    decide +kernel
  exact ⟨hyear, hminute, hchanged.1, hchanged.2.1, hchanged.2.2, options, c,
    hplan, hpath, helsewhere, hrun helsewhere⟩

/-- An invocation that fails leaves an empty database where there was none, and a
longer one where there was one, if the log file is the database.  And an
invocation that succeeds leaves a new archive with nothing of the old one if
asking whether the database is there failed. -/
theorem not_transaction :
    let surroundings (env : Environment) : Surroundings (StateM LoggedDisk) :=
      ⟨env, pure .empty, pure (.ofSecond 9)⟩
    let env := [("ARCHIVER_DATA_DIR", "user")]
    let logging := ("ARCHIVER_LOG_FILE", "user/archive.xml") :: env
    let absent : LoggedDisk := { disk := { nodes := [(["user"], .directory)] } }
    let made := absent.after (run (surroundings logging) ["--list-locations"])
    let plain : LoggedDisk :=
      { disk := plainDisk, lines := List.replicate 9 "DEBUG\n".toUTF8 }
    let longer := plain.after
      (run (surroundings logging) ["--remove-location", "--location", "desk"])
    let full : LoggedDisk :=
      { disk := plainDisk.put ["user", "archive.xml"]
          (.file 0 (Archive.fresh.run
            [.newLocation "site" none]).text.toUTF8)
        doubts := [false, false, true] }
    let lost := full.after
      (run (surroundings env) ["--add-location", "--location", "desk"])
    (made.1.exitCode ≠ 0 ∧
      absent.disk.content? "user/archive.xml" = none ∧
      made.2.disk.content? "user/archive.xml" = some .empty) ∧
    (longer.1.exitCode ≠ 0 ∧
      longer.2.disk.content? "user/archive.xml"
        ≠ plain.disk.content? "user/archive.xml") ∧
    lost.1.exitCode = 0 ∧
      lost.2.disk.content? "user/archive.xml" =
        some (Archive.fresh.run
          [.newLocation "desk" none]).text.toUTF8 := by
  decide +kernel

end SettingsArchive.Invocation
