import SettingsArchive.Proofs.Batch
import SettingsArchive.Proofs.Counting

/-!
# Numbers are issued once

An operation that stores something answers with the number of the write, and
`Archive.issued` lists these answers along a run.  The revisions with the largest
numbers may be gone by then, purged or trimmed or removed with their location, so
nothing that is stored says which numbers were issued.  The counter does.  Each
answer is its number and moves it on (`of_issued?`), it never moves back, and
reading the archive's own text keeps it (`Step.le_nextRevision`).

So the numbers of a run increase, and each is above all that the archive holds
(`issued_of_run`).  An operation that stores nothing takes no number
(`IsIdle.nextRevision_eq`).
-/

namespace SettingsArchive.Archive

open Directory

variable {a b : Archive} {id backend : String}

/-! ## Answers -/

/-- The number that an operation answers with, if it stored something. -/
def issued? (a : Archive) : Operation → Option Nat
  | .storeValue id path value time mask =>
    (a.storeValue id path value time mask).toOption.map Prod.fst
  | .storeDocument id backend items time mask =>
    (a.storeDocument id backend items time mask).1.toOption.bind
      StoreReport.revision
  | .storeSnapshot id backend text time mask =>
    (a.storeSnapshot id backend text time mask).1.toOption.bind
      StoreReport.revision
  | .rollback id request now =>
    (a.rollback id request now).1.toOption.bind RollbackReport.revision
  | _ => none

/-- The numbers that operations answer with, one after the other. -/
def issued (a : Archive) : List Operation → List Nat
  | [] => []
  | op :: ops => (a.issued? op).toList ++ (a.perform op).issued ops

/-- A number that a revision of the archive has. -/
def HoldsNumber (a : Archive) (n : Nat) : Prop :=
  ∃ l ∈ a.locations, ∃ path e, l.tree.get? path = some e ∧
    ∃ r ∈ e.revisions, r.id = n

/-- An operation that stores nothing: a value, a snapshot, or a document whose
texts spell each path in one way, that is refused, a document or a snapshot
without settings, a rollback that brings nothing back, or an operation that does
not write. -/
def IsIdle (a : Archive) : Operation → Prop
  | .storeValue id path value time mask =>
    ∃ e, a.storeValue id path value time mask = .error e
  | .storeDocument id backend items time mask =>
    items = [] ∨ Path.SpelledOnce (items.map Prod.fst) ∧
      ∃ e, (a.storeDocument id backend items time mask).1 = .error e
  | .storeSnapshot id backend text time mask =>
    (∃ e, (a.storeSnapshot id backend text time mask).1 = .error e) ∨
      ∃ report, (a.storeSnapshot id backend text time mask).1 = .ok report ∧
        report.stored = 0
  | .rollback id request now =>
    ∃ report, (a.rollback id request now).1 = .ok report ∧ report.applied = []
  | _ => True

/-! ## The counter -/

/-- What an operation leaves of the counter that answers with this number, or
with none. -/
def Takes (a b : Archive) (number : Option Nat) : Prop :=
  number = none ∧ b.nextRevision = a.nextRevision ∨
    number = some a.nextRevision ∧ b.nextRevision = a.nextRevision + 1

theorem Takes.of_some {n : Nat} (h : a.Takes b (some n)) :
    n = a.nextRevision ∧ b.nextRevision = n + 1 := by
  rcases h with ⟨hnone, -⟩ | ⟨hnumber, hnext⟩
  · cases hnone
  · obtain rfl := Option.some.inj hnumber
    exact ⟨rfl, hnext⟩

theorem Takes.of_none (h : a.Takes b none) :
    b.nextRevision = a.nextRevision := by
  rcases h with ⟨-, hnext⟩ | ⟨hnumber, -⟩
  · exact hnext
  · cases hnumber

theorem takes_of_storeValue {path : String} {value : Value} {time : Instant}
    {mask : Mask} {n : Nat}
    (h : a.storeValue id path value time mask = .ok (n, b)) :
    a.Takes b (some n) := by
  obtain ⟨backend, l, path, -, -, -, -, rfl, -, rfl⟩ := of_storeValue h
  exact Or.inr ⟨rfl, rfl⟩

/-- A document takes a number if it has settings. -/
theorem takes_of_storeDocument {items : List (String × Value)}
    {time : Instant} {mask : Mask} {report : StoreReport}
    (h : a.storeDocument id backend items time mask = (.ok report, b)) :
    a.Takes b report.revision ∧ (report.revision = none ↔ items = []) ∧
      report.stored = items.length := by
  obtain ⟨l, number, c, placed, tree, hp, -, -, rfl, rfl⟩ :=
    prepared_of_storeDocument h
  obtain ⟨-, -, -, hcount⟩ := of_prepareDocument hp
  rcases hcount with ⟨hnil, rfl, rfl⟩ | ⟨hne, rfl, -, rfl⟩
  · exact ⟨Or.inl ⟨rfl, rfl⟩, by simpa using hnil, rfl⟩
  · exact ⟨Or.inr ⟨rfl, rfl⟩, by simpa using hne, rfl⟩

/-- A rollback takes a number if it brings settings back. -/
theorem takes_of_rollback {request : RollbackRequest} {now : Instant}
    {report : RollbackReport}
    (h : a.rollback id request now = (.ok report, b)) :
    a.Takes b report.revision ∧
      (report.revision = none ↔ report.applied = []) := by
  obtain ⟨plan, l, number, c, hp, rfl, hdone⟩ := prepared_of_rollback h
  obtain ⟨-, -, hcount⟩ := of_prepareRollback hp
  rcases hcount with ⟨hnil, rfl, rfl⟩ | ⟨hne, rfl, -, rfl⟩
  · obtain rfl : b = c := by simpa using hdone
    exact ⟨Or.inl ⟨rfl, rfl⟩, by simp [hnil]⟩
  · obtain ⟨n, m, -, -, rfl⟩ := hdone.resolve_left (by simp)
    exact ⟨Or.inr ⟨rfl, rfl⟩, by simpa using hne⟩

/-- The number that an operation answers with is the next one, and then it is
used up. -/
theorem of_issued? {op : Operation} {n : Nat} (h : a.issued? op = some n) :
    n = a.nextRevision ∧ (a.perform op).nextRevision = n + 1 := by
  cases op with
  | storeValue id path value time mask =>
    obtain ⟨⟨m, b⟩, hx, rfl⟩ := Option.map_eq_some_iff.1 h
    cases hstore : a.storeValue id path value time mask with
    | error e =>
      rw [hstore] at hx
      cases hx
    | ok x =>
      rw [hstore] at hx
      obtain rfl : x = (m, b) := Option.some.inj hx
      have hperform : a.perform (.storeValue id path value time mask) = b := by
        simp only [perform, hstore]
        rfl
      rw [hperform]
      exact (takes_of_storeValue hstore).of_some
  | storeDocument id backend items time mask =>
    obtain ⟨report, hreport, hn⟩ := Option.bind_eq_some_iff.1 h
    have htakes := (takes_of_storeDocument (eq_mk_of_toOption hreport)).1
    exact (hn ▸ htakes).of_some
  | storeSnapshot id backend text time mask =>
    obtain ⟨report, hreport, hn⟩ := Option.bind_eq_some_iff.1 h
    obtain ⟨-, items, -, -, hitems⟩ :=
      of_storeSnapshot (eq_mk_of_toOption hreport)
    have htakes := (takes_of_storeDocument hitems).1
    exact (hn ▸ htakes).of_some
  | rollback id request now =>
    obtain ⟨report, hreport, hn⟩ := Option.bind_eq_some_iff.1 h
    have htakes := (takes_of_rollback (eq_mk_of_toOption hreport)).1
    exact (hn ▸ htakes).of_some
  | _ => cases h

/-! ## Operations that store nothing -/

/-- A snapshot is stored with all its settings or changes nothing. -/
theorem storeSnapshot_of_error {text : String} {time : Instant} {mask : Mask}
    {e : ArchiveError}
    (h : a.storeSnapshot id backend text time mask = (.error e, b)) : b = a := by
  unfold storeSnapshot at h
  split at h
  · exact (Prod.mk.inj h).2.symm
  · split at h
    · exact (Prod.mk.inj h).2.symm
    · rename_i hitems
      exact storeDocument_of_error
        (Snapshot.spelledOnce_of_ofElement hitems) h

/-- An operation that stores nothing takes no number. -/
theorem IsIdle.nextRevision_eq (ha : a.WellFormed) (hn : a.IsNumbered)
    {op : Operation} (h : a.IsIdle op) :
    a.issued? op = none ∧ (a.perform op).nextRevision = a.nextRevision := by
  have hother : op.time? = none →
      (a.perform op).nextRevision = a.nextRevision := by
    intro htime
    have hstep : Step False op.time? a (a.perform op) := step_perform ha op nofun
    rw [htime] at hstep
    exact hstep.nextRevision_eq ha hn
  cases op with
  | storeValue id path value time mask =>
    obtain ⟨e, he⟩ := h
    simp only [issued?, perform, he]
    exact ⟨rfl, rfl⟩
  | storeDocument id backend items time mask =>
    simp only [issued?, perform]
    cases hstore : a.storeDocument id backend items time mask with
    | mk answer b =>
      cases answer with
      | error e =>
        have hspelled : Path.SpelledOnce (items.map Prod.fst) := by
          rcases h with rfl | ⟨hspelled, -⟩
          · simp [Path.SpelledOnce]
          · exact hspelled
        exact ⟨rfl,
          congrArg nextRevision (storeDocument_of_error hspelled hstore)⟩
      | ok report =>
        obtain ⟨htakes, hnone, -⟩ := takes_of_storeDocument hstore
        rcases h with rfl | ⟨-, e, he⟩
        · have hnumber := hnone.2 rfl
          exact ⟨hnumber, (hnumber ▸ htakes).of_none⟩
        · rw [hstore] at he
          cases he
  | storeSnapshot id backend text time mask =>
    simp only [issued?, perform]
    cases hstore : a.storeSnapshot id backend text time mask with
    | mk answer b =>
      cases answer with
      | error e =>
        exact ⟨rfl, congrArg nextRevision (storeSnapshot_of_error hstore)⟩
      | ok report =>
        obtain ⟨-, items, -, -, hitems⟩ := of_storeSnapshot hstore
        obtain ⟨htakes, hnone, hlength⟩ := takes_of_storeDocument hitems
        rcases h with ⟨e, he⟩ | ⟨report', hreport, hstored⟩
        · rw [hstore] at he
          cases he
        · rw [hstore] at hreport
          obtain rfl := Except.ok.inj hreport
          have hnumber := hnone.2 (List.length_eq_zero_iff.1 (hlength ▸ hstored))
          exact ⟨hnumber, (hnumber ▸ htakes).of_none⟩
  | rollback id request now =>
    obtain ⟨report, hreport, happlied⟩ := h
    simp only [issued?, perform]
    cases hrollback : a.rollback id request now with
    | mk answer b =>
      rw [hrollback] at hreport
      obtain rfl : answer = .ok report := hreport
      obtain ⟨htakes, hnone⟩ := takes_of_rollback hrollback
      have hnumber := hnone.2 happlied
      exact ⟨hnumber, (hnumber ▸ htakes).of_none⟩
  | _ => exact ⟨rfl, hother rfl⟩

/-! ## Runs -/

theorem issued_append (a : Archive) (before after : List Operation) :
    a.issued (before ++ after) =
      a.issued before ++ (a.run before).issued after := by
  induction before generalizing a with
  | nil => rfl
  | cons op before ih =>
    rw [List.cons_append, issued, ih, issued, List.append_assoc]
    rfl

/-- The numbers of a run increase, and none is below the number of the next
write. -/
theorem pairwise_issued (ha : a.WellFormed) (hn : a.IsNumbered)
    (ops : List Operation) :
    (a.issued ops).Pairwise (· < ·) ∧ ∀ n ∈ a.issued ops, a.nextRevision ≤ n := by
  induction ops generalizing a with
  | nil => exact ⟨.nil, by simp [issued]⟩
  | cons op ops ih =>
    have hstep : Step False op.time? a (a.perform op) := step_perform ha op nofun
    obtain ⟨hpairwise, hlater⟩ := ih (hstep.wellFormed ha) (hstep.isNumbered ha hn)
    rw [issued]
    cases hop : a.issued? op with
    | none =>
      exact ⟨hpairwise,
        fun n hmem => Nat.le_trans (hstep.le_nextRevision ha hn) (hlater n hmem)⟩
    | some m =>
      obtain ⟨rfl, hnext⟩ := of_issued? hop
      rw [hnext] at hlater
      exact ⟨List.pairwise_cons.2 ⟨hlater, hpairwise⟩,
        List.forall_mem_cons.2 ⟨Nat.le_refl _,
          fun n hmem => Nat.le_of_succ_le (hlater n hmem)⟩⟩

/-- The numbers that operations answer with increase along a run.  Each is the
number of the next write, above all numbers that the archive holds before the
operation, and is used up by it.  An operation that stores nothing uses up no
number. -/
theorem issued_of_run (h : IsStart a) (ops : List Operation) :
    (a.issued ops).Pairwise (· < ·) ∧
      ∀ before op after, before ++ op :: after = ops →
        (∀ n, (a.run before).issued? op = some n →
          n = (a.run before).nextRevision ∧
          (∀ m, (a.run before).HoldsNumber m → m < n) ∧
          (a.run (before ++ [op])).nextRevision = n + 1) ∧
        ((a.run before).IsIdle op →
          (a.run before).issued? op = none ∧
          (a.run (before ++ [op])).nextRevision =
            (a.run before).nextRevision) := by
  refine ⟨(pairwise_issued h.wellFormed h.isNumbered ops).1, ?_⟩
  intro before op after _
  have hreach := reachable_run h before
  rw [run_concat]
  constructor
  · intro n hissued
    obtain ⟨rfl, hnext⟩ := of_issued? hissued
    refine ⟨rfl, ?_, hnext⟩
    rintro m ⟨l, hl, path, e, he, r, hr, rfl⟩
    exact hreach.isNumbered.below l hl path e he r hr
  · intro hidle
    exact hidle.nextRevision_eq hreach.wellFormed hreach.isNumbered

/-- Numbers go on behind the loss of every revision: the only setting is purged,
the other location is removed, and the archive is saved and read.  A value of
another kind takes no number. -/
theorem issued_of_removed_revisions :
    let before : List Operation := [
      .newLocation "site" none,
      .storeValue "default" "/app/size" (.int 1) (.ofSecond 5) .keep,
      .storeDocument "site" "app"
        [("/app/size", .int 2), ("/app/name", .string "x")] (.ofSecond 6) .keep,
      .storeValue "default" "/app/size" (.bool true) (.ofSecond 7) .retire,
      .purge "default" "/app/size", .removeLocation "site"]
    let op : Operation :=
      .storeValue "default" "/app/size" (.int 4) (.ofSecond 5) .keep
    let read := before ++ [.reload]
    let ops := read ++ [op]
    fresh.issued ops = [1, 2, 3] ∧ (fresh.issued ops).Pairwise (· < ·) ∧
      (fresh.run read).nextRevision = 3 ∧
      (∀ m, (fresh.run read).HoldsNumber m → m < 3) ∧
      (fresh.run ops).nextRevision = 4 := by
  intro before op read ops
  have h : Reachable Operation.IsAnchored (fresh.run before) := by
    refine ⟨fresh, before, .fresh, ?_, rfl⟩
    simp only [before, List.forall_mem_cons, Operation.IsAnchored, true_and]
    exact ⟨⟨⟨_, rfl⟩, ⟨_, rfl⟩, by simp⟩, by simp⟩
  have hempty : ∀ l ∈ (fresh.run before).locations,
      l.tree.allEntries.isEmpty := by decide +kernel
  have hprintable : (fresh.run before).contents.IsPrintable := by
    intro l hl x hx
    rw [List.isEmpty_iff.1 (hempty l hl)] at hx
    cases hx
  have hreload := perform_reload h.isSound hprintable h.isForest.current
  have hread : fresh.run read =
      { fresh.run before with dirty := false } := by
    rw [run_concat]
    exact hreload
  have hissued : fresh.issued ops = [1, 2, 3] := by
    rw [issued_append, hread, issued_append]
    decide +kernel
  have hanswer : (fresh.run read).issued? op = some 3 := by
    rw [hread]
    decide +kernel
  obtain ⟨hpairwise, hsteps⟩ := issued_of_run .fresh ops
  obtain ⟨hnext, hheld, hused⟩ := (hsteps read op [] rfl).1 3 hanswer
  exact ⟨hissued, hpairwise, hnext.symm, hheld, hused⟩

end SettingsArchive.Archive
