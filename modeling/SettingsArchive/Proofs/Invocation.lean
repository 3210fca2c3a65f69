import SettingsArchive.Invocation
import SettingsArchive.Proofs.Clean

/-!
# What invocations do to an archive

An operation of an invocation that was carried out either left the archive as
it was, or was one operation on the archive and left something to be saved
(`Options.carryOut_cases`).  What is saved then reads back
(`Archive.exists_isReadAs_of_carryOut`).
-/

namespace SettingsArchive

open Archive

theorem mapError_eq_ok {ε ε' α : Type} {x : Except ε α} {f : ε → ε'} {a : α}
    (h : x.mapError f = .ok a) : x = .ok a := by
  cases x with
  | error e => cases h
  | ok b => exact congrArg _ (Except.ok.inj h)

namespace Options

variable {options : Options} {supplies : Supplies} {a b : Archive}
  {output : String}

/-! ## Operations that are carried out -/

/-- One operation on an archive, at the time of an invocation, that left
something to be saved. -/
def IsChange (now : Instant) (a b : Archive) : Prop :=
  b.dirty = true ∧ ∃ op : Archive.Operation, op.IsAnchored ∧
    (∀ t, op.time? = some t → t = now) ∧ b = a.perform op

/-- An operation without a time whose result is printed. -/
theorem isChange_of_attempt (op : Archive.Operation) {what message : String}
    {x : Except ArchiveError Archive} {now : Instant}
    (hop : op.IsAnchored) (htime : op.time? = none)
    (hperform : a.perform op = a.orElse x)
    (hdirty : ∀ c, x = .ok c → c.dirty = true)
    (h : (do
      let c ← Operation.attempt what x
      return (message, c)) = .ok (output, b)) :
    IsChange now a b := by
  obtain ⟨c, hattempt, hreturn⟩ := bind_eq_ok h
  obtain ⟨-, rfl⟩ := Prod.mk.inj (Except.ok.inj hreturn)
  have hx := mapError_eq_ok hattempt
  refine ⟨hdirty c hx, op, hop, ?_, ?_⟩
  · intro t ht
    rw [htime] at ht
    cases ht
  · rw [hperform, hx]
    rfl

theorem isChange_of_store {form : OutputForm} {location backend : String}
    (h : Operation.store a form supplies location backend = .ok (output, b)) :
    IsChange supplies.now a b := by
  unfold Operation.store at h
  split at h
  · cases h
  · rename_i text _
    cases hstore : a.storeSnapshot location backend text supplies.now .retire with
    | mk r c =>
      rw [hstore] at h
      obtain ⟨report, hattempt, hreturn⟩ := bind_eq_ok h
      obtain ⟨-, rfl⟩ := Prod.mk.inj (Except.ok.inj hreturn)
      obtain rfl := mapError_eq_ok hattempt
      refine ⟨dirty_of_storeSnapshot hstore, .storeSnapshot location backend
        text supplies.now .retire, trivial, ?_, ?_⟩
      · intro t ht
        exact (Option.some.inj ht).symm
      · rw [perform, hstore]

theorem cases_of_rollback {form : OutputForm} {now : Instant}
    {location : String} {request : RollbackRequest} {preview : Bool}
    (h : Operation.rollback a form now location request preview
      = .ok (output, b)) :
    b = a ∨ IsChange now a b := by
  unfold Operation.rollback at h
  split at h
  · obtain ⟨shown, -, hreturn⟩ := bind_eq_ok h
    exact .inl (Prod.mk.inj (Except.ok.inj hreturn)).2.symm
  · cases hrollback : a.rollback location request now with
    | mk r c =>
      simp only [hrollback] at h
      obtain ⟨report, hattempt, hreturn⟩ := bind_eq_ok h
      obtain ⟨-, rfl⟩ := Prod.mk.inj (Except.ok.inj hreturn)
      obtain rfl := mapError_eq_ok hattempt
      refine (eq_or_dirty_of_rollback hrollback).imp_right fun hdirty => ?_
      refine ⟨hdirty, .rollback location request now, trivial, ?_, ?_⟩
      · intro t ht
        exact (Option.some.inj ht).symm
      · rw [perform, hrollback]

theorem isChange_of_addBackend {form : OutputForm} {now : Instant}
    {location backend : String} {master : Bool}
    (h : Operation.addBackend a form location backend master
      = .ok (output, b)) : IsChange now a b := by
  unfold Operation.addBackend at h
  split at h
  · exact isChange_of_attempt (.addMaster backend) trivial rfl rfl
      (fun _ => dirty_of_addMaster) h
  · exact isChange_of_attempt (.addBackend location backend) trivial rfl rfl
      (fun _ => dirty_of_addBackend) h

theorem isChange_of_removeBackend {form : OutputForm} {now : Instant}
    {location backend : String} {master : Bool}
    (h : Operation.removeBackend a form location backend master
      = .ok (output, b)) : IsChange now a b := by
  unfold Operation.removeBackend at h
  split at h
  · exact isChange_of_attempt (.removeMaster backend) trivial rfl rfl
      (fun _ => dirty_of_removeMaster) h
  · exact isChange_of_attempt (.removeBackend location backend) trivial rfl rfl
      (fun _ => dirty_of_removeBackend) h

theorem eq_of_history {form : OutputForm} {location path : String}
    (h : Operation.history a form location path = .ok (output, b)) : b = a := by
  obtain ⟨found, -, hreturn⟩ := bind_eq_ok h
  split at hreturn
  · exact (Prod.mk.inj (Except.ok.inj hreturn)).2.symm
  · cases hreturn

/-- What an operation that was carried out did to the archive. -/
theorem carryOut_cases (h : options.carryOut supplies a = .ok (output, b)) :
    b = a ∨ IsChange supplies.now a b := by
  unfold carryOut at h
  cases haction : options.action with
  | listLocations =>
    rw [haction] at h
    exact .inl (Prod.mk.inj (Except.ok.inj h)).2.symm
  | changeLocation location =>
    rw [haction] at h
    obtain ⟨c, hattempt, hreturn⟩ := bind_eq_ok h
    obtain ⟨-, rfl⟩ := Prod.mk.inj (Except.ok.inj hreturn)
    have hset := mapError_eq_ok hattempt
    refine (eq_or_dirty_of_setCurrent hset).imp_right fun hdirty =>
      ⟨hdirty, .setCurrent location, trivial, nofun, ?_⟩
    rw [perform, hset]
    rfl
  | addLocation location parent =>
    rw [haction] at h
    exact .inr (isChange_of_attempt (.newLocation location parent) trivial rfl
      rfl (fun _ => dirty_of_newLocation) h)
  | store backend =>
    rw [haction] at h
    obtain ⟨location, -, h⟩ := bind_eq_ok h
    exact .inr (isChange_of_store h)
  | rollback request preview =>
    rw [haction] at h
    obtain ⟨location, -, h⟩ := bind_eq_ok h
    exact cases_of_rollback h
  | renameLocation newName =>
    rw [haction] at h
    obtain ⟨location, -, h⟩ := bind_eq_ok h
    exact .inr (isChange_of_attempt (.rename location newName) trivial rfl rfl
      (fun _ => dirty_of_rename) h)
  | removeLocation =>
    rw [haction] at h
    obtain ⟨location, -, h⟩ := bind_eq_ok h
    exact .inr (isChange_of_attempt (.removeLocation location) trivial rfl rfl
      (fun _ => dirty_of_removeLocation) h)
  | addBackend backend master =>
    rw [haction] at h
    obtain ⟨location, -, h⟩ := bind_eq_ok h
    exact .inr (isChange_of_addBackend h)
  | removeBackend backend master =>
    rw [haction] at h
    obtain ⟨location, -, h⟩ := bind_eq_ok h
    exact .inr (isChange_of_removeBackend h)
  | history path =>
    rw [haction] at h
    obtain ⟨location, -, h⟩ := bind_eq_ok h
    exact .inl (eq_of_history h)

/-- Only an operation that reads standard input depends on it. -/
theorem carryOut_input {now : Instant} (input other : ByteArray)
    (h : options.action.readsInput = false) :
    options.carryOut ⟨input, now⟩ a = options.carryOut ⟨other, now⟩ a := by
  unfold carryOut
  cases haction : options.action with
  | store backend =>
    rw [haction] at h
    cases h
  | _ => rfl

end Options

namespace Archive

variable {a b : Archive}

/-! ## Reading again what was saved -/

/-- No value of an archive holds a NaN. -/
def IsNumeric (a : Archive) : Prop :=
  ∀ l ∈ a.locations, ∀ x ∈ l.tree.allEntries, ∀ r ∈ x.2.revisions,
    r.value.hasNaN = false

/-- An archive that was read again has what it had, which includes the
locations unless there is a NaN in a value. -/
structure IsReadAs (a b : Archive) : Prop where
  locations : a.IsNumeric → b.locations = a.locations
  current : b.current = a.current
  masters : b.masters = a.masters
  nextRevision : b.nextRevision = a.nextRevision

/-- The text of an archive that operations lead to gives the archive again. -/
theorem exists_isReadAs (h : Reachable Operation.IsAnchored a)
    (hread : a.EveryInstant Instant.ReadsBack) :
    ∃ b, ofText a.text = .ok b ∧ a.IsReadAs b := by
  have hdated := isDated_of_readsBack h hread
  obtain ⟨b, hb, hcontents, -⟩ :=
    exists_ofText_text h.isSound hdated h.isForest.current
  refine ⟨b, hb, ?_, ?_, ?_, ?_⟩
  · intro hnumeric
    have hprintable : a.contents.IsPrintable := by
      intro l hl x hx r hr
      have hget := (h.wellFormed.trees l hl).mem_allEntries_iff.1 hx
      obtain ⟨hyear, hminute⟩ :=
        Directory.everyInstant_iff.1 (hread l hl) x.1 x.2 hget r hr
      exact ⟨hyear, hminute, hnumeric l hl x hx r hr⟩
    rw [hprintable.canonical_eq] at hcontents
    exact congrArg Contents.locations hcontents
  · exact Option.some.inj (congrArg Contents.current hcontents)
  · exact congrArg Contents.masters hcontents
  · exact congrArg Contents.nextRevision hcontents

/-- A new archive that is to be saved is one whose only backend was removed
again. -/
theorem run_fresh : fresh.run [.addMaster "app", .removeMaster "app"]
    = fresh.changed :=
  rfl

theorem ofFile_eq_ok_iff {path text : String} :
    Session.ofFile path (some text) = .ok a ↔ ofText text = .ok a := by
  rw [Session.ofFile]
  split <;> simp_all

/-- An archive that a session begins with is one that operations lead to. -/
theorem reachable_of_ofFile {path : String} {text : Option String}
    (h : Session.ofFile path text = .ok a) :
    Reachable Operation.IsAnchored a := by
  cases text with
  | none =>
    obtain rfl := Except.ok.inj h
    rw [← run_fresh]
    exact (reachable_of_isStart .fresh).run (by simp [Operation.IsAnchored])
  | some text => exact reachable_of_isStart (.read (ofFile_eq_ok_iff.1 h))

/-- What is saved after an operation that was carried out reads back. -/
theorem exists_isReadAs_of_carryOut {options : Options} {input : ByteArray}
    {now : Instant} {output : String} (h : Reachable Operation.IsAnchored a)
    (hread : a.EveryInstant Instant.ReadsBack) (hnow : now.ReadsBack)
    (hcarry : options.carryOut ⟨input, now⟩ a = .ok (output, b)) :
    ∃ c, ofText b.pruned.text = .ok c ∧ b.pruned.IsReadAs c := by
  have hb : Reachable Operation.IsAnchored b ∧
      b.EveryInstant Instant.ReadsBack := by
    rcases Options.carryOut_cases hcarry with rfl | ⟨-, op, hop, htime, rfl⟩
    · exact ⟨h, hread⟩
    · exact ⟨h.perform hop, everyInstant_perform h.wellFormed h.isNumbered hread
        op (fun t ht => htime t ht ▸ hnow) fun _ ht => Instant.ReadsBack.shown ht⟩
  have hpruned : Reachable Operation.IsAnchored (b.perform (.flush false)) :=
    hb.1.perform trivial
  exact exists_isReadAs hpruned
    (everyInstant_perform hb.1.wellFormed hb.1.isNumbered hb.2 (.flush false)
      nofun fun _ ht => Instant.ReadsBack.shown ht)

end Archive

end SettingsArchive
