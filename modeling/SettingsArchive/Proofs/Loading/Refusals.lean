import SettingsArchive.Proofs.Loading.Entries

/-!
# How reading ends

A text that is no database is refused: it is not XML, the document is corrupt,
or a location names a backend that it cannot have.  `Refuses` says that a
computation has no other errors, and each reader has one lemma.

The number of the next write is the exception.  It must be above all numbers
in use, and where the largest number of sixty-four bits is in use there is
none.  `Contents.error_of_ofElement` says that reading fails in no other way.
-/

namespace SettingsArchive

open Xml

/-- The errors that refuse a text as a database. -/
def ArchiveError.IsRefusal : ArchiveError → Prop
  | .xml _ => True
  | .corrupt _ => True
  | .invalidPath _ => True
  | .duplicateBackend _ _ => True
  | _ => False

/-- A computation fails with refusals only. -/
def Refuses {α : Type} (x : Except ArchiveError α) : Prop :=
  ∀ e, x = .error e → e.IsRefusal

section Refuses

variable {α β : Type}

theorem refuses_ok (a : α) : Refuses (.ok a) :=
  nofun

theorem refuses_corrupt (fault : Corruption) :
    Refuses (Contents.corrupt fault : Except ArchiveError α) := by
  intro e he
  injection he with he
  subst he
  trivial

theorem Refuses.bind {x : Except ArchiveError α} (hx : Refuses x)
    {f : α → Except ArchiveError β} (hf : ∀ a, Refuses (f a)) :
    Refuses (x >>= f) := by
  intro e he
  cases x with
  | error e' =>
    injection he with he
    exact hx e (by rw [he])
  | ok a => exact hf a e he

/-- Nothing comes behind a refusal. -/
theorem refuses_corrupt_bind (fault : Corruption)
    (f : α → Except ArchiveError β) :
    Refuses (Contents.corrupt fault >>= f) :=
  refuses_corrupt fault

end Refuses

namespace Location

theorem refuses_addBackend (l : Location) (backend : String) :
    Refuses (l.addBackend backend) := by
  have hcheck : Refuses (checkBackend backend) := by
    unfold checkBackend
    split
    · exact refuses_ok ()
    · rintro e ⟨⟩
      trivial
  refine Refuses.bind ?_ fun backends => refuses_ok _
  refine hcheck.bind fun _ => ?_
  split
  · rintro e ⟨⟩
    trivial
  · exact refuses_ok _

end Location

namespace Contents

/-! ## Entries -/

theorem refuses_required (e : Element) (key : String) :
    Refuses (required e key) := by
  unfold required
  split
  · exact refuses_ok _
  · exact refuses_corrupt _

theorem refuses_maskOf (e : Element) : Refuses (maskOf e) := by
  unfold maskOf
  split
  · exact refuses_ok _
  · split
    · exact refuses_ok _
    · exact refuses_corrupt _

theorem refuses_readRevision (entry : String) (e : Element) :
    Refuses (readRevision entry e) := by
  unfold readRevision
  refine (refuses_required e "id").bind fun idText => ?_
  dsimp only
  split
  · refine (refuses_ok _).bind fun id => ?_
    refine (refuses_required e "timestamp").bind fun timeText => ?_
    split
    · refine (refuses_ok _).bind fun time => ?_
      refine (refuses_maskOf e).bind fun mask => ?_
      split
      · exact refuses_corrupt_bind _ _
      · split
        · exact (refuses_ok _).bind fun value => refuses_ok _
        · exact refuses_corrupt_bind _ _
    · exact refuses_corrupt_bind _ _
  · exact refuses_corrupt_bind _ _

theorem refuses_checkOrder (entry : String) (before : Option Revision)
    (r : Revision) : Refuses (checkOrder entry before r) := by
  unfold checkOrder
  split
  · exact refuses_ok _
  · split
    · exact refuses_corrupt _
    · split
      · exact refuses_corrupt _
      · exact refuses_ok _

theorem refuses_readRevisions (entry : String) (before : Option Revision)
    (es : List Element) : Refuses (readRevisions entry before es) := by
  induction es generalizing before with
  | nil => exact refuses_ok _
  | cons e es ih =>
    exact (refuses_readRevision entry e).bind fun r =>
      (refuses_checkOrder entry before r).bind fun _ =>
        (ih (some r)).bind fun rs => refuses_ok _

theorem refuses_readEntry (e : Element) : Refuses (readEntry e) := by
  unfold readEntry
  refine (refuses_required e "name").bind fun name => ?_
  dsimp only
  split
  · exact refuses_corrupt_bind _ _
  · refine (refuses_readRevisions _ _ _).bind fun rs => ?_
    split
    · exact refuses_ok _
    · exact refuses_corrupt _

/-! ## Directories and locations -/

mutual

theorem refuses_addElement (above : Path) (d : Directory) (e : Element) :
    Refuses (addElement above d e) := by
  obtain ⟨kind, attributes, children, text⟩ := e
  unfold addElement
  split
  · refine (refuses_readEntry _).bind fun entry => ?_
    dsimp only
    split
    · exact refuses_corrupt_bind _ _
    · exact refuses_ok _
  · split
    · refine (refuses_required _ _).bind fun name => ?_
      dsimp only
      split
      · exact refuses_corrupt_bind _ _
      · exact (refuses_addElements _ _ children).bind fun child => refuses_ok _
    · exact refuses_ok _

theorem refuses_addElements (above : Path) (d : Directory)
    (es : List Element) : Refuses (addElements above d es) := by
  cases es with
  | nil => exact refuses_ok _
  | cons e es =>
    exact (refuses_addElement above d e).bind fun d' =>
      refuses_addElements above d' es

end

theorem refuses_addBackends (l : Location) (es : List Element) :
    Refuses (addBackends l es) := by
  induction es generalizing l with
  | nil => exact refuses_ok _
  | cons e es ih =>
    exact (refuses_required e "id").bind fun id =>
      (l.refuses_addBackend id).bind fun m => ih m

theorem refuses_readLocation (before : List Location) (e : Element) :
    Refuses (readLocation before e) := by
  unfold readLocation
  refine (refuses_required e "id").bind fun id => ?_
  dsimp only
  split
  · exact refuses_corrupt_bind _ _
  · exact (refuses_addBackends _ _).bind fun l =>
      (refuses_addElements _ _ _).bind fun tree => refuses_ok _

theorem refuses_readLocations (before : List Location) (es : List Element) :
    Refuses (readLocations before es) := by
  induction es generalizing before with
  | nil => exact refuses_ok _
  | cons e es ih =>
    exact (refuses_readLocation before e).bind fun l => ih _

/-! ## The whole document -/

theorem refuses_checkVersion (root : Element) :
    Refuses (checkVersion root) := by
  unfold checkVersion
  split
  · exact refuses_ok _
  · split
    · exact refuses_corrupt _
    · split
      · exact refuses_corrupt _
      · exact refuses_ok _

theorem refuses_mapM_required (key : String) (es : List Element) :
    Refuses (es.mapM (required · key)) := by
  induction es with
  | nil => exact refuses_ok _
  | cons e es ih =>
    rw [List.mapM_cons]
    exact (refuses_required e key).bind fun value =>
      ih.bind fun values => refuses_ok _

/-- Reading the number of the next write fails with a refusal, or because the
largest number is in use. -/
theorem error_of_readNextRevision {root : Element} {locations : List Location}
    {e : ArchiveError} (h : readNextRevision root locations = .error e) :
    e.IsRefusal ∨
      e = .counterExhausted ∧ lastRevision locations = Numeral.maxWord := by
  have hlast : ∀ stated : Nat,
      (if lastRevision locations = Numeral.maxWord then
        (throw .counterExhausted : Except ArchiveError Nat)
      else pure (max stated (lastRevision locations + 1))) = .error e →
        e = .counterExhausted ∧ lastRevision locations = Numeral.maxWord := by
    intro stated h
    split at h
    · rename_i hlast
      injection h with h
      exact ⟨h.symm, hlast⟩
    · cases h
  unfold readNextRevision at h
  split at h
  · exact Or.inr (hlast 1 h)
  · split at h
    · exact Or.inr (hlast _ h)
    · exact Or.inl (refuses_corrupt_bind _ _ e h)

/-- Reading fails with a refusal, or because a revision has the largest
number. -/
theorem error_of_ofElement {root : Element} {e : ArchiveError}
    (h : ofElement root = .error e) :
    e.IsRefusal ∨
      e = .counterExhausted ∧ HasRevision root Numeral.maxWord := by
  unfold ofElement at h
  dsimp only at h
  split at h
  · exact Or.inl (refuses_corrupt_bind _ _ e h)
  · rcases bind_eq_error h with h | ⟨-, -, h⟩
    · exact Or.inl (refuses_checkVersion root e h)
    rcases bind_eq_error h with h | ⟨masters, -, h⟩
    · exact Or.inl (refuses_mapM_required _ _ e h)
    rcases bind_eq_error h with h | ⟨locations, hlocations, h⟩
    · exact Or.inl (refuses_readLocations _ _ e h)
    split at h
    · exact Or.inl (refuses_corrupt _ e h)
    · rcases bind_eq_error h with h | ⟨n, -, h⟩
      · rcases error_of_readNextRevision h with h | ⟨rfl, hlast⟩
        · exact Or.inl h
        · obtain ⟨-, new, rfl, hall⟩ :=
            of_readLocations hlocations List.nodup_nil
          have hpos : 0 < lastRevision locations := by
            rw [hlast]
            decide
          exact Or.inr ⟨rfl, hlast ▸ hasRevision_lastRevision hall hpos⟩
      · cases h

end Contents

end SettingsArchive
