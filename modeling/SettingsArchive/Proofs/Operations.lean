import SettingsArchive.Proofs.Run

/-!
# What operations do

Each operation has one lemma here.  It says what an operation that was carried
out found and what archive it left, so that later proofs need not open the
operation.  The operations that write settings are in `Proofs.Storing`.
-/

namespace SettingsArchive

/-- A computation that goes on after another one succeeds where both do. -/
theorem bind_eq_ok {ε α β : Type} {x : Except ε α} {f : α → Except ε β}
    {b : β} (h : x >>= f = .ok b) : ∃ a, x = .ok a ∧ f a = .ok b := by
  cases x with
  | error e => cases h
  | ok a => exact ⟨a, rfl, h⟩

/-- A computation that goes on after another one fails where one of both
does. -/
theorem bind_eq_error {ε α β : Type} {x : Except ε α} {f : α → Except ε β}
    {e : ε} (h : x >>= f = .error e) :
    x = .error e ∨ ∃ a, x = .ok a ∧ f a = .error e := by
  cases x with
  | error e' =>
    injection h with h
    exact Or.inl (by rw [h])
  | ok a => exact Or.inr ⟨a, rfl, h⟩

theorem map_eq_ok {ε α β : Type} {x : Except ε α} {f : α → β} {b : β}
    (h : x.map f = .ok b) : ∃ a, x = .ok a ∧ f a = b := by
  cases x with
  | error e => cases h
  | ok a => exact ⟨a, rfl, by injection h⟩

theorem exists_ok_of_map_toOption {ε α β : Type} {x : Except ε α} {f : α → β}
    {y : β} (h : x.toOption.map f = some y) : ∃ a, x = .ok a ∧ f a = y := by
  cases x with
  | error e => cases h
  | ok a => exact ⟨a, rfl, Option.some.inj h⟩

/-- A result that is there is that of a computation that succeeded. -/
theorem eq_ok_of_toOption {ε α : Type} {x : Except ε α} {a : α}
    (h : x.toOption = some a) : x = .ok a := by
  cases x with
  | error e => cases h
  | ok b => exact congrArg Except.ok (Option.some.inj h)

theorem eq_mk_of_toOption {ε α β : Type} {x : Except ε α × β} {a : α}
    (h : x.1.toOption = some a) : x = (.ok a, x.2) :=
  Prod.ext (eq_ok_of_toOption h) rfl

namespace Location

theorem checkBackend_eq_ok_iff {backend : String} :
    checkBackend backend = .ok () ↔ isValidBackend backend := by
  unfold checkBackend
  split <;> simp_all

theorem of_registered {backends new : List String} {backend : String}
    {scope : BackendScope} (h : registered backends backend scope = .ok new) :
    isValidBackend backend ∧ backend ∉ backends ∧
      new = backends ++ [backend] := by
  obtain ⟨⟨⟩, hcheck, h⟩ := bind_eq_ok h
  split at h
  · cases h
  · rename_i hmem
    injection h with h
    exact ⟨checkBackend_eq_ok_iff.1 hcheck, hmem, h.symm⟩

theorem of_unregistered {backends new : List String} {backend : String}
    {scope : BackendScope}
    (h : unregistered backends backend scope = .ok new) :
    backend ∈ backends ∧ new = backends.erase backend := by
  unfold unregistered at h
  split at h
  · rename_i hmem
    injection h with h
    exact ⟨hmem, h.symm⟩
  · cases h

theorem of_addBackend {l m : Location} {backend : String}
    (h : l.addBackend backend = .ok m) :
    isValidBackend backend ∧ backend ∉ l.backends ∧
      m = { l with backends := l.backends ++ [backend] } := by
  obtain ⟨backends, hreg, h⟩ := bind_eq_ok h
  obtain ⟨hvalid, hnew, rfl⟩ := of_registered hreg
  injection h with h
  exact ⟨hvalid, hnew, h.symm⟩

theorem of_removeBackend {l m : Location} {backend : String}
    (h : l.removeBackend backend = .ok m) :
    backend ∈ l.backends ∧
      m = { l with backends := l.backends.erase backend } := by
  obtain ⟨backends, hreg, h⟩ := bind_eq_ok h
  obtain ⟨hmem, rfl⟩ := of_unregistered hreg
  injection h with h
  exact ⟨hmem, h.symm⟩

end Location

namespace Archive

variable {a b : Archive}

theorem location_eq_ok_iff {id : String} {l : Location} :
    a.location id = .ok l ↔ findLocation? a.locations id = some l := by
  unfold location
  split <;> simp_all

theorem hasLocation_iff {id : String} :
    a.hasLocation id ↔ ∃ l, findLocation? a.locations id = some l :=
  Option.isSome_iff_exists

/-! ## Locations -/

theorem of_newLocation {id : String} {parent : Option String}
    (h : a.newLocation id parent = .ok b) :
    Location.isValidId id ∧ ¬ a.hasLocation id ∧
      (∀ p, parent = some p → a.hasLocation p) ∧
      b = { a with
        locations := a.locations ++ [({ id, parent } : Location)] }.changed := by
  unfold newLocation at h
  simp only [bind, Except.bind, throw, throwThe, MonadExceptOf.throw, pure,
    Except.pure] at h
  split at h
  · cases h
  · rename_i hvalid
    split at h
    · cases h
    · rename_i hnew
      split at h
      · cases h
      · rename_i hparent
        injection h with h
        refine ⟨by simpa using hvalid, hnew, ?_, h.symm⟩
        rintro p rfl
        simpa using hparent

theorem of_checkParent {id parent : String}
    (h : a.checkParent id parent = .ok ()) :
    a.hasLocation parent ∧
      ∃ above, a.ancestors parent = .ok above ∧ ∀ l ∈ above, l.id ≠ id := by
  unfold checkParent at h
  simp only [bind, Except.bind, throw, throwThe, MonadExceptOf.throw, pure,
    Except.pure] at h
  split at h
  · cases h
  · rename_i hthere
    split at h
    · cases h
    · rename_i above habove
      split at h
      · cases h
      · rename_i hany
        exact ⟨by simpa using hthere, above, habove, by simpa using hany⟩

theorem of_setParent {id : String} {parent : Option String}
    (h : a.setParent id parent = .ok b) :
    id ≠ defaultId ∧
      (∀ p, parent = some p → a.checkParent id p = .ok ()) ∧
      ∃ l, findLocation? a.locations id = some l ∧
        b = (a.put { l with parent }).changed := by
  unfold setParent at h
  simp only [bind, Except.bind, throw, throwThe, MonadExceptOf.throw, pure,
    Except.pure] at h
  split at h
  · cases h
  · rename_i hid
    split at h
    · cases h
    · rename_i l hl
      have hl := location_eq_ok_iff.1 hl
      split at h
      · rename_i p
        split at h
        · cases h
        · rename_i hcheck
          injection h with h
          refine ⟨hid, ?_, l, hl, h.symm⟩
          rintro q ⟨⟩
          exact hcheck
      · injection h with h
        exact ⟨hid, by simp, l, hl, h.symm⟩

/-- A location as renaming leaves it. -/
def relinked (id newId : String) (l : Location) : Location :=
  { l with
    id := renamed id newId l.id
    parent := l.parent.map (renamed id newId) }

theorem of_rename {id newId : String} (h : a.rename id newId = .ok b) :
    id ≠ defaultId ∧ Location.isValidId newId ∧ a.hasLocation id ∧
      ¬ a.hasLocation newId ∧
      b = { a with
        locations := a.locations.map (relinked id newId)
        current := renamed id newId a.current }.changed := by
  unfold rename at h
  simp only [bind, Except.bind, throw, throwThe, MonadExceptOf.throw, pure,
    Except.pure] at h
  split at h
  · cases h
  · rename_i hid
    split at h
    · cases h
    · rename_i hvalid
      split at h
      · cases h
      · rename_i l hl
        split at h
        · cases h
        · rename_i hnew
          injection h with h
          exact ⟨hid, by simpa using hvalid,
            hasLocation_iff.2 ⟨l, location_eq_ok_iff.1 hl⟩, hnew, h.symm⟩

theorem of_removeLocation {id : String} (h : a.removeLocation id = .ok b) :
    id ≠ defaultId ∧ a.hasLocation id ∧ a.current ≠ id ∧
      (∀ l ∈ a.locations, l.parent ≠ some id) ∧
      b = { a with locations := without a.locations id }.changed := by
  unfold removeLocation at h
  simp only [bind, Except.bind, throw, throwThe, MonadExceptOf.throw, pure,
    Except.pure] at h
  split at h
  · cases h
  · rename_i hid
    split at h
    · cases h
    · rename_i l hl
      split at h
      · cases h
      · rename_i hcurrent
        split at h
        · cases h
        · rename_i hchildren
          injection h with h
          refine ⟨hid, hasLocation_iff.2 ⟨l, location_eq_ok_iff.1 hl⟩,
            hcurrent, ?_, h.symm⟩
          simpa [children] using hchildren

theorem of_setCurrent {id : String} (h : a.setCurrent id = .ok b) :
    a.hasLocation id ∧ (b = a ∨ b = { a with current := id }.changed) := by
  unfold setCurrent at h
  obtain ⟨l, hl, h⟩ := bind_eq_ok h
  have hthere := hasLocation_iff.2 ⟨l, location_eq_ok_iff.1 hl⟩
  split at h
  · injection h with h
    exact ⟨hthere, Or.inl h.symm⟩
  · injection h with h
    exact ⟨hthere, Or.inr h.symm⟩

/-! ## Backends -/

theorem of_addBackend {id backend : String}
    (h : a.addBackend id backend = .ok b) :
    ∃ l, findLocation? a.locations id = some l ∧
      Location.isValidBackend backend ∧ backend ∉ l.backends ∧
      b = (a.put { l with backends := l.backends ++ [backend] }).changed := by
  obtain ⟨l, hl, h⟩ := bind_eq_ok h
  obtain ⟨m, hm, h⟩ := bind_eq_ok h
  obtain ⟨hvalid, hnew, rfl⟩ := Location.of_addBackend hm
  injection h with h
  exact ⟨l, location_eq_ok_iff.1 hl, hvalid, hnew, h.symm⟩

theorem of_removeBackend {id backend : String}
    (h : a.removeBackend id backend = .ok b) :
    ∃ l, findLocation? a.locations id = some l ∧ backend ∈ l.backends ∧
      b = (a.put { l with backends := l.backends.erase backend }).changed := by
  obtain ⟨l, hl, h⟩ := bind_eq_ok h
  obtain ⟨m, hm, h⟩ := bind_eq_ok h
  obtain ⟨hmem, rfl⟩ := Location.of_removeBackend hm
  injection h with h
  exact ⟨l, location_eq_ok_iff.1 hl, hmem, h.symm⟩

theorem of_addMaster {backend : String} (h : a.addMaster backend = .ok b) :
    Location.isValidBackend backend ∧ backend ∉ a.masters ∧
      b = { a with masters := a.masters ++ [backend] }.changed := by
  obtain ⟨masters, hreg, h⟩ := bind_eq_ok h
  obtain ⟨hvalid, hnew, rfl⟩ := Location.of_registered hreg
  injection h with h
  exact ⟨hvalid, hnew, h.symm⟩

theorem of_removeMaster {backend : String}
    (h : a.removeMaster backend = .ok b) :
    backend ∈ a.masters ∧
      b = { a with masters := a.masters.erase backend }.changed := by
  obtain ⟨masters, hreg, h⟩ := bind_eq_ok h
  obtain ⟨hmem, rfl⟩ := Location.of_unregistered hreg
  injection h with h
  exact ⟨hmem, h.symm⟩

end Archive

end SettingsArchive
