import SettingsArchive.Proofs.Step

/-!
# What histories record

The history of a setting records values and the instants at which they were
written, the oldest one first.  `Directory.recorded` is the record of a path,
which is empty where there is no setting.

A write adds to the end of one record (`recorded_write`), and writes under one
number add to the records of their paths (`Written.recorded`).  The other edits
of a tree add nothing.  So what is new in a record has the instant of the
operation (`Edit.mem_recorded`), and all values of a record are of one kind
(`Archive.HasKinds`), also where no history is sound because several paths of
one write named one setting.
-/

namespace SettingsArchive

open Directory

namespace Entry

/-- The values of a setting with the instants at which they were written, the
oldest one first. -/
def recorded (e : Entry) : List (Instant × Value) :=
  e.revisions.map fun r => (r.time, r.value)

theorem recorded_ne_nil (e : Entry) : e.recorded ≠ [] := by
  simp [recorded, revisions]

@[simp] theorem recorded_ofFirst (name : String) (r : Revision) :
    (ofFirst name r).recorded = [(r.time, r.value)] :=
  rfl

/-- Whether the head is retired or not, a record goes on with the new value. -/
@[simp] theorem recorded_append (e : Entry) (r : Revision) :
    (e.append r).recorded = e.recorded ++ [(r.time, r.value)] := by
  obtain ⟨-, htime, hvalue, -⟩ := retired_eq r.mask e.head
  simp [recorded, revisions, append, htime, hvalue]

/-- The head is what was recorded last. -/
theorem getLast?_recorded (e : Entry) :
    e.recorded.getLast? = some (e.head.time, e.current) := by
  simp [recorded, revisions, current]

/-- The kind of a setting is that of a value in its record. -/
theorem exists_mem_recorded_kind (e : Entry) :
    ∃ x ∈ e.recorded, x.2.kind = e.kind := by
  obtain ⟨name, past, head⟩ := e
  cases past with
  | nil => exact ⟨(head.time, head.value), by simp [recorded, revisions], rfl⟩
  | cons first past =>
    exact ⟨(first.time, first.value), by simp [recorded, revisions], rfl⟩

end Entry

namespace Directory

variable {d d' : Directory} {path : Path} {x : Instant × Value}

/-- What the setting of a path records. -/
def recorded (d : Directory) (path : Path) : List (Instant × Value) :=
  (d.get? path).elim [] Entry.recorded

theorem recorded_of_get? {e : Entry} (h : d.get? path = some e) :
    d.recorded path = e.recorded := by
  rw [recorded, h]
  rfl

theorem recorded_eq_nil_iff : d.recorded path = [] ↔ d.get? path = none := by
  unfold recorded
  cases d.get? path with
  | none => simp
  | some e => simp [e.recorded_ne_nil]

theorem mem_recorded_iff :
    x ∈ d.recorded path ↔
      ∃ e, d.get? path = some e ∧ ∃ r ∈ e.revisions, (r.time, r.value) = x := by
  unfold recorded
  cases d.get? path with
  | none => simp
  | some e => simp [Entry.recorded]

/-! ## Edits -/

theorem recorded_write (hpath : path ≠ []) (d : Directory) (r : Revision)
    (q : Path) :
    (d.write path r).recorded q =
      if q = path then d.recorded path ++ [(r.time, r.value)]
      else d.recorded q := by
  rw [recorded, get?_write hpath]
  split
  · unfold recorded
    cases d.get? path with
    | none => rfl
    | some e => exact e.recorded_append r
  · rfl

/-- Writes add their values to the records of their paths. -/
theorem Written.recorded {time : Instant} {id : Nat} {mask : Mask}
    {items : List (Path × Value)} (h : Written time id mask items d d')
    (q : Path) :
    d'.recorded q = d.recorded q ++
      (items.filter (·.1 = q)).map fun x => (time, x.2) := by
  induction h with
  | nil d => simp
  | @cons path value items d d' valid _ _ ih =>
    rw [ih, recorded_write valid.1]
    by_cases hq : q = path
    · simp [hq]
    · simp [hq, Ne.symm hq]

section Edit

variable {anchored : Prop} {time? : Option Instant} {places : Path → Prop}
  {next next' : Nat}

/-- An edit that is not a write adds nothing to a record. -/
theorem Edit.recorded_subset_or_write
    (h : Edit anchored time? places next next' d d') (hd : d.Sound) :
    (∀ path, d'.recorded path ⊆ d.recorded path) ∨
      ∃ time mask items, time? = some time ∧
        Written time next mask items d d' := by
  rcases h.sublist_or_write hd with
    hsub | ⟨time, mask, items, hw, htime, -⟩
  · refine Or.inl fun path x hx => ?_
    obtain ⟨e', he', r, hr, hrx⟩ := mem_recorded_iff.1 hx
    obtain ⟨e, he, hrevisions⟩ := hsub path e' he'
    exact mem_recorded_iff.2 ⟨e, he, r, hrevisions.subset hr, hrx⟩
  · exact Or.inr ⟨time, mask, items, htime, hw⟩

/-- What is new in a record has the instant of the operation. -/
theorem Edit.mem_recorded (h : Edit anchored time? places next next' d d')
    (hd : d.Sound) (hx : x ∈ d'.recorded path) :
    x ∈ d.recorded path ∨ time? = some x.1 := by
  rcases h.recorded_subset_or_write hd with hsub | ⟨time, mask, items, rfl, hw⟩
  · exact Or.inl (hsub path hx)
  · rw [hw.recorded] at hx
    rcases List.mem_append.1 hx with hx | hx
    · exact Or.inl hx
    · obtain ⟨y, -, rfl⟩ := List.mem_map.1 hx
      exact Or.inr rfl

end Edit

/-! ## Kinds -/

/-- All values of a record are of one kind. -/
def HasKinds (d : Directory) : Prop :=
  ∀ path, ∀ x ∈ d.recorded path, ∀ y ∈ d.recorded path, x.2.kind = y.2.kind

theorem HasKinds.kind_eq (h : d.HasKinds) {e : Entry}
    (he : d.get? path = some e) (hx : x ∈ d.recorded path) :
    x.2.kind = e.kind := by
  obtain ⟨y, hy, hkind⟩ := e.exists_mem_recorded_kind
  rw [← hkind]
  exact h path x hx y (by rwa [recorded_of_get? he])

/-- A value that fits is of the kind of the record. -/
theorem HasKinds.write (h : d.HasKinds) (hpath : path ≠ []) {r : Revision}
    (hfits : d.Fits path r.value r.time) : (d.write path r).HasKinds := by
  have hkind : ∀ x ∈ d.recorded path, x.2.kind = r.value.kind := by
    intro x hx
    obtain ⟨e, he, -⟩ := mem_recorded_iff.1 hx
    rw [h.kind_eq he hx, (hfits e he).1]
  intro q x hx y hy
  rw [recorded_write hpath] at hx hy
  split at hx
  · rename_i hq
    rw [if_pos hq] at hy
    have hnew : ∀ x ∈ d.recorded path ++ [(r.time, r.value)],
        x.2.kind = r.value.kind :=
      List.forall_mem_append.2 ⟨hkind, List.forall_mem_singleton.2 rfl⟩
    rw [hnew x hx, hnew y hy]
  · rename_i hq
    rw [if_neg hq] at hy
    exact h q x hx y hy

theorem Written.hasKinds {time : Instant} {id : Nat} {mask : Mask}
    {items : List (Path × Value)} (h : Written time id mask items d d')
    (hd : d.HasKinds) : d'.HasKinds := by
  induction h with
  | nil d => exact hd
  | cons valid fits _ ih => exact ih (hd.write valid.1 fits)

end Directory

namespace Archive

variable {a b : Archive} {anchored : Prop} {time? : Option Instant}

/-- All values of a setting are of one kind, now and in its history. -/
def HasKinds (a : Archive) : Prop :=
  ∀ l ∈ a.locations, l.tree.HasKinds

theorem IsStart.hasKinds (h : IsStart a) : a.HasKinds := by
  intro l hl path x hx y hy
  obtain ⟨e, he, r, hr, rfl⟩ := mem_recorded_iff.1 hx
  obtain ⟨e', he', s, hs, rfl⟩ := mem_recorded_iff.1 hy
  obtain rfl := Option.some.inj (he.symm.trans he')
  have hhistory := ((h.isSound.locations l hl).2 path e he).history
  exact (hhistory.kind_eq hr).trans (hhistory.kind_eq hs).symm

/-- A step leaves one kind in each record. -/
theorem Step.hasKinds (h : Step anchored time? a b) (ha : a.WellFormed)
    (hk : a.HasKinds) : b.HasKinds := by
  refine h.forall_tree (P := fun _ d => d.HasKinds) hk ?_ ?_
    fun c hc => (IsStart.read hc).hasKinds
  · intro path x hx
    obtain ⟨e, he, -⟩ := mem_recorded_iff.1 hx
    simp [Directory.empty] at he
  · intro _ l hl d hedit
    rcases hedit.recorded_subset_or_write (ha.sound l hl).tree with
      hsub | ⟨time, mask, items, -, hw⟩
    · exact fun path x hx y hy => hk l hl path x (hsub path hx) y (hsub path hy)
    · exact hw.hasKinds (hk l hl)

theorem Reachable.hasKinds {allowed : Operation → Prop}
    (h : Reachable allowed a) : a.HasKinds :=
  h.induction_step False nofun (fun _ ha => ha.hasKinds)
    fun _ _ _ ha hk hstep => hstep.hasKinds ha hk

end Archive

end SettingsArchive
