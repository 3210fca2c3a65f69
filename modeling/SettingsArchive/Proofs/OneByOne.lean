import SettingsArchive.Proofs.Batch
import SettingsArchive.Proofs.Counting

/-!
# Many settings at once, or one by one

Settings of one document can also be stored one after the other.  Then each is
checked against the tree behind those before it and gets a number of its own.
Where the paths are different neither matters: a write to another path spoils no
check, and the numbers are all that the two archives differ in.

`Archive.capped` makes one number of all that are at least a bound.  The document
is stored exactly where all its settings are stored one by one, and its archive is
then the capped one of the other (`oneByOne_of_reachable`).
-/

namespace SettingsArchive

open Directory

/-! ## Capped numbers -/

/-- The revision under a number that is not above a bound. -/
def Revision.capped (bound : Nat) (r : Revision) : Revision :=
  { r with id := min r.id bound }

/-- The setting with every number above a bound made the bound. -/
def Entry.capped (bound : Nat) (e : Entry) : Entry :=
  { e with
    past := e.past.map (Revision.capped bound)
    head := e.head.capped bound }

/-- The location with every number above a bound made the bound. -/
def Location.capped (bound : Nat) (l : Location) : Location :=
  { l with tree := l.tree.mapEntries (Entry.capped bound) }

/-- The archive with every number above a bound made the bound. -/
def Archive.capped (bound : Nat) (a : Archive) : Archive :=
  { a with locations := a.locations.map (Location.capped bound) }

variable {bound : Nat}

theorem Revision.capped_eq_self {r : Revision} (h : r.id < bound) :
    r.capped bound = r := by
  rw [capped, Nat.min_eq_left (Nat.le_of_lt h)]

theorem Entry.capped_eq_self {e : Entry} (h : ∀ r ∈ e.revisions, r.id < bound) :
    e.capped bound = e := by
  have hpast : e.past.map (Revision.capped bound) = e.past := by
    refine (List.map_congr_left fun r hr => ?_).trans (List.map_id e.past)
    exact Revision.capped_eq_self (h r (List.mem_append_left _ hr))
  rw [capped, hpast, Revision.capped_eq_self (h e.head e.head_mem_revisions)]

/-- Capping a setting with one more revision caps both. -/
theorem Entry.capped_appended (name : String) (r : Revision) (o : Option Entry) :
    (appended name r o).capped bound =
      appended name (r.capped bound) (o.map (Entry.capped bound)) := by
  cases o with
  | none => rfl
  | some e =>
    cases hmask : r.mask <;>
      simp [appended, append, retired, capped, Revision.capped, hmask]

/-- A tree whose numbers are below the bound is as it was. -/
theorem Directory.IsBelow.mapEntries_capped {d : Directory} (h : d.IsBelow bound)
    (hs : d.Sound) : d.mapEntries (Entry.capped bound) = d :=
  mapEntries_eq_self d fun x hx =>
    Entry.capped_eq_self (h x.1 x.2 (hs.mem_allEntries_iff.1 hx))

/-- Capping a tree behind a write caps the tree and what was written. -/
theorem Directory.mapEntries_capped_write (d : Directory) (path : Path)
    (r : Revision) :
    (d.write path r).mapEntries (Entry.capped bound) =
      (d.mapEntries (Entry.capped bound)).write path (r.capped bound) :=
  mapEntries_put (f := Entry.capped bound) (fun _ => rfl)
    (Entry.capped_appended _ r) path d

/-! ## Trees behind numbered writes -/

namespace Directory

/-- The tree behind writes of one instant, each of them under a number. -/
def writeEach (time : Instant) (mask : Mask) (d : Directory) :
    List ((Path × Value) × Nat) → Directory
  | [] => d
  | ((path, value), number) :: writes =>
    writeEach time mask (d.write path ⟨number, time, value, mask, false⟩) writes

variable {time : Instant} {mask : Mask} {d d' : Directory}

/-- Writes of one number lead to the tree that each of them under this number
leads to. -/
theorem Written.eq_writeEach {number : Nat} {items : List (Path × Value)}
    (h : Written time number mask items d d') :
    d' = writeEach time mask d (items.map (·, number)) := by
  induction h with
  | nil d => rfl
  | cons _ _ _ ih => exact ih

/-- Behind writes to different settings each of them has its own write appended,
and every other setting is as before. -/
theorem get?_writeEach (time : Instant) (mask : Mask) (d : Directory)
    {writes : List ((Path × Value) × Nat)} {items : List (Path × Value)}
    (hw : writes.map Prod.fst = items)
    (hv : ∀ x ∈ items, x.1.IsValid) (hn : (items.map Prod.fst).Nodup) :
    (∀ w ∈ writes, (writeEach time mask d writes).get? w.1.1 =
        some (appended (w.1.1.getLastD "") ⟨w.2, time, w.1.2, mask, false⟩
          (d.get? w.1.1))) ∧
      ∀ q ∉ items.map Prod.fst,
        (writeEach time mask d writes).get? q = d.get? q := by
  subst hw
  induction writes generalizing d with
  | nil => exact ⟨nofun, fun _ _ => rfl⟩
  | cons w writes ih =>
    obtain ⟨⟨path, value⟩, number⟩ := w
    obtain ⟨hpath, hv⟩ := List.forall_mem_cons.1 hv
    rw [List.map_cons, List.map_cons, List.nodup_cons] at hn
    have hget := get?_write hpath.1 d ⟨number, time, value, mask, false⟩
    obtain ⟨hitems, hothers⟩ :=
      ih (d := d.write path ⟨number, time, value, mask, false⟩) hv hn.2
    refine ⟨List.forall_mem_cons.2 ⟨?_, ?_⟩, ?_⟩
    · exact (hothers path hn.1).trans ((hget path).trans (if_pos rfl))
    · intro w hw
      have hmem : w.1.1 ∈ (writes.map Prod.fst).map Prod.fst :=
        List.mem_map_of_mem (List.mem_map_of_mem hw)
      have hne : w.1.1 ≠ path := fun heq => hn.1 (heq ▸ hmem)
      refine (hitems w hw).trans ?_
      rw [hget, if_neg hne]
    · intro q hq
      rw [List.map_cons, List.map_cons, List.mem_cons, not_or] at hq
      exact (hothers q hq.2).trans ((hget q).trans (if_neg hq.1))

/-- Capping the tree behind writes caps the tree and the number of each. -/
theorem mapEntries_capped_writeEach (d : Directory)
    (writes : List ((Path × Value) × Nat)) :
    (writeEach time mask d writes).mapEntries (Entry.capped bound) =
      writeEach time mask (d.mapEntries (Entry.capped bound))
        (writes.map fun w => (w.1, min w.2 bound)) := by
  induction writes generalizing d with
  | nil => rfl
  | cons w writes ih =>
    obtain ⟨⟨path, value⟩, number⟩ := w
    rw [writeEach, ih, mapEntries_capped_write]
    rfl

end Directory

/-- Numbers that begin with the bound are all capped to it. -/
theorem map_min_zipIdx {α : Type} (xs : List α) {first : Nat}
    (h : bound ≤ first) :
    (xs.zipIdx first).map (fun w => (w.1, min w.2 bound)) =
      xs.map (·, bound) := by
  induction xs generalizing first with
  | nil => rfl
  | cons x xs ih =>
    rw [List.zipIdx_cons, List.map_cons, List.map_cons, Nat.min_eq_right h,
      ih (Nat.le_succ_of_le h)]

namespace Location

/-- Later writes to settings of a backend register it no second time. -/
theorem holding_holding (l : Location) (backend : String) (tree tree' : Directory) :
    (l.holding backend tree).holding backend tree' = l.holding backend tree' := by
  unfold holding ensureBackend
  by_cases h : backend ∈ l.backends
  · simp [h]
  · simp [h]

theorem capped_holding (l : Location) (backend : String) (tree : Directory) :
    (l.holding backend tree).capped bound =
      (l.capped bound).holding backend (tree.mapEntries (Entry.capped bound)) := by
  unfold holding ensureBackend capped
  by_cases h : backend ∈ l.backends
  · simp [h]
  · simp [h]

end Location

namespace Archive

variable {a b : Archive} {id backend : String} {time : Instant} {mask : Mask}
  {items : List (String × Value)} {placed : List (Path × Value)}
  {l : Location}

/-! ## One by one -/

/-- Stores settings one after the other.  The answer is the number of each. -/
def storeEach (a : Archive) (id : String) (time : Instant) (mask : Mask) :
    List (String × Value) → Except ArchiveError (List Nat × Archive)
  | [] => .ok ([], a)
  | (path, value) :: items => do
    let (number, a) ← a.storeValue id path value time mask
    let (numbers, a) ← a.storeEach id time mask items
    return (number :: numbers, a)

/-- Settings are stored one by one where the first is, and then the others. -/
theorem storeEach_cons_eq_ok_iff {t : String} {value : Value}
    {numbers : List Nat} :
    a.storeEach id time mask ((t, value) :: items) = .ok (numbers, b) ↔
      ∃ number c rest, a.storeValue id t value time mask = .ok (number, c) ∧
        c.storeEach id time mask items = .ok (rest, b) ∧
        numbers = number :: rest := by
  constructor
  · intro h
    obtain ⟨⟨number, c⟩, hfirst, h⟩ := bind_eq_ok h
    obtain ⟨⟨rest, d⟩, hrest, h⟩ := bind_eq_ok h
    injection h with h
    obtain ⟨rfl, rfl⟩ := Prod.mk.inj h
    exact ⟨number, c, rest, hfirst, hrest, rfl⟩
  · rintro ⟨number, c, rest, hfirst, hrest, rfl⟩
    simp only [storeEach, hfirst, hrest, bind, Except.bind, pure, Except.pure]

/-- The second of two locations of one id stays that are put in place. -/
theorem put_put {m : Location} (h : m.id = l.id) :
    (a.put l).put m = a.put m := by
  unfold put
  rw [List.map_map]
  refine congrArg (fun locations => { a with locations })
    (List.map_congr_left fun k _ => ?_)
  by_cases hk : k.id = l.id
  · simp [hk, h]
  · simp [hk, h]

theorem holding_holding {m : Location} (h : m.id = l.id) (next next' : Nat) :
    (a.holding l next).holding m next' = a.holding m next' :=
  congrArg (fun b : Archive => { b with nextRevision := next', dirty := true })
    (put_put h)

/-- A setting that fits is stored under the number of the next write. -/
theorem storeValue_eq_holding {t : String} {path : Path} {value : Value}
    (hb : Path.backendOf t = .ok backend) (hl : a.location id = .ok l)
    (hpath : Path.ofText? t = some path) (hfits : l.tree.Fits path value time)
    (hroom : a.nextRevision < Numeral.maxWord) :
    a.storeValue id t value time mask = .ok (a.nextRevision,
      a.holding (l.holding backend
        (l.tree.write path ⟨a.nextRevision, time, value, mask, false⟩))
        (a.nextRevision + 1)) := by
  rw [storeValue_eq hb (location_eq_ok_iff.1 hl) hpath hfits, if_pos hroom]
  rfl

theorem storeValue_holding {t : String} {path : Path} {value : Value}
    (hb : Path.backendOf t = .ok backend) (hl : a.location id = .ok l)
    (hpath : Path.ofText? t = some path) {d : Directory}
    (hfits : d.Fits path value time) {next : Nat}
    (hroom : next < Numeral.maxWord) :
    (a.holding (l.holding backend d) next).storeValue id t value time mask =
      .ok (next, a.holding (l.holding backend
        (d.write path ⟨next, time, value, mask, false⟩)) (next + 1)) := by
  have hfits : (l.holding backend d).tree.Fits path value time := by
    rwa [Location.tree_holding]
  refine (storeValue_eq_holding hb (location_holding hl d next) hpath hfits
    hroom).trans ?_
  rw [Location.tree_holding, Location.holding_holding, holding_holding (by simp)]
  rfl

/-- Settings that were stored one by one had a location. -/
theorem exists_location_of_storeEach (hne : items ≠ []) {numbers : List Nat}
    (h : a.storeEach id time mask items = .ok (numbers, b)) :
    ∃ l, a.location id = .ok l := by
  obtain ⟨⟨t, value⟩, items, rfl⟩ := List.exists_cons_of_ne_nil hne
  obtain ⟨number, c, rest, hfirst, -⟩ := storeEach_cons_eq_ok_iff.1 h
  obtain ⟨-, l, -, -, hl, -⟩ := of_storeValue hfirst
  exact ⟨l, location_eq_ok_iff.2 hl⟩

section Fitting

variable (hnames : List.Forall₂ Names items placed)
  (hbelow : ∀ item ∈ items, Path.backendOf item.1 = .ok backend)
  (hn : (placed.map Prod.fst).Nodup) (hl : a.location id = .ok l)

include hnames hbelow hn hl

/-- Settings of different paths that fit are stored one by one behind others of
their backend. -/
theorem storeEach_holding {d : Directory}
    (hfits : ∀ x ∈ placed, d.Fits x.1 x.2 time) {next : Nat}
    (hroom : next + items.length ≤ Numeral.maxWord) :
    (a.holding (l.holding backend d) next).storeEach id time mask items =
      .ok (List.range' next items.length, a.holding (l.holding backend
        (writeEach time mask d (placed.zipIdx next))) (next + items.length)) := by
  induction hnames generalizing d next with
  | nil => rfl
  | @cons item x items placed hname hrest ih =>
    obtain ⟨t, value⟩ := item
    obtain ⟨path, v⟩ := x
    obtain ⟨hpath, rfl⟩ : Path.ofText? t = some path ∧ value = v := hname
    rw [List.map_cons, List.nodup_cons] at hn
    rw [List.length_cons] at hroom
    obtain ⟨hbackend, hbelow⟩ := List.forall_mem_cons.1 hbelow
    obtain ⟨hfirst, hothers⟩ := List.forall_mem_cons.1 hfits
    have hrest := (forall_fits_write_iff (Path.isValid_of_ofText? hpath).1 hn.1
      (r := ⟨next, time, value, mask, false⟩)).2 hothers
    have hsum : next + (items.length + 1) = next + 1 + items.length := by omega
    rw [List.length_cons, List.range'_succ, hsum]
    exact storeEach_cons_eq_ok_iff.2 ⟨next, _, _, storeValue_holding hbackend hl
      hpath hfirst (by omega), ih hbelow hn.2 hrest (by omega), rfl⟩

/-- Settings that were stored one by one fit the tree before all of them. -/
theorem fits_of_storeEach {numbers : List Nat}
    (h : a.storeEach id time mask items = .ok (numbers, b)) :
    ∀ x ∈ placed, l.tree.Fits x.1 x.2 time := by
  induction hnames generalizing a l numbers with
  | nil => exact nofun
  | @cons item x items placed hname hrest ih =>
    obtain ⟨t, value⟩ := item
    obtain ⟨path, v⟩ := x
    obtain ⟨hpath, rfl⟩ : Path.ofText? t = some path ∧ value = v := hname
    rw [List.map_cons, List.nodup_cons] at hn
    obtain ⟨-, hbelow⟩ := List.forall_mem_cons.1 hbelow
    obtain ⟨number, c, rest, hfirst, hrest, -⟩ := storeEach_cons_eq_ok_iff.1 h
    obtain ⟨other, k, p, -, hk, hp, hfits, rfl, -, rfl⟩ := of_storeValue hfirst
    obtain rfl : k = l := Option.some.inj (hk.symm.trans (location_eq_ok_iff.1 hl))
    obtain rfl : p = path := Option.some.inj (hp.symm.trans hpath)
    have hothers := ih hbelow hn.2 (location_holding hl _ _) hrest
    rw [Location.tree_holding] at hothers
    exact List.forall_mem_cons.2 ⟨hfits, (forall_fits_write_iff
      (Path.isValid_of_ofText? hpath).1 hn.1).1 hothers⟩

/-- Settings of different paths that fit are stored one by one. -/
theorem storeEach_eq (hne : items ≠ [])
    (hfits : ∀ x ∈ placed, l.tree.Fits x.1 x.2 time)
    (hroom : a.nextRevision + items.length ≤ Numeral.maxWord) :
    a.storeEach id time mask items =
      .ok (List.range' a.nextRevision items.length, a.holding (l.holding backend
        (writeEach time mask l.tree (placed.zipIdx a.nextRevision)))
        (a.nextRevision + items.length)) := by
  cases hnames with
  | nil => exact absurd rfl hne
  | @cons item x items placed hname hrest =>
    obtain ⟨t, value⟩ := item
    obtain ⟨path, v⟩ := x
    obtain ⟨hpath, rfl⟩ : Path.ofText? t = some path ∧ value = v := hname
    rw [List.map_cons, List.nodup_cons] at hn
    rw [List.length_cons] at hroom
    obtain ⟨hbackend, hbelow⟩ := List.forall_mem_cons.1 hbelow
    obtain ⟨hfirst, hothers⟩ := List.forall_mem_cons.1 hfits
    have hothers := (forall_fits_write_iff (Path.isValid_of_ofText? hpath).1 hn.1
      (r := ⟨a.nextRevision, time, value, mask, false⟩)).2 hothers
    have hsum : a.nextRevision + (items.length + 1) =
        a.nextRevision + 1 + items.length := by omega
    rw [List.length_cons, List.range'_succ, hsum]
    exact storeEach_cons_eq_ok_iff.2 ⟨a.nextRevision, _, _,
      storeValue_eq_holding hbackend hl hpath hfirst (by omega),
      storeEach_holding hrest hbelow hn.2 hl hothers (by omega), rfl⟩

omit hl in
/-- Settings of different paths are stored one by one exactly where they fit the
tree before all of them. -/
theorem exists_storeEach_iff (hne : items ≠ [])
    (hroom : a.nextRevision + items.length ≤ Numeral.maxWord) :
    (∃ numbers b, a.storeEach id time mask items = .ok (numbers, b)) ↔
      ∃ l, a.location id = .ok l ∧ ∀ x ∈ placed, l.tree.Fits x.1 x.2 time := by
  constructor
  · intro ⟨numbers, b, h⟩
    obtain ⟨l, hl⟩ := exists_location_of_storeEach hne h
    exact ⟨l, hl, fits_of_storeEach hnames hbelow hn hl h⟩
  · intro ⟨l, hl, hfits⟩
    exact ⟨_, _, storeEach_eq hnames hbelow hn hl hne hfits hroom⟩

end Fitting

/-! ## At once -/

/-- Behind a document that was stored each of its settings is written under one
number. -/
theorem holding_of_storeDocument (hne : items ≠ [])
    (hnames : List.Forall₂ Names items placed) {report : StoreReport}
    (h : a.storeDocument id backend items time mask = (.ok report, b)) :
    ∃ l, a.location id = .ok l ∧ (∀ x ∈ placed, l.tree.Fits x.1 x.2 time) ∧
      report = ⟨id, backend, some a.nextRevision, items.length⟩ ∧
      b = a.holding (l.holding backend (writeEach time mask l.tree
        (placed.map (·, a.nextRevision)))) (a.nextRevision + 1) := by
  obtain ⟨l, tree, -, hl, hcheck, -, hw, rfl, rfl⟩ :=
    written_of_storeDocument hnames h
  obtain rfl := hw.eq_writeEach
  rw [if_neg hne, if_neg hne]
  exact ⟨l, hl, fits_of_checkItems hcheck hnames, rfl, rfl⟩

/-- Settings of different paths are stored as one document exactly where they fit
the tree before all of them. -/
theorem exists_storeDocument_iff (hne : items ≠ [])
    (hnames : List.Forall₂ Names items placed)
    (hbelow : ∀ item ∈ items, Path.backendOf item.1 = .ok backend)
    (hn : (placed.map Prod.fst).Nodup) (hroom : a.nextRevision < Numeral.maxWord) :
    (∃ report b, a.storeDocument id backend items time mask = (.ok report, b)) ↔
      ∃ l, a.location id = .ok l ∧ ∀ x ∈ placed, l.tree.Fits x.1 x.2 time := by
  constructor
  · intro ⟨report, b, h⟩
    obtain ⟨l, hl, hfits, -, -⟩ := holding_of_storeDocument hne hnames h
    exact ⟨l, hl, hfits⟩
  · intro ⟨l, hl, hfits⟩
    obtain ⟨item, hitem⟩ := List.exists_mem_of_ne_nil items hne
    have hvalid := Path.isValidBackend_of_backendOf (hbelow item hitem)
    exact exists_storeDocument_of_fits time mask hvalid hl (Or.inr hroom) hnames hn
      fun x hx => ⟨isBelow_of_names hnames hbelow x hx, hfits x hx⟩

/-! ## Both -/

/-- Capping at the number of the next write changes no location that is there. -/
theorem IsNumbered.location_capped (h : a.IsNumbered) (ha : a.WellFormed)
    (hl : l ∈ a.locations) : l.capped a.nextRevision = l :=
  congrArg (fun tree => { l with tree })
    ((h.below l hl).mapEntries_capped (ha.trees l hl))

theorem IsNumbered.capped_eq_self (h : a.IsNumbered) (ha : a.WellFormed) :
    a.capped a.nextRevision = a := by
  have hmap : a.locations.map (Location.capped a.nextRevision) = a.locations :=
    (List.map_congr_left fun l hl => h.location_capped ha hl).trans
      (List.map_id a.locations)
  rw [capped, hmap]

theorem capped_holding (a : Archive) (l : Location) (next : Nat) :
    (a.holding l next).capped bound =
      (a.capped bound).holding (l.capped bound) next := by
  have hmap : (a.put l).locations.map (Location.capped bound) =
      ((a.capped bound).put (l.capped bound)).locations := by
    rw [put, put, capped, List.map_map, List.map_map]
    refine List.map_congr_left fun k _ => ?_
    show Location.capped bound (if k.id = l.id then l else k) =
      if k.id = l.id then l.capped bound else k.capped bound
    split <;> rfl
  exact congrArg (fun locations =>
    ({ a with locations, nextRevision := next, dirty := true } : Archive)) hmap

/-- Settings that were written one by one at a location that was there are those
that were written at once, but for their numbers. -/
theorem IsNumbered.capped_holding (h : a.IsNumbered) (ha : a.WellFormed)
    (hl : l ∈ a.locations) (placed : List (Path × Value)) (next : Nat) :
    (a.holding (l.holding backend (writeEach time mask l.tree
        (placed.zipIdx a.nextRevision))) next).capped a.nextRevision =
      a.holding (l.holding backend (writeEach time mask l.tree
        (placed.map (·, a.nextRevision)))) next := by
  have hlocation := h.location_capped ha hl
  have htree : l.tree.mapEntries (Entry.capped a.nextRevision) = l.tree :=
    congrArg Location.tree hlocation
  rw [Archive.capped_holding, h.capped_eq_self ha, Location.capped_holding,
    hlocation, mapEntries_capped_writeEach,
    map_min_zipIdx placed (Nat.le_refl _), htree]

/-- Some settings of one backend, at different paths named by anchored texts, are
stored as one document exactly where they are stored one after the other, if there
are numbers for all of them.  The document takes one number and the others one
each, beginning with the same.  The archive behind the document is then the
archive behind the others with all these numbers made the first one.  In each the
settings have their own revision appended to what they had, and the other settings
of the location are as before. -/
theorem oneByOne_of_reachable {allowed : Operation → Prop}
    (h : Reachable allowed a) (id : String) {backend : String} (time : Instant)
    (mask : Mask) {items : List (String × Value)} (hne : items ≠ [])
    (hanchored : ∀ item ∈ items, Path.IsAnchored item.1)
    (hbelow : ∀ item ∈ items, Path.backendOf item.1 = .ok backend)
    (hdistinct : (items.map Prod.fst).Nodup)
    (hroom : a.nextRevision + items.length ≤ Numeral.maxWord) :
    ((∃ report b, a.storeDocument id backend items time mask = (.ok report, b)) ↔
      ∃ numbers c, a.storeEach id time mask items = .ok (numbers, c)) ∧
    a.capped a.nextRevision = a ∧
    ∀ report b numbers c,
      a.storeDocument id backend items time mask = (.ok report, b) →
      a.storeEach id time mask items = .ok (numbers, c) →
      report.revision = some a.nextRevision ∧
      numbers = List.range' a.nextRevision items.length ∧
      b = { c.capped a.nextRevision with nextRevision := a.nextRevision + 1 } ∧
      c.nextRevision = a.nextRevision + items.length ∧
      ∃ l m n, a.location id = .ok l ∧ b.location id = .ok m ∧
        c.location id = .ok n ∧
        (∀ k item path, items[k]? = some item → Path.ofText? item.1 = some path →
          m.tree.get? path = some (appended (path.getLastD "")
            ⟨a.nextRevision, time, item.2, mask, false⟩ (l.tree.get? path)) ∧
          n.tree.get? path = some (appended (path.getLastD "")
            ⟨a.nextRevision + k, time, item.2, mask, false⟩
            (l.tree.get? path))) ∧
        ∀ path, (∀ item ∈ items, Path.ofText? item.1 ≠ some path) →
          m.tree.get? path = l.tree.get? path ∧
          n.tree.get? path = l.tree.get? path := by
  have ha := h.wellFormed
  have hplaced : ∀ item ∈ items, ∃ path, Path.ofText? item.1 = some path := by
    intro item hitem
    obtain ⟨name, rest, hpath⟩ := Path.backendOf_eq_ok_iff.1 (hbelow item hitem)
    exact ⟨_, hpath⟩
  obtain ⟨placed, hnames⟩ := exists_names hplaced
  have hspelled : Path.SpelledOnce (items.map Prod.fst) :=
    Path.spelledOnce_of_anchored (List.forall_mem_map.2 hanchored)
  have hn := nodup_of_names hnames hspelled hdistinct
  have hvalid : ∀ x ∈ placed, x.1.IsValid := by
    intro x hx
    obtain ⟨item, -, hname⟩ := exists_mem_of_forall₂ hnames hx
    exact Path.isValid_of_ofText? hname.1
  have hroom' : a.nextRevision < Numeral.maxWord := by
    have := List.length_pos_of_ne_nil hne
    omega
  refine ⟨(exists_storeDocument_iff hne hnames hbelow hn hroom').trans
    (exists_storeEach_iff hnames hbelow hn hne hroom).symm,
    h.isNumbered.capped_eq_self ha, ?_⟩
  intro report b numbers c hdocument heach
  obtain ⟨l, hl, hfits, rfl, rfl⟩ := holding_of_storeDocument hne hnames hdocument
  rw [storeEach_eq hnames hbelow hn hl hne hfits hroom] at heach
  obtain ⟨rfl, rfl⟩ := Prod.mk.inj (Except.ok.inj heach)
  obtain ⟨hmem, -⟩ := mem_of_findLocation? (location_eq_ok_iff.1 hl)
  have hmap : (placed.map (·, a.nextRevision)).map Prod.fst = placed := by
    rw [List.map_map]
    exact List.map_id placed
  obtain ⟨honce, honce'⟩ := get?_writeEach time mask l.tree hmap hvalid hn
  obtain ⟨heach, heach'⟩ := get?_writeEach time mask l.tree
    (List.zipIdx_map_fst a.nextRevision placed) hvalid hn
  refine ⟨rfl, rfl, ?_, rfl, l, _, _, hl, location_holding hl _ _,
    location_holding hl _ _, ?_, ?_⟩
  · rw [h.isNumbered.capped_holding ha hmem]
    rfl
  · intro k item path hitem hpath
    obtain ⟨x, hx, hname⟩ := exists_getElem?_of_forall₂ hnames hitem
    obtain rfl : x.1 = path := Option.some.inj (hname.1.symm.trans hpath)
    rw [Location.tree_holding, Location.tree_holding, hname.2]
    exact ⟨honce (x, _) (List.mem_map_of_mem (List.mem_of_getElem? hx)),
      heach (x, _) (List.mk_add_mem_zipIdx_iff_getElem?.2 hx)⟩
  · intro path hpath
    have hnot : path ∉ placed.map Prod.fst := by
      intro hmem
      obtain ⟨x, hx, rfl⟩ := List.mem_map.1 hmem
      obtain ⟨item, hitem, hname⟩ := exists_mem_of_forall₂ hnames hx
      exact hpath item hitem hname.1
    rw [Location.tree_holding, Location.tree_holding]
    exact ⟨honce' path hnot, heach' path hnot⟩

/-- A setting that was there, two in a new directory and one beside it of its
name. -/
theorem oneByOne_of_shared_directory :
    let a := fresh.run [.newLocation "desk" none,
      .storeValue "desk" "/app/mode" (.int 1) (.ofSecond 5) .keep]
    let items : List (String × Value) := [("/app/view/size", .int 2),
      ("/app/mode", .int 3), ("/app/view", .bool true),
      ("/app/view/mode", .int 4)]
    ∃ b c, a.storeDocument "desk" "app" items (.ofSecond 5) .retire =
        (.ok ⟨"desk", "app", some 2, 4⟩, b) ∧
      a.storeEach "desk" (.ofSecond 5) .retire items = .ok ([2, 3, 4, 5], c) ∧
      b = { c.capped 2 with nextRevision := 3 } ∧ c.nextRevision = 6 := by
  intro a items
  have h : Reachable (fun _ => True) a := reachable_run .fresh _
  have hnext : a.nextRevision = 2 := by decide +kernel
  have hanchored : ∀ item ∈ items, Path.IsAnchored item.1 := by
    simp [items, Path.IsAnchored]
  have hbelow : ∀ item ∈ items, Path.backendOf item.1 = .ok "app" := by
    simp only [items, List.forall_mem_cons]
    exact ⟨rfl, rfl, rfl, rfl, nofun⟩
  have hne : items ≠ [] := List.cons_ne_nil _ _
  obtain ⟨hiff, -, hsame⟩ := oneByOne_of_reachable h "desk" (.ofSecond 5) .retire
    hne hanchored hbelow (by decide) (by decide +kernel)
  have hreport : (a.storeDocument "desk" "app" items (.ofSecond 5)
      .retire).1.toOption = some ⟨"desk", "app", some 2, 4⟩ := by decide +kernel
  have hdocument := eq_mk_of_toOption hreport
  obtain ⟨numbers, c, heach⟩ := hiff.1 ⟨_, _, hdocument⟩
  obtain ⟨-, rfl, hcapped, hcount, -⟩ := hsame _ _ _ _ hdocument heach
  rw [hnext] at heach hcapped hcount
  exact ⟨_, c, hdocument, heach, hcapped, hcount⟩

end Archive

end SettingsArchive
