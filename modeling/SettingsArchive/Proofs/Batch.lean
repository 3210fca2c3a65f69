import SettingsArchive.Proofs.Rollback
import SettingsArchive.Proofs.Writing

/-!
# Several settings at once

Every setting of a document is checked before the first one is written.  A check
looks at the tree before all writes, and a write can only spoil the check of a
later one if both have one path.  So where the paths are different, what was
checked is written as a whole (`writeAll_of_fits`).

What follows is that a document is stored with all its settings
(`storeDocument_of_fits`, `written_of_storeDocument`), and that a document that is
refused has changed nothing (`storeDocument_of_error`).
-/

namespace SettingsArchive

namespace Location

/-- The location behind writes to settings of a backend. -/
def holding (l : Location) (backend : String) (tree : Directory) : Location :=
  { l with tree }.ensureBackend backend

@[simp]
theorem id_holding (l : Location) (backend : String) (tree : Directory) :
    (l.holding backend tree).id = l.id :=
  id_ensureBackend _ _

@[simp]
theorem tree_holding (l : Location) (backend : String) (tree : Directory) :
    (l.holding backend tree).tree = tree :=
  tree_ensureBackend _ _

end Location

namespace Archive

open Directory

variable {a b : Archive} {id backend : String} {time : Instant}

/-! ## Names -/

/-- Texts that name different paths are different. -/
theorem nodup_texts_of_names {items : List (String × Value)}
    {placed : List (Path × Value)} (h : List.Forall₂ Names items placed)
    (hn : (placed.map Prod.fst).Nodup) : (items.map Prod.fst).Nodup := by
  induction h with
  | nil => exact List.nodup_nil
  | @cons item x items placed hname hrest ih =>
    rw [List.map_cons, List.nodup_cons] at hn ⊢
    refine ⟨?_, ih hn.2⟩
    intro hitem
    obtain ⟨other, hother, htext⟩ := List.mem_map.1 hitem
    obtain ⟨y, hy, hnames⟩ := exists_mem_of_forall₂ hrest.flip hother
    have hpath : y.1 = x.1 :=
      Option.some.inj (hnames.1.symm.trans (htext ▸ hname.1))
    exact hn.1 (hpath ▸ List.mem_map_of_mem hy)

/-- Texts that name paths name a list of them. -/
theorem exists_names {items : List (String × Value)}
    (h : ∀ item ∈ items, ∃ path, Path.ofText? item.1 = some path) :
    ∃ placed, List.Forall₂ Names items placed := by
  induction items with
  | nil => exact ⟨[], .nil⟩
  | cons item items ih =>
    obtain ⟨⟨path, hpath⟩, hrest⟩ := List.forall_mem_cons.1 h
    obtain ⟨placed, hplaced⟩ := ih hrest
    exact ⟨(path, item.2) :: placed, .cons ⟨hpath, rfl⟩ hplaced⟩

/-- Texts name one list of paths. -/
theorem eq_of_names {placed' : List (Path × Value)}
    (h : List.Forall₂ Names items placed) (h' : List.Forall₂ Names items placed') :
    placed' = placed := by
  refine List.right_unique_forall₂' (R := Names) ?_ h' h
  intro item x y hx hy
  exact Prod.ext (Option.some.inj (hx.1.symm.trans hy.1)) (hx.2.symm.trans hy.2)

/-! ## Documents -/

/-- Different texts below a backend whose values can be taken may be stored. -/
theorem checkItems_of_forall {l : Location} {seen : List String}
    {items : List (String × Value)} (hn : (items.map Prod.fst).Nodup)
    (h : ∀ item ∈ items, item.1 ∉ seen ∧ Path.backendOf item.1 = .ok backend ∧
      l.tree.checkWrite item.1 item.2 time = .ok ()) :
    checkItems l backend time seen items = .ok () := by
  induction items generalizing seen with
  | nil => rfl
  | cons item items ih =>
    obtain ⟨t, value⟩ := item
    obtain ⟨⟨hseen, hbackend, hcheck⟩, hrest⟩ := List.forall_mem_cons.1 h
    rw [List.map_cons, List.nodup_cons] at hn
    have hitem : checkItem l backend time seen t value = .ok () := by
      rw [checkItem, hbackend]
      simpa [bind, Except.bind, hseen] using hcheck
    rw [checkItems, hitem]
    apply ih hn.2
    intro other hother
    obtain ⟨hother', hall⟩ := hrest other hother
    have hmem : other.1 ∈ items.map Prod.fst := List.mem_map_of_mem hother
    refine ⟨?_, hall⟩
    rw [List.mem_cons, not_or]
    exact ⟨fun heq => hn.1 (heq ▸ hmem), hother'⟩

/-- Settings that may be stored fit. -/
theorem fits_of_checkItems {l : Location} {items : List (String × Value)}
    {placed : List (Path × Value)}
    (h : checkItems l backend time [] items = .ok ())
    (hnames : List.Forall₂ Names items placed) :
    ∀ x ∈ placed, l.tree.Fits x.1 x.2 time := by
  intro x hx
  obtain ⟨item, hitem, hname⟩ := exists_mem_of_forall₂ hnames hx
  obtain ⟨-, -, hcheck⟩ := (of_checkItems h).2 item hitem
  obtain ⟨path, hpath, hfits⟩ := checkWrite_eq_ok_iff.1 hcheck
  obtain rfl : path = x.1 := Option.some.inj (hpath.symm.trans hname.1)
  exact hname.2 ▸ hfits

/-- Values that a location can take, at different paths, are all written. -/
theorem writeAll_of_fits (n : Nat) (mask : Mask) {items : List (String × Value)}
    {placed : List (Path × Value)} (hnames : List.Forall₂ Names items placed)
    {l : Location} (hn : (placed.map Prod.fst).Nodup)
    (hfits : ∀ x ∈ placed, l.tree.Fits x.1 x.2 time) :
    ∃ tree, writeAll l time n mask items = (.ok (), { l with tree }) ∧
      Written time n mask placed l.tree tree := by
  induction hnames generalizing l with
  | nil => exact ⟨l.tree, rfl, .nil _⟩
  | @cons item x items placed hname hrest ih =>
    obtain ⟨t, value⟩ := item
    obtain ⟨path, v⟩ := x
    obtain ⟨hpath, rfl⟩ : Path.ofText? t = some path ∧ value = v := hname
    rw [List.map_cons, List.nodup_cons] at hn
    obtain ⟨hfirst, hothers⟩ := List.forall_mem_cons.1 hfits
    have hvalid := Path.isValid_of_ofText? hpath
    have hstore : l.tree.store t value time n mask =
        .ok (l.tree.write path ⟨n, time, value, mask, false⟩) :=
      store_eq_ok_iff.2 ⟨path, hpath, hfirst, rfl⟩
    obtain ⟨tree, hwrite, hw⟩ := ih (l := { l with
        tree := l.tree.write path ⟨n, time, value, mask, false⟩ }) hn.2
      ((forall_fits_write_iff hvalid.1 hn.1).2 hothers)
    refine ⟨tree, ?_, .cons hvalid hfirst hw⟩
    simp only [writeAll, hstore]
    exact hwrite

/-- A document whose settings have different paths below the backend and fit
passes the checks. -/
theorem checkItems_of_fits {items : List (String × Value)}
    {placed : List (Path × Value)} {l : Location} {time : Instant}
    (hnames : List.Forall₂ Names items placed)
    (hn : (placed.map Prod.fst).Nodup)
    (hplaced : ∀ x ∈ placed, x.1.IsBelow (some backend) ∧
      l.tree.Fits x.1 x.2 time) :
    checkItems l backend time [] items = .ok () := by
  refine checkItems_of_forall (nodup_texts_of_names hnames hn) ?_
  intro item hitem
  obtain ⟨x, hx, hname⟩ := exists_mem_of_forall₂ hnames.flip hitem
  obtain ⟨hbelow, hfits⟩ := hplaced x hx
  obtain ⟨rest, hne, hpath⟩ := hbelow backend rfl
  obtain ⟨name, rest, rfl⟩ := List.exists_cons_of_ne_nil hne
  exact ⟨List.not_mem_nil,
    Path.backendOf_eq_ok_iff.2 ⟨name, rest, hpath ▸ hname.1⟩,
    checkWrite_eq_ok_iff.2 ⟨x.1, hname.1, hname.2 ▸ hfits⟩⟩

/-- Settings that pass the checks get a number, if there is one left. -/
theorem prepareDocument_of_checkItems {items : List (String × Value)}
    {l : Location} {time : Instant} (hb : Location.isValidBackend backend)
    (hl : a.location id = .ok l)
    (hcount : items = [] ∨ a.nextRevision < Numeral.maxWord)
    (hcheck : checkItems l backend time [] items = .ok ()) :
    ∃ number b, a.prepareDocument id backend items time = .ok (l, number, b) := by
  unfold prepareDocument
  simp only [Location.checkBackend_eq_ok_iff.2 hb, hl, hcheck, bind, Except.bind]
  by_cases hempty : items.isEmpty
  · exact ⟨none, a, if_pos hempty⟩
  · have hroom := hcount.resolve_left fun hnil => hempty (hnil ▸ rfl)
    rw [if_neg hempty, allocate, if_pos hroom]
    exact ⟨some a.nextRevision, a.counted, rfl⟩

/-- A document whose settings have different paths below the backend and fit is
stored, if there is a number left for them. -/
theorem exists_storeDocument_of_fits (time : Instant) (mask : Mask)
    {items : List (String × Value)} {placed : List (Path × Value)} {l : Location}
    (hb : Location.isValidBackend backend) (hl : a.location id = .ok l)
    (hcount : items = [] ∨ a.nextRevision < Numeral.maxWord)
    (hnames : List.Forall₂ Names items placed)
    (hn : (placed.map Prod.fst).Nodup)
    (hplaced : ∀ x ∈ placed, x.1.IsBelow (some backend) ∧
      l.tree.Fits x.1 x.2 time) :
    ∃ report b, a.storeDocument id backend items time mask = (.ok report, b) := by
  obtain ⟨number, a', hprepare⟩ := prepareDocument_of_checkItems hb hl hcount
    (checkItems_of_fits hnames hn hplaced)
  obtain ⟨tree, hwrite, -⟩ :=
    writeAll_of_fits (number.getD 0) mask hnames hn fun x hx => (hplaced x hx).2
  rw [storeDocument, hprepare]
  simp only [hwrite]
  exact ⟨_, _, rfl⟩

/-! ## What a document leaves -/

/-- The archive behind writes at a location. -/
def holding (a : Archive) (l : Location) (next : Nat) : Archive :=
  { a.put l with nextRevision := next, dirty := true }

theorem location_holding {l : Location} (hl : a.location id = .ok l)
    (tree : Directory) (next : Nat) :
    (a.holding (l.holding backend tree) next).location id =
      .ok (l.holding backend tree) := by
  obtain ⟨hmem, hid⟩ := mem_of_findLocation? (location_eq_ok_iff.1 hl)
  have hthere : a.hasLocation (l.holding backend tree).id := by
    rw [Location.id_holding, hid]
    exact hasLocation_iff.2 ⟨l, location_eq_ok_iff.1 hl⟩
  have hput := location_put hthere
  rwa [Location.id_holding, hid] at hput

/-- Behind a document that was stored all its settings are written, under one
number if there are any. -/
theorem written_of_storeDocument {items : List (String × Value)}
    {placed : List (Path × Value)} {mask : Mask} {report : StoreReport}
    (hnames : List.Forall₂ Names items placed)
    (h : a.storeDocument id backend items time mask = (.ok report, b)) :
    ∃ l tree, Location.isValidBackend backend ∧ a.location id = .ok l ∧
      checkItems l backend time [] items = .ok () ∧
      (items = [] ∨ a.nextRevision < Numeral.maxWord) ∧
      Written time a.nextRevision mask placed l.tree tree ∧
      report = ⟨id, backend, if items = [] then none else some a.nextRevision,
        items.length⟩ ∧
      b = a.holding (l.holding backend tree)
        (if items = [] then a.nextRevision else a.nextRevision + 1) := by
  obtain ⟨l, number, c, placed', tree, hp, hnames', hw, rfl, rfl⟩ :=
    prepared_of_storeDocument h
  obtain rfl := eq_of_names hnames hnames'
  obtain ⟨hvalid, hl, hcheck, hcount⟩ := of_prepareDocument hp
  refine ⟨l, tree, hvalid, location_eq_ok_iff.2 hl, hcheck, ?_⟩
  rcases hcount with ⟨rfl, rfl, rfl⟩ | ⟨hne, rfl, hroom, rfl⟩
  · cases hnames
    cases hw
    exact ⟨Or.inl rfl, .nil _, rfl, rfl⟩
  · rw [if_neg hne, if_neg hne]
    exact ⟨Or.inr hroom, hw, rfl, rfl⟩

/-- A document whose settings have different paths below the backend and fit is
stored with all of them, if there is a number left. -/
theorem storeDocument_of_fits (time : Instant) (mask : Mask)
    {items : List (String × Value)} {placed : List (Path × Value)} {l : Location}
    (hb : Location.isValidBackend backend) (hl : a.location id = .ok l)
    (hcount : a.nextRevision < Numeral.maxWord)
    (hnames : List.Forall₂ Names items placed)
    (hn : (placed.map Prod.fst).Nodup)
    (hplaced : ∀ x ∈ placed, x.1.IsBelow (some backend) ∧
      l.tree.Fits x.1 x.2 time) :
    ∃ report b n, ∃ m : Location,
      a.storeDocument id backend items time mask = (.ok report, b) ∧
      report.stored = items.length ∧ b.location id = .ok m ∧
      Written time n mask placed l.tree m.tree := by
  obtain ⟨report, b, hstore⟩ := exists_storeDocument_of_fits time mask hb hl
    (Or.inr hcount) hnames hn hplaced
  obtain ⟨k, tree, -, hk, -, -, hw, rfl, rfl⟩ :=
    written_of_storeDocument hnames hstore
  obtain rfl := Except.ok.inj (hk.symm.trans hl)
  refine ⟨_, _, a.nextRevision, k.holding backend tree, hstore, rfl,
    location_holding hl tree _, ?_⟩
  rw [Location.tree_holding]
  exact hw

/-! ## Refusals -/

/-- A document whose texts spell each path in one way is stored with all its
settings or changes nothing. -/
theorem storeDocument_of_error {items : List (String × Value)} {mask : Mask}
    {e : ArchiveError} (ha : Path.SpelledOnce (items.map Prod.fst))
    (h : a.storeDocument id backend items time mask = (.error e, b)) :
    b = a := by
  unfold storeDocument at h
  cases hp : a.prepareDocument id backend items time with
  | error f =>
    rw [hp] at h
    exact (Prod.mk.inj h).2.symm
  | ok prepared =>
    obtain ⟨l, number, a'⟩ := prepared
    obtain ⟨-, -, hitems, -⟩ := of_prepareDocument hp
    obtain ⟨hn, hall⟩ := of_checkItems hitems
    obtain ⟨placed, hnames⟩ := exists_names fun item hitem =>
      (checkWrite_eq_ok_iff.1 (hall item hitem).2.2).imp fun _ hpath => hpath.1
    obtain ⟨tree, hwrite, -⟩ := writeAll_of_fits (number.getD 0) mask hnames
      (nodup_of_names hnames ha hn) (fits_of_checkItems hitems hnames)
    rw [hp] at h
    simp only [hwrite] at h
    cases (Prod.mk.inj h).1

end Archive

end SettingsArchive
