import SettingsArchive.Proofs.Directory.Change
import SettingsArchive.Proofs.Operations

/-!
# Storing

The operations that write several settings may be refused halfway, and then
the writes before stay.  `Directory.Written` is the relation between a tree and
the tree behind some writes of one number, and `Archive.writeAll_written` and
`Archive.applyAll_written` say that both endings leave the tree behind a first
part of the writes.

The lemmas on `storeValue`, `prepareDocument`, `purge` and `trim` then say what
these operations leave of the archive.
-/

namespace SettingsArchive

namespace Directory

/-- Whether the entry of a path can take a value at an instant. -/
def Fits (d : Directory) (path : Path) (value : Value) (time : Instant) :
    Prop :=
  ∀ e, d.get? path = some e → e.kind = value.kind ∧ e.head.time ≤ time

/-- The writes of one number and instant lead from one tree to another. -/
inductive Written (time : Instant) (id : Nat) (mask : Mask) :
    List (Path × Value) → Directory → Directory → Prop where
  | nil (d : Directory) : Written time id mask [] d d
  | cons {path : Path} {value : Value} {items : List (Path × Value)}
      {d d' : Directory} (valid : path.IsValid)
      (fits : d.Fits path value time)
      (rest : Written time id mask items
        (d.write path ⟨id, time, value, mask, false⟩) d') :
      Written time id mask ((path, value) :: items) d d'

theorem Written.eq_of_nil {time : Instant} {id : Nat} {mask : Mask}
    {d d' : Directory} (h : Written time id mask [] d d') : d' = d := by
  cases h
  rfl

/-- Every setting can take some value at some instant. -/
theorem exists_fits (d : Directory) (path : Path) :
    ∃ value time, d.Fits path value time := by
  cases hget : d.get? path with
  | none => exact ⟨default, .ofSecond 0, by simp [Fits, hget]⟩
  | some e =>
    refine ⟨(e.past.headD e.head).value, e.head.time, ?_⟩
    intro e' he'
    obtain rfl := Option.some.inj (hget.symm.trans he')
    exact ⟨rfl, Or.inr ⟨rfl, Nat.le_refl _⟩⟩

theorem checkWrite_eq_ok_iff {d : Directory} {t : String} {value : Value}
    {time : Instant} :
    d.checkWrite t value time = .ok () ↔
      ∃ path, Path.ofText? t = some path ∧ d.Fits path value time := by
  unfold checkWrite
  cases hp : Path.ofText? t with
  | none => simp
  | some path =>
    have hiff : (∃ p, some path = some p ∧ d.Fits p value time) ↔
        d.Fits path value time := by
      simp
    rw [hiff]
    cases he : d.get? path with
    | none => simp [Fits, he]
    | some e =>
      have hfits : d.Fits path value time ↔
          e.kind = value.kind ∧ e.head.time ≤ time := by
        simp [Fits, he]
      rw [hfits]
      simp only [he]
      split
      · rename_i hkind
        simp [hkind]
      · rename_i hkind
        rw [not_not] at hkind
        split
        · rename_i hlt
          simp [← Instant.not_lt, hlt]
        · rename_i hlt
          simp [hkind, ← Instant.not_lt, hlt]

theorem store_eq_ok_iff {d d' : Directory} {t : String} {value : Value}
    {time : Instant} {id : Nat} {mask : Mask} :
    d.store t value time id mask = .ok d' ↔
      ∃ path, Path.ofText? t = some path ∧ d.Fits path value time ∧
        d' = d.write path ⟨id, time, value, mask, false⟩ := by
  constructor
  · intro h
    obtain ⟨⟨⟩, hcheck, h⟩ := bind_eq_ok h
    obtain ⟨path, hpath, hfits⟩ := checkWrite_eq_ok_iff.1 hcheck
    rw [hpath] at h
    injection h with h
    exact ⟨path, hpath, hfits, h.symm⟩
  · rintro ⟨path, hpath, hfits, rfl⟩
    have hcheck : d.checkWrite t value time = .ok () :=
      checkWrite_eq_ok_iff.2 ⟨path, hpath, hfits⟩
    unfold store
    rw [hcheck, hpath]
    rfl

/-- What is refused does not fit. -/
theorem not_fits_of_store {d : Directory} {t : String} {value : Value}
    {time : Instant} {id : Nat} {mask : Mask} {e : ArchiveError} {path : Path}
    (h : d.store t value time id mask = .error e)
    (hpath : Path.ofText? t = some path) : ¬ d.Fits path value time := by
  intro hfits
  rw [store_eq_ok_iff.2 ⟨path, hpath, hfits, rfl⟩] at h
  cases h

/-- A new or longer entry of a path has the last segment for its name. -/
theorem name_appended {path : Path} {name : String}
    (hpath : path.getLast? = some name) (r : Revision) (o : Option Entry)
    (ho : ∀ e ∈ o, e.name = name) :
    (appended (path.getLastD "") r o).name = name := by
  cases o with
  | none => simp [appended, Entry.ofFirst, List.getLastD_eq_getLast?, hpath]
  | some e => exact ho e rfl

theorem exists_getLast? {path : Path} (h : path ≠ []) :
    ∃ name, path.getLast? = some name :=
  ⟨_, List.getLast?_eq_some_getLast h⟩

/-- A write appends to the setting of its path, or begins it. -/
theorem get?_write {path : Path} (h : path ≠ []) (d : Directory)
    (r : Revision) (q : Path) :
    (d.write path r).get? q =
      if q = path then some (appended (path.getLastD "") r (d.get? path))
      else d.get? q := by
  obtain ⟨name, hname⟩ := exists_getLast? h
  exact get?_put hname (name_appended hname r) d q

/-- A write makes no difference to whether other settings can take values. -/
theorem forall_fits_write_iff {d : Directory} {path : Path} (h : path ≠ [])
    {items : List (Path × Value)} (hn : path ∉ items.map Prod.fst)
    {r : Revision} {time : Instant} :
    (∀ x ∈ items, (d.write path r).Fits x.1 x.2 time) ↔
      ∀ x ∈ items, d.Fits x.1 x.2 time := by
  refine forall₂_congr fun x hx => ?_
  have hmem : x.1 ∈ items.map Prod.fst := List.mem_map_of_mem hx
  have hne : x.1 ≠ path := fun heq => hn (heq ▸ hmem)
  rw [Fits, Fits, get?_write h, if_neg hne]

theorem Sound.write {d : Directory} (h : d.Sound) {path : Path}
    (hv : path.IsValid) (r : Revision) : (d.write path r).Sound := by
  obtain ⟨name, hname⟩ := exists_getLast? hv.1
  exact Sound.put hname hv (name_appended hname r) h

theorem Written.sound {time : Instant} {id : Nat} {mask : Mask}
    {items : List (Path × Value)} {d d' : Directory}
    (h : Written time id mask items d d') (hd : d.Sound) : d'.Sound := by
  induction h with
  | nil d => exact hd
  | cons valid _ _ ih => exact ih (hd.write valid _)

/-- Behind writes to different settings each of them has its own write
appended, and every other setting is as before. -/
theorem Written.get?_eq {time : Instant} {id : Nat} {mask : Mask}
    {items : List (Path × Value)} {d d' : Directory}
    (h : Written time id mask items d d')
    (hn : (items.map Prod.fst).Nodup) :
    (∀ x ∈ items, d'.get? x.1 = some (appended (x.1.getLastD "")
        ⟨id, time, x.2, mask, false⟩ (d.get? x.1))) ∧
      ∀ q ∉ items.map Prod.fst, d'.get? q = d.get? q := by
  induction h with
  | nil d => simp
  | @cons path value items d d' valid fits rest ih =>
    rw [List.map_cons, List.nodup_cons] at hn
    obtain ⟨hitems, hothers⟩ := ih hn.2
    have hget := get?_write valid.1 d ⟨id, time, value, mask, false⟩
    refine ⟨List.forall_mem_cons.2 ⟨?_, ?_⟩, ?_⟩
    · rw [hothers path hn.1, hget, if_pos rfl]
    · intro x hx
      have hmem : x.1 ∈ items.map Prod.fst := List.mem_map_of_mem hx
      have hne : x.1 ≠ path := fun heq => hn.1 (heq ▸ hmem)
      rw [hitems x hx, hget, if_neg hne]
    · intro q hq
      rw [List.map_cons, List.mem_cons, not_or] at hq
      rw [hothers q hq.2, hget, if_neg hq.1]

/-- Behind writes to different settings each of them has the value that was
written, and every other setting is as before. -/
theorem Written.get? {time : Instant} {id : Nat} {mask : Mask}
    {items : List (Path × Value)} {d d' : Directory}
    (h : Written time id mask items d d')
    (hn : (items.map Prod.fst).Nodup) :
    (∀ x ∈ items, ∃ e, d'.get? x.1 = some e ∧ e.current = x.2) ∧
      ∀ q ∉ items.map Prod.fst, d'.get? q = d.get? q := by
  obtain ⟨hitems, hothers⟩ := h.get?_eq hn
  refine ⟨fun x hx => ⟨_, hitems x hx, ?_⟩, hothers⟩
  cases d.get? x.1 with
  | none => rfl
  | some e => rfl

/-- Writes add no other settings. -/
theorem Written.mem_or_exists {time : Instant} {id : Nat} {mask : Mask}
    {items : List (Path × Value)} {d d' : Directory}
    (h : Written time id mask items d d') {q : Path} {e : Entry}
    (he : d'.get? q = some e) :
    q ∈ items.map Prod.fst ∨ ∃ e, d.get? q = some e := by
  induction h with
  | nil d => exact Or.inr ⟨e, he⟩
  | @cons path value items d d' valid fits rest ih =>
    rcases ih he with hq | ⟨e', he'⟩
    · exact Or.inl (List.mem_cons_of_mem _ hq)
    · rw [get?_write valid.1] at he'
      split at he'
      · rename_i hq
        exact Or.inl (hq ▸ List.mem_cons_self)
      · exact Or.inr ⟨e', he'⟩

theorem Written.name {time : Instant} {id : Nat} {mask : Mask}
    {items : List (Path × Value)} {d d' : Directory}
    (h : Written time id mask items d d') : d'.name = d.name := by
  induction h with
  | nil d => rfl
  | @cons path value items d d' valid _ _ ih => rw [ih, write, name_put]

end Directory

open Directory

namespace Location

/-- The backends of a location are valid and none is there twice. -/
def HasSoundBackends (l : Location) : Prop :=
  l.backends.Nodup ∧ ∀ b ∈ l.backends, isValidBackend b

theorem HasSoundBackends.concat {l : Location} (h : l.HasSoundBackends)
    {backend : String} (hv : isValidBackend backend)
    (hnew : backend ∉ l.backends) :
    HasSoundBackends { l with backends := l.backends ++ [backend] } := by
  refine ⟨?_, ?_⟩
  · rw [← List.concat_eq_append]
    exact List.Nodup.concat hnew h.1
  · exact List.forall_mem_append.2 ⟨h.2, List.forall_mem_singleton.2 hv⟩

theorem HasSoundBackends.erase {l : Location} (h : l.HasSoundBackends)
    (backend : String) :
    HasSoundBackends { l with backends := l.backends.erase backend } :=
  ⟨h.1.erase backend, fun b hb => h.2 b (List.mem_of_mem_erase hb)⟩

theorem HasSoundBackends.ensure {l : Location} (h : l.HasSoundBackends)
    {backend : String} (hv : isValidBackend backend) :
    (l.ensureBackend backend).HasSoundBackends := by
  unfold ensureBackend
  split
  · exact h
  · rename_i hnew
    exact h.concat hv hnew

@[simp]
theorem id_ensureBackend (l : Location) (backend : String) :
    (l.ensureBackend backend).id = l.id := by
  unfold ensureBackend
  split <;> rfl

@[simp]
theorem parent_ensureBackend (l : Location) (backend : String) :
    (l.ensureBackend backend).parent = l.parent := by
  unfold ensureBackend
  split <;> rfl

@[simp]
theorem tree_ensureBackend (l : Location) (backend : String) :
    (l.ensureBackend backend).tree = l.tree := by
  unfold ensureBackend
  split <;> rfl

theorem mem_backends_ensureBackend (l : Location) (backend : String) :
    backend ∈ (l.ensureBackend backend).backends := by
  unfold ensureBackend
  split
  · assumption
  · exact List.mem_append_right _ List.mem_cons_self

end Location

namespace Snapshot

/-! ## The settings of a snapshot -/

open SettingsArchive.Path (IsAnchored)

mutual

/-- The settings of an element are named by anchored texts if it is. -/
theorem isAnchored_of_readChild {above : String} (ha : IsAnchored above)
    (e : Xml.Element) {items : List (String × Value)}
    (h : readChild above e = .ok items) : ∀ item ∈ items, IsAnchored item.1 := by
  obtain ⟨kind, attributes, children, text⟩ := e
  have hslash := Path.isAnchored_append ha "/"
  unfold readChild at h
  split at h
  · obtain ⟨name, hname, h⟩ := bind_eq_ok h
    simp only at h
    split at h
    · injection h with h
      intro item hitem
      rw [← h, List.mem_singleton] at hitem
      exact hitem ▸ Path.isAnchored_append hslash name
    · cases h
  · split at h
    · obtain ⟨name, hname, h⟩ := bind_eq_ok h
      exact isAnchored_of_readChildren (Path.isAnchored_append hslash name)
        children h
    · injection h with h
      simp [← h]

/-- The settings of elements are named by anchored texts if the element around
them is. -/
theorem isAnchored_of_readChildren {above : String} (ha : IsAnchored above)
    (es : List Xml.Element) {items : List (String × Value)}
    (h : readChildren above es = .ok items) :
    ∀ item ∈ items, IsAnchored item.1 := by
  cases es with
  | nil =>
    injection h with h
    simp [← h]
  | cons e es =>
    obtain ⟨first, hfirst, h⟩ := bind_eq_ok h
    obtain ⟨rest, hrest, h⟩ := bind_eq_ok h
    injection h with h
    intro item hitem
    rw [← h] at hitem
    rcases List.mem_append.1 hitem with hitem | hitem
    · exact isAnchored_of_readChild ha e hfirst item hitem
    · exact isAnchored_of_readChildren ha es hrest item hitem

end

theorem isAnchored_of_ofElement {root : Xml.Element} {backend : String}
    {items : List (String × Value)} (h : ofElement root backend = .ok items) :
    ∀ item ∈ items, IsAnchored item.1 := by
  unfold ofElement at h
  split at h
  · have hslash : IsAnchored ("/" ++ backend) :=
      Path.isAnchored_append ⟨[], rfl⟩ backend
    exact isAnchored_of_readChildren hslash _ h
  · cases h

/-- The texts of a snapshot spell each path in one way. -/
theorem spelledOnce_of_ofElement {root : Xml.Element} {backend : String}
    {items : List (String × Value)} (h : ofElement root backend = .ok items) :
    Path.SpelledOnce (items.map Prod.fst) :=
  Path.spelledOnce_of_anchored
    (List.forall_mem_map.2 (isAnchored_of_ofElement h))

end Snapshot

namespace Archive

/-! ## Loops of writes -/

/-- A setting and the text that names it. -/
def Names (item : String × Value) (placed : Path × Value) : Prop :=
  Path.ofText? item.1 = some placed.1 ∧ item.2 = placed.2

/-- Writing settings leaves the tree behind a first part of the writes, and
behind all of them if none was refused. -/
theorem writeAll_written (l : Location) (time : Instant) (id : Nat)
    (mask : Mask) (items : List (String × Value)) :
    ∃ done rest placed tree, items = done ++ rest ∧
      List.Forall₂ Names done placed ∧
      Written time id mask placed l.tree tree ∧
      (writeAll l time id mask items).2 = { l with tree } ∧
      ((writeAll l time id mask items).1 = .ok () → rest = []) := by
  induction items generalizing l with
  | nil => exact ⟨[], [], [], l.tree, rfl, .nil, .nil _, rfl, fun _ => rfl⟩
  | cons item items ih =>
    obtain ⟨t, value⟩ := item
    cases hs : l.tree.store t value time id mask with
    | error e =>
      refine ⟨[], (t, value) :: items, [], l.tree, rfl, .nil, .nil _, ?_, ?_⟩
      · simp only [writeAll, hs]
      · simp only [writeAll, hs]
        intro h
        cases h
    | ok tree =>
      obtain ⟨path, hpath, hfits, rfl⟩ := store_eq_ok_iff.1 hs
      obtain ⟨done, rest, placed, tree, rfl, hnames, hw, hl, hok⟩ :=
        ih { l with tree := l.tree.write path ⟨id, time, value, mask, false⟩ }
      refine ⟨(t, value) :: done, rest, (path, value) :: placed, tree, rfl,
        .cons ⟨hpath, rfl⟩ hnames,
        .cons (Path.isValid_of_ofText? hpath) hfits hw, ?_, ?_⟩
      · simp only [writeAll, hs]
        exact hl
      · simp only [writeAll, hs]
        exact hok

/-- Carrying out a plan leaves the tree behind a first part of its writes, and
behind all of them if none was refused. -/
theorem applyAll_written (l : Location) (hl : l.HasSoundBackends)
    (time : Instant) (id : Nat) (items : List (Path × Value))
    (hv : ∀ item ∈ items, item.1.IsValid) :
    ∃ done rest tree l', items = done ++ rest ∧
      Written time id .retire done l.tree tree ∧
      (applyAll l time id items).2 = l' ∧ l'.id = l.id ∧
      l'.parent = l.parent ∧ l'.tree = tree ∧ l'.HasSoundBackends ∧
      ((applyAll l time id items).1 = .ok () → rest = []) := by
  induction items generalizing l with
  | nil =>
    exact ⟨[], [], l.tree, l, rfl, .nil _, rfl, rfl, rfl, rfl, hl, fun _ => rfl⟩
  | cons item items ih =>
    obtain ⟨path, value⟩ := item
    have hpath := hv (path, value) List.mem_cons_self
    have hrest : ∀ item ∈ items, item.1.IsValid :=
      fun item hi => hv item (List.mem_cons_of_mem _ hi)
    have htext := Path.ofText?_text_of_isValid hpath
    cases hs : l.tree.store path.text value time id .retire with
    | error e =>
      refine ⟨[], (path, value) :: items, l.tree, l, rfl, .nil _, ?_, rfl, rfl,
        rfl, hl, ?_⟩
      · simp only [applyAll, hs]
      · simp only [applyAll, hs]
        intro h
        cases h
    | ok tree =>
      obtain ⟨p, hp, hfits, rfl⟩ := store_eq_ok_iff.1 hs
      rw [htext] at hp
      obtain rfl := Option.some.inj hp
      cases hb : Path.backendOf path.text with
      | error e =>
        -- The write before the refusal stays.
        refine ⟨[(path, value)], items,
          l.tree.write path ⟨id, time, value, .retire, false⟩,
          { l with
            tree := l.tree.write path ⟨id, time, value, .retire, false⟩ },
          rfl, .cons hpath hfits (.nil _), ?_, rfl, rfl, rfl, hl, ?_⟩
        · simp only [applyAll, hs, hb]
        · simp only [applyAll, hs, hb]
          intro h
          cases h
      | ok backend =>
        have hvalid := Path.isValidBackend_of_backendOf hb
        have hl : Location.HasSoundBackends { l with
            tree := l.tree.write path ⟨id, time, value, .retire, false⟩ } := hl
        obtain ⟨done, rest, tree, l', rfl, hw, hl', hid, hparent, htree, hsb,
          hok⟩ := ih _ (hl.ensure hvalid) hrest
        simp only [Location.id_ensureBackend, Location.parent_ensureBackend,
          Location.tree_ensureBackend] at hid hparent hw
        refine ⟨(path, value) :: done, rest, tree, l', rfl,
          .cons hpath hfits hw, ?_, hid, hparent, htree, hsb, ?_⟩
        · simp only [applyAll, hs, hb]
          exact hl'
        · simp only [applyAll, hs, hb]
          exact hok

/-! ## Operations on settings -/

variable {a b : Archive}

/-- The archive with one number used up. -/
def counted (a : Archive) : Archive :=
  { a with nextRevision := a.nextRevision + 1 }

theorem of_allocate {n : Nat} (h : a.allocate = .ok (n, b)) :
    n = a.nextRevision ∧ a.nextRevision < Numeral.maxWord ∧ b = a.counted := by
  unfold allocate at h
  split at h
  · rename_i hlt
    injection h with h
    obtain ⟨rfl, rfl⟩ := Prod.mk.inj h
    exact ⟨rfl, hlt, rfl⟩
  · cases h

theorem of_storeValue {id t : String} {value : Value} {time : Instant}
    {mask : Mask} {n : Nat}
    (h : a.storeValue id t value time mask = .ok (n, b)) :
    ∃ backend l path, Path.backendOf t = .ok backend ∧
      findLocation? a.locations id = some l ∧ Path.ofText? t = some path ∧
      l.tree.Fits path value time ∧ n = a.nextRevision ∧
      a.nextRevision < Numeral.maxWord ∧
      b = (a.counted.put (Location.ensureBackend { l with
        tree := l.tree.write path ⟨n, time, value, mask, false⟩ }
        backend)).changed := by
  obtain ⟨backend, hb, h⟩ := bind_eq_ok h
  obtain ⟨l, hl, h⟩ := bind_eq_ok h
  obtain ⟨⟨⟩, -, h⟩ := bind_eq_ok h
  obtain ⟨⟨n', a'⟩, ha, h⟩ := bind_eq_ok h
  obtain ⟨tree, hs, h⟩ := bind_eq_ok h
  injection h with h
  obtain ⟨rfl, hb'⟩ := Prod.mk.inj h
  obtain ⟨hn, hlt, rfl⟩ := of_allocate ha
  obtain ⟨path, hpath, hfits, rfl⟩ := store_eq_ok_iff.1 hs
  exact ⟨backend, l, path, hb, location_eq_ok_iff.1 hl, hpath, hfits, hn, hlt,
    hb'.symm⟩

/-- A value that fits is stored under the number of the next write, if there is
one. -/
theorem storeValue_eq {id t backend : String} {l : Location} {path : Path}
    {value : Value} {time : Instant} {mask : Mask}
    (hb : Path.backendOf t = .ok backend)
    (hl : findLocation? a.locations id = some l)
    (hpath : Path.ofText? t = some path) (hfits : l.tree.Fits path value time) :
    a.storeValue id t value time mask =
      if a.nextRevision < Numeral.maxWord then
        .ok (a.nextRevision, (a.counted.put (Location.ensureBackend { l with
          tree := l.tree.write path
            ⟨a.nextRevision, time, value, mask, false⟩ } backend)).changed)
      else .error .counterExhausted := by
  have hcheck := checkWrite_eq_ok_iff.2 ⟨path, hpath, hfits⟩
  have hstore : l.tree.store t value time a.nextRevision mask =
      .ok (l.tree.write path ⟨a.nextRevision, time, value, mask, false⟩) :=
    store_eq_ok_iff.2 ⟨path, hpath, hfits, rfl⟩
  by_cases hlt : a.nextRevision < Numeral.maxWord
  · simp only [storeValue, allocate, hb, location_eq_ok_iff.2 hl, bind,
      Except.bind, hcheck, if_pos hlt, hstore]
    rfl
  · simp only [storeValue, allocate, hb, location_eq_ok_iff.2 hl, bind,
      Except.bind, hcheck, if_neg hlt]

/-- The settings of a document that may be stored are named by different
texts, and each lies below the backend and can be written. -/
theorem of_checkItems {l : Location} {backend : String} {time : Instant}
    {seen : List String} {items : List (String × Value)}
    (h : checkItems l backend time seen items = .ok ()) :
    (items.map Prod.fst).Nodup ∧
      ∀ item ∈ items, item.1 ∉ seen ∧ Path.backendOf item.1 = .ok backend ∧
        l.tree.checkWrite item.1 item.2 time = .ok () := by
  induction items generalizing seen with
  | nil => simp
  | cons item items ih =>
    obtain ⟨t, value⟩ := item
    obtain ⟨⟨⟩, hitem, h⟩ := bind_eq_ok h
    obtain ⟨hn, hall⟩ := ih h
    obtain ⟨b, hb, hitem⟩ := bind_eq_ok hitem
    simp only [bind, Except.bind, throw, throwThe, MonadExceptOf.throw] at hitem
    split at hitem
    · cases hitem
    · rename_i hbackend
      split at hitem
      · cases hitem
      · rename_i hseen
        rw [not_not] at hbackend
        rw [List.map_cons, List.nodup_cons]
        refine ⟨⟨?_, hn⟩, ?_⟩
        · intro ht
          obtain ⟨other, hother, rfl⟩ := List.mem_map.1 ht
          exact (hall other hother).1 List.mem_cons_self
        · intro other hother
          rcases List.mem_cons.1 hother with rfl | hother
          · exact ⟨hseen, hbackend ▸ hb, hitem⟩
          · obtain ⟨hseen, hrest⟩ := hall other hother
            exact ⟨fun hmem => hseen (List.mem_cons_of_mem _ hmem), hrest⟩

theorem of_prepareDocument {id backend : String}
    {items : List (String × Value)} {time : Instant} {l : Location}
    {n : Option Nat}
    (h : a.prepareDocument id backend items time = .ok (l, n, b)) :
    Location.isValidBackend backend ∧
      findLocation? a.locations id = some l ∧
      checkItems l backend time [] items = .ok () ∧
      (items = [] ∧ n = none ∧ b = a ∨
        items ≠ [] ∧ n = some a.nextRevision ∧
          a.nextRevision < Numeral.maxWord ∧ b = a.counted) := by
  obtain ⟨⟨⟩, hbackend, h⟩ := bind_eq_ok h
  obtain ⟨m, hm, h⟩ := bind_eq_ok h
  obtain ⟨⟨⟩, hitems, h⟩ := bind_eq_ok h
  have hl := location_eq_ok_iff.1 hm
  have hvalid := Location.checkBackend_eq_ok_iff.1 hbackend
  split at h
  · rename_i hempty
    injection h with h
    simp only [Prod.mk.injEq] at h
    obtain ⟨rfl, rfl, rfl⟩ := h
    exact ⟨hvalid, hl, hitems, Or.inl ⟨by simpa using hempty, rfl, rfl⟩⟩
  · rename_i hne
    obtain ⟨⟨n', a'⟩, ha, h⟩ := bind_eq_ok h
    obtain ⟨rfl, hlt, rfl⟩ := of_allocate ha
    injection h with h
    simp only [Prod.mk.injEq] at h
    obtain ⟨rfl, rfl, rfl⟩ := h
    exact ⟨hvalid, hl, hitems,
      Or.inr ⟨by simpa using hne, rfl, hlt, rfl⟩⟩

/-- A document that was stored passed the checks, and all its settings were
written. -/
theorem prepared_of_storeDocument {id backend : String}
    {items : List (String × Value)} {time : Instant} {mask : Mask}
    {report : StoreReport}
    (h : a.storeDocument id backend items time mask = (.ok report, b)) :
    ∃ l number c placed tree,
      a.prepareDocument id backend items time = .ok (l, number, c) ∧
      List.Forall₂ Names items placed ∧
      Written time (number.getD 0) mask placed l.tree tree ∧
      report = ⟨id, backend, number, items.length⟩ ∧
      b = (c.put (Location.ensureBackend { l with tree } backend)).changed := by
  unfold storeDocument at h
  cases hp : a.prepareDocument id backend items time with
  | error e =>
    rw [hp] at h
    cases h
  | ok prepared =>
    obtain ⟨l, number, c⟩ := prepared
    obtain ⟨done, rest, placed, tree, hsplit, hnames, hw, hm, hdone⟩ :=
      writeAll_written l time (number.getD 0) mask items
    rw [hp] at h
    cases hr : writeAll l time (number.getD 0) mask items with
    | mk answer m =>
      rw [hr] at hm hdone
      simp only [hr] at h
      cases answer with
      | error e => cases (Prod.mk.inj h).1
      | ok =>
        obtain ⟨hreport, rfl⟩ := Prod.mk.inj h
        obtain rfl := hdone rfl
        rw [List.append_nil] at hsplit
        subst hsplit hm
        exact ⟨l, number, c, placed, tree, rfl, hnames, hw,
          (Except.ok.inj hreport).symm, rfl⟩

/-- A snapshot that was stored was read as a document that was stored. -/
theorem of_storeSnapshot {id backend text : String} {time : Instant}
    {mask : Mask} {report : StoreReport}
    (h : a.storeSnapshot id backend text time mask = (.ok report, b)) :
    ∃ root items, Xml.Element.read text = .ok root ∧
      Snapshot.ofElement root backend = .ok items ∧
      a.storeDocument id backend items time mask = (.ok report, b) := by
  unfold storeSnapshot at h
  cases hroot : Xml.Element.read text with
  | error e =>
    rw [hroot] at h
    cases h
  | ok root =>
    rw [hroot] at h
    simp only [Except.mapError] at h
    cases hitems : Snapshot.ofElement root backend with
    | error e =>
      rw [hitems] at h
      cases h
    | ok items =>
      rw [hitems] at h
      exact ⟨root, items, rfl, hitems, h⟩

theorem of_purge {id t : String} {found : Bool}
    (h : a.purge id t = .ok (found, b)) :
    b = a ∨ ∃ l path, findLocation? a.locations id = some l ∧
      Path.ofText? t = some path ∧
      b = (a.put { l with tree := l.tree.erase path }).changed := by
  obtain ⟨l, hl, h⟩ := bind_eq_ok h
  split at h
  · injection h with h
    exact Or.inl (Prod.mk.inj h).2.symm
  · rename_i path hpath
    split at h
    · injection h with h
      exact Or.inl (Prod.mk.inj h).2.symm
    · injection h with h
      exact Or.inr ⟨l, path, location_eq_ok_iff.1 hl, hpath,
        (Prod.mk.inj h).2.symm⟩

theorem of_trim {id : String} {kept count : Nat}
    (h : a.trim id kept = .ok (count, b)) :
    b = a ∨ ∃ l, findLocation? a.locations id = some l ∧
      b = (a.put { l with tree := l.tree.trim kept }).changed := by
  obtain ⟨l, hl, h⟩ := bind_eq_ok h
  simp only at h
  split at h
  · injection h with h
    exact Or.inl (Prod.mk.inj h).2.symm
  · injection h with h
    exact Or.inr ⟨l, location_eq_ok_iff.1 hl, (Prod.mk.inj h).2.symm⟩

end Archive

end SettingsArchive
