import SettingsArchive.Proofs.Directory.Listing
import SettingsArchive.Proofs.Loading
import Mathlib.Data.Finmap

/-!
# Trees as finite maps

A tree of settings behaves as a finite map from paths to entries.  `Settings`
is the type of these maps, and `Directory.settings` is the map of a tree.

* `Directory.Change` is a call that changes a tree.  `Directory.perform` is what
  it does to a tree, and `Settings.perform` is what it does to a map.
* `Directory.Represents` ties a sound tree to its map.  Every change keeps it
  (`Represents.perform`), and so does every run (`Represents.run`).
* `Directory.Shows` is what is seen of a map in a tree: the entries that texts
  name, the listings of all directories and the count of entries.
* `Directory.Refines` adds what the calls answer and what they leave behind.

`Directory.refines_of_run` is the result.  Behind every run of changes, from the
empty tree or from that of a location that was read, the tree refines the map
that the same run leads to.
-/

namespace SettingsArchive

/-- A finite map from paths to entries. -/
abbrev Settings := Finmap fun _ : Path => Entry

namespace Directory

/-! ## Calls -/

/-- The entry that a text names. -/
def lookup (d : Directory) (t : String) : Option Entry :=
  (Path.ofText? t).bind d.get?

/-- The entry that a text names, and the tree without it. -/
def purge (d : Directory) (t : String) : Option Entry × Directory :=
  match Path.ofText? t with
  | none => (none, d)
  | some path => (d.get? path, d.erase path)

/-- A call that changes a tree. -/
inductive Change where
  | store (t : String) (value : Value) (time : Instant) (id : Nat)
      (mask : Mask)
  | purge (t : String)
  | prune
  | trim (kept : Nat)

/-- The tree that a change leaves behind, carried out or refused. -/
def perform (d : Directory) : Change → Directory
  | .store t value time id mask =>
    match d.store t value time id mask with
    | .ok d' => d'
    | .error _ => d
  | .purge t => (d.purge t).2
  | .prune => d.prune
  | .trim kept => d.trim kept

/-- The tree that changes leave behind, one after the other. -/
def run (d : Directory) (changes : List Change) : Directory :=
  changes.foldl perform d

/-- A tree in the beginning: the empty one, or that of a location that was
read. -/
inductive IsStart : Directory → Prop where
  | empty : IsStart .empty
  | read {before : List Location} {e : Xml.Element} {l : Location}
      (h : Contents.readLocation before e = .ok l) : IsStart l.tree

theorem IsStart.sound {d : Directory} (h : IsStart d) : d.Sound := by
  cases h with
  | empty => exact sound_empty ""
  | read h => exact (Contents.of_readLocation h).1.isSound.tree

end Directory

/-- A location looks a text up in its tree. -/
theorem Location.lookup_eq (l : Location) (t : String) :
    l.lookup t = l.tree.lookup t :=
  rfl

/-- An archive purges a setting from the tree of its location. -/
theorem Archive.purge_eq (a : Archive) (id t : String) :
    a.purge id t = (a.location id).bind fun l =>
      match l.tree.purge t with
      | (none, _) => .ok (false, a)
      | (some _, tree) => .ok (true, (a.put { l with tree }).changed) := by
  unfold Archive.purge Directory.purge
  cases a.location id with
  | error e => rfl
  | ok l =>
    simp only [bind, Except.bind]
    cases Path.ofText? t with
    | none => rfl
    | some path =>
      cases hget : l.tree.get? path with
      | none => simp [hget, pure, Except.pure]
      | some e => simp [hget, pure, Except.pure]

/-! ## Changes of maps -/

namespace Settings

variable {m : Settings}

/-- Whether the entry of a path can take a value at an instant. -/
def Fits (m : Settings) (path : Path) (value : Value) (time : Instant) : Prop :=
  ∀ e, m.lookup path = some e → e.kind = value.kind ∧ e.head.time ≤ time

instance (m : Settings) (path : Path) (value : Value) (time : Instant) :
    Decidable (m.Fits path value time) :=
  match h : m.lookup path with
  | none => isTrue fun _ he => nomatch h.symm.trans he
  | some e =>
    decidable_of_iff (e.kind = value.kind ∧ e.head.time ≤ time)
      ⟨fun hfits _ he => Option.some.inj (h.symm.trans he) ▸ hfits,
        fun hfits => hfits e h⟩

/-- The map with a revision of the setting of a path. -/
def write (m : Settings) (path : Path) (r : Revision) : Settings :=
  m.insert path (Directory.appended (path.getLastD "") r (m.lookup path))

/-- The map with every entry changed. -/
def mapEntries (f : Entry → Entry) (m : Settings) : Settings where
  entries := m.entries.map (Sigma.map id fun _ => f)
  nodupKeys := by
    rw [← Multiset.nodup_keys, Multiset.keys, Multiset.map_map]
    exact Multiset.nodup_keys.2 m.nodupKeys

/-- Every entry is changed where it is. -/
theorem lookup_mapEntries (f : Entry → Entry) (m : Settings) (path : Path) :
    (m.mapEntries f).lookup path = (m.lookup path).map f := by
  induction m using Finmap.induction_on with
  | H l => exact List.dlookup_map₂ path

/-- The map that a change leaves behind, carried out or refused. -/
def perform (m : Settings) : Directory.Change → Settings
  | .store t value time id mask =>
    match Path.ofText? t with
    | none => m
    | some path =>
      if m.Fits path value time then m.write path ⟨id, time, value, mask, false⟩
      else m
  | .purge t =>
    match Path.ofText? t with
    | none => m
    | some path => m.erase path
  | .prune => m
  | .trim kept => m.mapEntries (·.trim kept)

/-- The map that changes leave behind, one after the other. -/
def run (m : Settings) (changes : List Directory.Change) : Settings :=
  changes.foldl perform m

end Settings

namespace Directory

variable {d : Directory} {m : Settings}

/-! ## Trees and their maps -/

/-- The map of a tree. -/
def settings (d : Directory) : Settings :=
  (d.allEntries.map fun x => ⟨x.1, x.2⟩).toFinmap

/-- A sound tree has the entries of a map at their paths. -/
structure Represents (d : Directory) (m : Settings) : Prop where
  sound : d.Sound
  lookup : ∀ path, m.lookup path = d.get? path

/-- A sound tree represents its map. -/
theorem Sound.represents (h : d.Sound) : d.Represents d.settings where
  sound := h
  lookup path := by
    have hnodup : (d.allEntries.map fun x =>
        (⟨x.1, x.2⟩ : Σ _ : Path, Entry)).NodupKeys := by
      rw [List.NodupKeys, List.keys, List.map_map]
      exact h.nodup_paths []
    ext e
    rw [settings, Finmap.dlookup_list_toFinmap, ← Option.mem_def,
      List.mem_dlookup_iff hnodup, ← h.mem_allEntries_iff (x := (path, e)),
      List.mem_map]
    constructor
    · rintro ⟨x, hx, heq⟩
      cases heq
      exact hx
    · exact fun hx => ⟨_, hx, rfl⟩

namespace Represents

theorem fits_iff (h : d.Represents m) {path : Path} {value : Value}
    {time : Instant} : m.Fits path value time ↔ d.Fits path value time := by
  rw [Settings.Fits, Directory.Fits, h.lookup]

theorem write (h : d.Represents m) {path : Path} (hv : path.IsValid)
    (r : Revision) : (d.write path r).Represents (m.write path r) where
  sound := h.sound.write hv r
  lookup q := by
    rw [get?_write hv.1, Settings.write, h.lookup]
    split
    · rename_i hq
      rw [hq, Finmap.lookup_insert]
    · rename_i hq
      rw [Finmap.lookup_insert_of_ne _ hq, h.lookup]

theorem erase (h : d.Represents m) (path : Path) :
    (d.erase path).Represents (m.erase path) where
  sound := h.sound.erase path
  lookup q := by
    rw [h.sound.get?_erase]
    split
    · rename_i hq
      rw [hq, Finmap.lookup_erase]
    · rename_i hq
      rw [Finmap.lookup_erase_ne hq, h.lookup]

theorem prune (h : d.Represents m) : d.prune.Represents m where
  sound := h.sound.prune
  lookup q := by rw [h.sound.get?_prune, h.lookup]

theorem trim (h : d.Represents m) (kept : Nat) :
    (d.trim kept).Represents (m.mapEntries (·.trim kept)) where
  sound := h.sound.trim kept
  lookup q := by rw [get?_trim, Settings.lookup_mapEntries, h.lookup]

/-- Every change does to the tree what it does to the map. -/
theorem perform (h : d.Represents m) (c : Change) :
    (d.perform c).Represents (m.perform c) := by
  cases c with
  | store t value time id mask =>
    rw [Directory.perform, Settings.perform]
    cases hstore : d.store t value time id mask with
    | ok d' =>
      obtain ⟨path, hpath, hfits, rfl⟩ := store_eq_ok_iff.1 hstore
      simp only [hpath, if_pos (h.fits_iff.2 hfits)]
      exact h.write (Path.isValid_of_ofText? hpath) _
    | error e =>
      cases hpath : Path.ofText? t with
      | none => exact h
      | some path =>
        have hnot := not_fits_of_store hstore hpath
        simpa only [if_neg (mt h.fits_iff.1 hnot)] using h
  | purge t =>
    rw [Directory.perform, Directory.purge, Settings.perform]
    cases Path.ofText? t with
    | none => exact h
    | some path => exact h.erase path
  | prune => exact h.prune
  | trim kept => exact h.trim kept

/-- A run does to the tree what it does to the map. -/
theorem run (h : d.Represents m) (changes : List Change) :
    (d.run changes).Represents (m.run changes) := by
  induction changes generalizing d m with
  | nil => exact h
  | cons c changes ih => exact ih (h.perform c)

end Represents

/-! ## What is seen of a map -/

/-- What is seen of a map in a tree.  Its paths are valid, a text names the
entry of its path, each directory lists the paths below it, every one once and
with a slash and its segments for text, and the entries are counted. -/
structure Shows (d : Directory) (m : Settings) : Prop where
  valid : ∀ path ∈ m, path.IsValid
  named : ∀ t, d.lookup t = (Path.ofText? t).bind fun path => m.lookup path
  listed : ∀ above c, d.find? above = some c →
    ((c.entriesUnder above).map Prod.fst).Nodup ∧
      ∀ t e, (t, e) ∈ c.entriesUnder above ↔
        ∃ rest, rest ≠ [] ∧ m.lookup (above ++ rest) = some e ∧
          t = "/" ++ "/".intercalate (above ++ rest)
  counted : d.entryCount = m.keys.card

/-- The keys of a map are the paths that its tree lists. -/
theorem Represents.keys_eq (h : d.Represents m) :
    m.keys = (d.allEntries.map Prod.fst).toFinset := by
  ext path
  rw [Finmap.mem_keys, ← Finmap.lookup_isSome, h.lookup, List.mem_toFinset,
    List.mem_map, Option.isSome_iff_exists]
  constructor
  · rintro ⟨e, he⟩
    exact ⟨(path, e), h.sound.mem_allEntries_iff.2 he, rfl⟩
  · rintro ⟨x, hx, rfl⟩
    exact ⟨x.2, h.sound.mem_allEntries_iff.1 hx⟩

theorem Represents.shows (h : d.Represents m) : d.Shows m where
  valid path hpath := by
    obtain ⟨e, he⟩ := Finmap.mem_iff.1 hpath
    exact h.sound.isValid_of_get? (h.lookup path ▸ he)
  named t := by
    rw [Directory.lookup]
    exact congrArg _ (funext fun path => (h.lookup path).symm)
  listed above c hc := by
    obtain ⟨hsound, hsegments⟩ := h.sound.of_find? hc
    refine ⟨hsound.nodup_texts hsegments, fun t e => ?_⟩
    rw [hsound.mem_entriesUnder_iff hsegments]
    refine exists_congr fun rest => ?_
    constructor
    · rintro ⟨hget, rfl⟩
      have hrest : rest ≠ [] := (hsound.isValid_of_get? hget).1
      exact ⟨hrest, by rw [h.lookup, get?_append hc hrest, hget],
        Path.text_eq _⟩
    · rintro ⟨hrest, hget, rfl⟩
      rw [h.lookup, get?_append hc hrest] at hget
      exact ⟨hget, (Path.text_eq _).symm⟩
  counted := by
    rw [h.keys_eq, allEntries,
      List.toFinset_card_of_nodup (h.sound.nodup_paths []), List.length_map,
      length_entriesBelow]

/-! ## The refinement -/

/-- A tree refines a map.  Beside what is seen of the map in the tree, the calls
answer from the map, and what they leave behind shows the changed map. -/
structure Refines (d : Directory) (m : Settings) : Prop extends Shows d m where
  accepts : ∀ t value time id mask,
    (∃ d', d.store t value time id mask = .ok d') ↔
      ∃ path, Path.ofText? t = some path ∧ m.Fits path value time
  stored : ∀ t value time id mask d', d.store t value time id mask = .ok d' →
    ∃ path, Path.ofText? t = some path ∧
      d'.Shows (m.write path ⟨id, time, value, mask, false⟩)
  refused : ∀ t value time id mask e, d.store t value time id mask = .error e →
    d.perform (.store t value time id mask) = d
  purged : ∀ t path, Path.ofText? t = some path →
    (d.purge t).1 = m.lookup path ∧ (d.purge t).2.Shows (m.erase path)
  unnamed : ∀ t, Path.ofText? t = none → d.purge t = (none, d)
  pruned : d.prune.Shows m
  trimmed : ∀ kept, (d.trim kept).Shows (m.mapEntries (·.trim kept))

theorem Represents.refines (h : d.Represents m) : d.Refines m where
  toShows := h.shows
  accepts t value time id mask := by
    constructor
    · rintro ⟨d', hstore⟩
      obtain ⟨path, hpath, hfits, -⟩ := store_eq_ok_iff.1 hstore
      exact ⟨path, hpath, h.fits_iff.2 hfits⟩
    · rintro ⟨path, hpath, hfits⟩
      exact ⟨_, store_eq_ok_iff.2 ⟨path, hpath, h.fits_iff.1 hfits, rfl⟩⟩
  stored t value time id mask d' hstore := by
    obtain ⟨path, hpath, -, rfl⟩ := store_eq_ok_iff.1 hstore
    exact ⟨path, hpath, (h.write (Path.isValid_of_ofText? hpath) _).shows⟩
  refused t value time id mask e hstore := by
    rw [Directory.perform, hstore]
  purged t path hpath := by
    rw [Directory.purge, hpath]
    exact ⟨(h.lookup path).symm, (h.erase path).shows⟩
  unnamed t ht := by
    rw [Directory.purge, ht]
  pruned := h.prune.shows
  trimmed kept := (h.trim kept).shows

/-- Behind every run of changes a tree refines the map that the same run leads
to. -/
theorem refines_of_run {start : Directory} (h : IsStart start)
    (changes : List Change) :
    (start.run changes).Refines (start.settings.run changes) :=
  (h.sound.represents.run changes).refines

/-- An entry and a directory of one name are read.  The entry is purged, and
the setting in the directory goes on. -/
theorem refines_of_shared_name :
    let stored := Directory.empty.run
      [.store "/a" (.int 1) (.ofSecond 5) 1 .retire,
        .store "/a/b" (.int 2) (.ofSecond 5) 2 .retire]
    let changes := [Change.purge "/a",
      .store "a/b" (.int 3) (.ofSecond 6) 3 .retire, .prune]
    ∃ l, Contents.readLocation []
        (Contents.locationElement { id := "default", tree := stored }) = .ok l ∧
      (l.tree.run changes).Refines (l.tree.settings.run changes) ∧
      (l.tree.settings.run changes).lookup ["a"] = none ∧
      ((l.tree.settings.run changes).lookup ["a", "b"]).map
        (fun e => e.revisions.map Revision.id) = some [2, 3] := by
  intro stored changes
  have hread : (Contents.readLocation [] (Contents.locationElement
      { id := "default", tree := stored })).toOption.map (fun l =>
        (((l.tree.run changes).lookup "/a").isNone,
          ((l.tree.run changes).lookup "/a/b").map fun e =>
            e.revisions.map Revision.id)) = some (true, some [2, 3]) := by
    decide +kernel
  obtain ⟨l, hl, hshown⟩ := exists_ok_of_map_toOption hread
  have hrefines := refines_of_run (.read hl) changes
  have ha : Path.ofText? "/a" = some ["a"] := by decide
  have hb : Path.ofText? "/a/b" = some ["a", "b"] := by decide
  rw [hrefines.named, ha, hrefines.named, hb, Prod.mk.injEq] at hshown
  exact ⟨l, hl, hrefines, Option.isNone_iff_eq_none.1 hshown.1, hshown.2⟩

end Directory

end SettingsArchive
