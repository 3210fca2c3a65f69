import SettingsArchive.Proofs.Keyed
import SettingsArchive.Proofs.Path

/-!
# Directories as maps

A tree of settings is a map from paths to entries, and `get?` is the view of
it.  This module says what every operation does to the view, so that later
proofs need not look at the layout of a tree.

* `Sound` is what all trees of this library have in common: in one directory no
  name repeats among the entries, nor among the directories, and every name is
  a segment.  Each operation keeps it.
* `mem_allEntries_iff` says that listing a sound tree lists the map.

`Proofs.Directory.Change` has the equations of the view for the operations that
change a tree, and `Proofs.Directory.FiniteMap` makes of them that a tree refines
a finite map.
-/

namespace SettingsArchive.Directory

open Keyed

/-! ## Sound trees -/

/-- In every directory the names are segments, no two entries share a name,
and no two directories do. -/
inductive Sound : Directory → Prop where
  | intro {name : String} {entries : List Entry} {directories : List Directory}
      (entryNames : (entries.map Entry.name).Nodup)
      (entrySegments : ∀ e ∈ entries, Path.isSegment e.name)
      (directoryNames : (directories.map Directory.name).Nodup)
      (directorySegments : ∀ d ∈ directories, Path.isSegment d.name)
      (children : ∀ d ∈ directories, Sound d) :
      Sound ⟨name, entries, directories⟩

namespace Sound

variable {d : Directory}

theorem entryNames (h : d.Sound) : (d.entries.map Entry.name).Nodup := by
  cases h
  assumption

theorem entrySegments (h : d.Sound) :
    ∀ e ∈ d.entries, Path.isSegment e.name := by
  cases h
  assumption

theorem directoryNames (h : d.Sound) :
    (d.directories.map Directory.name).Nodup := by
  cases h
  assumption

theorem directorySegments (h : d.Sound) :
    ∀ c ∈ d.directories, Path.isSegment c.name := by
  cases h
  assumption

theorem children (h : d.Sound) : ∀ c ∈ d.directories, c.Sound := by
  cases h
  assumption

theorem child (h : d.Sound) {name : String} {c : Directory}
    (hc : d.child? name = some c) : c.Sound :=
  h.children c (mem_of_find?_key Directory.name hc).1

end Sound

/-- A directory that holds nothing is sound. -/
theorem sound_empty (name : String) : Sound { name } :=
  ⟨by simp, by simp, by simp, by simp, by simp⟩

/-! ## The view -/

@[simp]
theorem get?_nil (d : Directory) : d.get? [] = none :=
  rfl

theorem get?_singleton (d : Directory) (name : String) :
    d.get? [name] = d.getOwn? name :=
  rfl

theorem get?_cons {d : Directory} {name : String} {path : Path}
    (h : path ≠ []) :
    d.get? (name :: path) = (d.child? name).bind (·.get? path) := by
  cases path with
  | nil => exact absurd rfl h
  | cons s path => rfl

/-- A directory that holds nothing has no setting. -/
@[simp]
theorem get?_empty (name : String) (path : Path) :
    get? { name } path = none := by
  cases path with
  | nil => rfl
  | cons s path =>
    cases path with
    | nil => rfl
    | cons t path => rfl

/-- A new entry at the end adds itself to the map. -/
theorem get?_concatEntry {d : Directory} {entry : Entry}
    (hnew : d.getOwn? entry.name = none) {path : Path} {e : Entry} :
    get? { d with entries := d.entries ++ [entry] } path = some e ↔
      d.get? path = some e ∨ path = [entry.name] ∧ e = entry := by
  match path with
  | [] => simp
  | [s] =>
    rw [get?_singleton, get?_singleton, getOwn?, getOwn?, List.find?_append,
      Option.or_eq_some_iff, List.find?_singleton]
    constructor
    · rintro (h | ⟨-, h⟩)
      · exact Or.inl h
      · split at h
        · rename_i hs
          have hs : entry.name = s := by simpa using hs
          exact Or.inr ⟨by rw [hs], (Option.some.inj h).symm⟩
        · cases h
    · rintro (h | ⟨h, rfl⟩)
      · exact Or.inl h
      · obtain rfl : s = e.name := by simpa using h
        exact Or.inr ⟨hnew, by simp⟩
  | s :: t :: path => exact (or_iff_left (by simp)).symm

/-- A new directory at the end adds its own map below its name. -/
theorem get?_concatDirectory {d child : Directory}
    (hnew : d.child? child.name = none) {path : Path} {e : Entry} :
    get? { d with directories := d.directories ++ [child] } path = some e ↔
      d.get? path = some e ∨
        ∃ rest, path = child.name :: rest ∧ child.get? rest = some e := by
  match path with
  | [] => simp
  | [s] =>
    refine (or_iff_left ?_).symm
    rintro ⟨rest, h, hrest⟩
    obtain rfl : rest = [] := (List.cons.inj h).2.symm
    simp at hrest
  | s :: t :: path =>
    rw [get?_cons (by simp), get?_cons (by simp), child?, List.find?_append,
      ← child?]
    by_cases hname : child.name = s
    · simp [← hname, hnew]
    · have hnot : ¬ ∃ rest, s :: t :: path = child.name :: rest ∧
          child.get? rest = some e := by
        rintro ⟨rest, h, -⟩
        exact hname (List.cons.inj h).1.symm
      rw [or_iff_left hnot, List.find?_singleton, if_neg (by simpa using hname),
        Option.or_none]

/-- An entry is found under its own name. -/
theorem name_of_get? {d : Directory} {path : Path} {e : Entry}
    (h : d.get? path = some e) : path.getLast? = some e.name := by
  induction path generalizing d with
  | nil => simp at h
  | cons s path ih =>
    cases path with
    | nil => simp [(mem_of_find?_key Entry.name h).2]
    | cons t path =>
      rw [get?_cons (by simp)] at h
      obtain ⟨c, -, hc⟩ := Option.bind_eq_some_iff.1 h
      rw [List.getLast?_cons_cons]
      exact ih hc

/-- In a sound tree every setting has a valid path. -/
theorem Sound.isValid_of_get? {d : Directory} (h : d.Sound) {path : Path}
    {e : Entry} (hget : d.get? path = some e) : path.IsValid := by
  induction path generalizing d with
  | nil => simp at hget
  | cons s path ih =>
    cases path with
    | nil =>
      obtain ⟨hmem, hname⟩ := mem_of_find?_key Entry.name hget
      exact Path.isValid_singleton (hname ▸ h.entrySegments e hmem)
    | cons t path =>
      rw [get?_cons (by simp)] at hget
      obtain ⟨c, hc, hget⟩ := Option.bind_eq_some_iff.1 hget
      obtain ⟨hmem, hname⟩ := mem_of_find?_key Directory.name hc
      have hv := ih (h.children c hmem) hget
      refine ⟨by simp, ?_⟩
      intro u hu
      rcases List.mem_cons.1 hu with rfl | hu
      · exact hname ▸ h.directorySegments c hmem
      · exact hv.2 u hu

/-! ## Listing -/

theorem mem_entriesOfAll_iff {above : Path} {ds : List Directory}
    {x : Path × Entry} :
    x ∈ entriesOfAll above ds ↔
      ∃ d ∈ ds, x ∈ entriesBelow (above ++ [d.name]) d := by
  induction ds with
  | nil => simp [entriesOfAll]
  | cons d ds ih =>
    rw [entriesOfAll, List.mem_append, ih]
    simp

theorem mem_entriesBelow_iff_or {above : Path} {d : Directory}
    {x : Path × Entry} :
    x ∈ entriesBelow above d ↔
      (∃ e ∈ d.entries, (above ++ [e.name], e) = x) ∨
        ∃ c ∈ d.directories, x ∈ entriesBelow (above ++ [c.name]) c := by
  obtain ⟨name, entries, directories⟩ := d
  rw [entriesBelow, List.mem_append, mem_entriesOfAll_iff, List.mem_map]

/-- What is listed below a directory is what the view has there. -/
theorem Sound.mem_entriesBelow_iff {d : Directory} (h : d.Sound) {above : Path}
    {x : Path × Entry} :
    x ∈ entriesBelow above d ↔
      ∃ path, x.1 = above ++ path ∧ d.get? path = some x.2 := by
  induction h generalizing above x with
  | @intro name entries directories hen hes hdn hds hb ih =>
    rw [mem_entriesBelow_iff_or]
    constructor
    · rintro (⟨e, he, rfl⟩ | ⟨c, hc, hx⟩)
      · exact ⟨[e.name], rfl, find?_key_of_mem hen he⟩
      · obtain ⟨path, hpath, hget⟩ := (ih c hc).1 hx
        have hne : path ≠ [] := by
          rintro rfl
          simp at hget
        refine ⟨c.name :: path, by simpa using hpath, ?_⟩
        have hchild : child? ⟨name, entries, directories⟩ c.name = some c :=
          find?_key_of_mem hdn hc
        rw [get?_cons hne, hchild]
        exact hget
    · rintro ⟨path, hpath, hget⟩
      match path, hget with
      | [s], hget =>
        obtain ⟨hmem, hname⟩ := mem_of_find?_key Entry.name hget
        exact Or.inl ⟨x.2, hmem, Prod.ext (by rw [hpath, hname]) rfl⟩
      | s :: t :: path, hget =>
        rw [get?_cons (by simp)] at hget
        obtain ⟨c, hc, hget⟩ := Option.bind_eq_some_iff.1 hget
        obtain ⟨hmem, hname⟩ := mem_of_find?_key Directory.name hc
        refine Or.inr ⟨c, hmem, (ih c hmem).2 ⟨t :: path, ?_, hget⟩⟩
        rw [hpath, hname]
        simp

/-- Listing a sound tree lists the map that it is. -/
theorem Sound.mem_allEntries_iff {d : Directory} (h : d.Sound)
    {x : Path × Entry} : x ∈ d.allEntries ↔ d.get? x.1 = some x.2 := by
  rw [allEntries, h.mem_entriesBelow_iff]
  simp

end SettingsArchive.Directory
