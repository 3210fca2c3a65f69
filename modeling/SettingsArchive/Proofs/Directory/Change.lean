import SettingsArchive.Proofs.Directory

/-!
# Changes of directories

Every operation that changes a tree is an equation of its view: `get?_put`,
`get?_erase`, `get?_trim` and `get?_prune`.  Each of them keeps a tree sound.

A setting is put or erased by following its path.  The lists on the way are
changed at the first element of a name, so the first lemmas are about such
lists.
-/

namespace SettingsArchive.Directory

open Keyed

/-! ## Putting -/

section Lists

variable {name : String}

theorem find?_putEntry {change : Option Entry → Entry} {es : List Entry}
    (hname : ∀ o : Option Entry, (∀ e ∈ o, e.name = name) →
      (change o).name = name) (k : String) :
    (putEntry name change es).find? (·.name == k) =
      if k = name then some (change (es.find? (·.name == name)))
      else es.find? (·.name == k) := by
  induction es with
  | nil =>
    have hn := hname none (by simp)
    rw [putEntry]
    by_cases hk : k = name
    · simp [hk, hn]
    · simp [hk, hn, Ne.symm hk]
  | cons e es ih =>
    rw [putEntry]
    by_cases he : e.name = name
    · have hn := hname (some e) (by simp [he])
      rw [if_pos he]
      by_cases hk : k = name
      · simp [hk, hn, he]
      · simp [hk, hn, he, Ne.symm hk]
    · rw [if_neg he]
      by_cases hk : e.name = k
      · have hkn : k ≠ name := hk ▸ he
        simp [hk, hkn]
      · simp [hk, ih, he]

theorem map_name_putEntry {change : Option Entry → Entry}
    (hname : ∀ o : Option Entry, (∀ e ∈ o, e.name = name) →
      (change o).name = name) (es : List Entry) :
    (putEntry name change es).map Entry.name =
      if name ∈ es.map Entry.name then es.map Entry.name
      else es.map Entry.name ++ [name] := by
  induction es with
  | nil => simp [putEntry, hname none (by simp)]
  | cons e es ih =>
    rw [putEntry]
    by_cases he : e.name = name
    · simp [he, hname (some e) (by simp [he])]
    · rw [if_neg he, List.map_cons, ih]
      by_cases hm : name ∈ es.map Entry.name
      · simp [hm]
      · simp [hm, Ne.symm he]

theorem find?_putChild {change : Directory → Directory} {ds : List Directory}
    (hname : ∀ d, (change d).name = d.name) (k : String) :
    (putChild name change ds).find? (·.name == k) =
      if k = name then
        some (change ((ds.find? (·.name == name)).getD { name }))
      else ds.find? (·.name == k) := by
  induction ds with
  | nil =>
    rw [putChild]
    by_cases hk : k = name
    · simp [hk, hname]
    · simp [hk, hname, Ne.symm hk]
  | cons d ds ih =>
    rw [putChild]
    by_cases hd : d.name = name
    · rw [if_pos hd]
      by_cases hk : k = name
      · simp [hk, hname, hd]
      · simp [hk, hname, hd, Ne.symm hk]
    · rw [if_neg hd]
      by_cases hk : d.name = k
      · have hkn : k ≠ name := hk ▸ hd
        simp [hk, hkn]
      · simp [hk, ih, hd]

theorem map_name_putChild {change : Directory → Directory}
    {ds : List Directory} (hname : ∀ d, (change d).name = d.name) :
    (putChild name change ds).map Directory.name =
      if name ∈ ds.map Directory.name then ds.map Directory.name
      else ds.map Directory.name ++ [name] := by
  induction ds with
  | nil => simp [putChild, hname]
  | cons d ds ih =>
    rw [putChild]
    by_cases hd : d.name = name
    · simp [hd, hname]
    · rw [if_neg hd, List.map_cons, ih]
      by_cases hm : name ∈ ds.map Directory.name
      · simp [hm]
      · simp [hm, Ne.symm hd]

/-- A directory that putting leaves is an old one, or the changed one. -/
theorem mem_putChild {change : Directory → Directory} {ds : List Directory}
    {c : Directory} (h : c ∈ putChild name change ds) :
    c ∈ ds ∨ c = change { name } ∨ ∃ d ∈ ds, d.name = name ∧ c = change d := by
  induction ds with
  | nil =>
    rw [putChild, List.mem_singleton] at h
    exact Or.inr (Or.inl h)
  | cons d ds ih =>
    rw [putChild] at h
    split at h
    · rename_i hd
      rcases List.mem_cons.1 h with rfl | h
      · exact Or.inr (Or.inr ⟨d, by simp, hd, rfl⟩)
      · exact Or.inl (List.mem_cons_of_mem _ h)
    · rcases List.mem_cons.1 h with rfl | h
      · exact Or.inl List.mem_cons_self
      · rcases ih h with h | h | ⟨d', hd', h⟩
        · exact Or.inl (List.mem_cons_of_mem _ h)
        · exact Or.inr (Or.inl h)
        · exact Or.inr (Or.inr ⟨d', List.mem_cons_of_mem _ hd', h⟩)

end Lists

/-- A list without repetitions stays so when a new element is added. -/
theorem nodup_insert_last {xs : List String} (h : xs.Nodup) (x : String) :
    (if x ∈ xs then xs else xs ++ [x]).Nodup := by
  split
  · exact h
  · rename_i hx
    rw [← List.concat_eq_append]
    exact List.Nodup.concat hx h

@[simp]
theorem name_put (change : Option Entry → Entry) (path : Path)
    (d : Directory) : (put change path d).name = d.name := by
  cases path with
  | nil => rfl
  | cons s path =>
    cases path with
    | nil => rfl
    | cons t path => rfl

theorem put_cons {change : Option Entry → Entry} {s : String} {path : Path}
    (h : path ≠ []) (d : Directory) :
    put change (s :: path) d =
      { d with directories := putChild s (put change path) d.directories } := by
  cases path with
  | nil => exact absurd rfl h
  | cons t path => rfl

/-- Putting changes the view at the path that it is for and nowhere else. -/
theorem get?_put {change : Option Entry → Entry} {path : Path}
    {name : String} (hpath : path.getLast? = some name)
    (hname : ∀ o : Option Entry, (∀ e ∈ o, e.name = name) →
      (change o).name = name) (d : Directory) (q : Path) :
    (put change path d).get? q =
      if q = path then some (change (d.get? path)) else d.get? q := by
  induction path generalizing d q with
  | nil => simp at hpath
  | cons s path ih =>
    by_cases hne : path = []
    · subst hne
      obtain rfl : s = name := by simpa using hpath
      match q with
      | [] => simp
      | [t] =>
        rw [get?_singleton, get?_singleton]
        exact (find?_putEntry hname t).trans (by simp [get?_singleton, getOwn?])
      | t :: u :: q =>
        rw [if_neg (by simp)]
        rfl
    · have hlast := Path.getLast?_tail hne hpath
      rw [put_cons hne]
      match q with
      | [] => simp
      | [t] =>
        rw [if_neg (by simpa using fun _ => Ne.symm hne)]
        rfl
      | t :: u :: q =>
        have hq : u :: q ≠ [] := by simp
        rw [get?_cons hq, get?_cons hq, get?_cons hne, child?,
          find?_putChild (name_put change path)]
        by_cases hts : t = s
        · subst hts
          rw [if_pos rfl, Option.bind_some, ih hlast, child?]
          cases d.directories.find? (·.name == t) with
          | none => simp
          | some c => simp
        · rw [if_neg hts, if_neg (by simp [hts]), child?]

/-- Putting an entry keeps a tree sound. -/
theorem Sound.put {change : Option Entry → Entry} {path : Path}
    {name : String} (hpath : path.getLast? = some name) (hv : path.IsValid)
    (hname : ∀ o : Option Entry, (∀ e ∈ o, e.name = name) →
      (change o).name = name) {d : Directory} (h : d.Sound) :
    (Directory.put change path d).Sound := by
  induction path generalizing d with
  | nil => simp at hpath
  | cons s path ih =>
    by_cases hne : path = []
    · subst hne
      obtain rfl : s = name := by simpa using hpath
      have hnames := map_name_putEntry hname d.entries
      refine ⟨?_, ?_, h.directoryNames, h.directorySegments, h.children⟩
      · rw [hnames]
        exact nodup_insert_last h.entryNames s
      · intro e he
        have hmem : e.name ∈ (putEntry s change d.entries).map Entry.name :=
          List.mem_map_of_mem he
        rw [hnames] at hmem
        have hor : e.name ∈ d.entries.map Entry.name ∨ e.name = s := by
          split at hmem
          · exact Or.inl hmem
          · simpa [or_comm] using hmem
        rcases hor with hold | hnew
        · obtain ⟨e', he', hn⟩ := List.mem_map.1 hold
          exact hn ▸ h.entrySegments e' he'
        · rw [hnew]
          exact hv.head
    · have hlast := Path.getLast?_tail hne hpath
      have hbelow : ∀ c, c.Sound → (Directory.put change path c).Sound :=
        fun c hc => ih hlast (hv.tail hne) hc
      rw [put_cons hne]
      refine ⟨h.entryNames, h.entrySegments, ?_, ?_, ?_⟩
      · rw [map_name_putChild (name_put change path)]
        exact nodup_insert_last h.directoryNames s
      · intro c hc
        rcases mem_putChild hc with hc | rfl | ⟨d', hd', -, rfl⟩
        · exact h.directorySegments c hc
        · rw [name_put]
          exact hv.head
        · rw [name_put]
          exact h.directorySegments d' hd'
      · intro c hc
        rcases mem_putChild hc with hc | rfl | ⟨d', hd', -, rfl⟩
        · exact h.children c hc
        · exact hbelow _ (sound_empty s)
        · exact hbelow d' (h.children d' hd')

/-! ## Erasing -/

section Lists

variable {name : String}

theorem find?_eraseEntry {es : List Entry} (hn : (es.map Entry.name).Nodup)
    (k : String) :
    (eraseEntry name es).find? (·.name == k) =
      if k = name then none else es.find? (·.name == k) := by
  induction es with
  | nil => simp [eraseEntry]
  | cons e es ih =>
    rw [List.map_cons, List.nodup_cons] at hn
    rw [eraseEntry]
    by_cases he : e.name = name
    · rw [if_pos he]
      by_cases hk : k = name
      · rw [if_pos hk, find?_key_eq_none_iff, hk, ← he]
        exact hn.1
      · have hek : e.name ≠ k := fun h => hk (h ▸ he)
        simp [hk, hek]
    · rw [if_neg he]
      by_cases hk : e.name = k
      · have hkn : k ≠ name := hk ▸ he
        simp [hk, hkn]
      · simp [hk, ih hn.2]

theorem eraseEntry_sublist (name : String) (es : List Entry) :
    (eraseEntry name es).Sublist es := by
  induction es with
  | nil => exact List.Sublist.refl _
  | cons e es ih =>
    rw [eraseEntry]
    split
    · exact List.sublist_cons_self e es
    · exact ih.cons_cons e

theorem find?_changeChild {change : Directory → Directory}
    {ds : List Directory} (hname : ∀ d, (change d).name = d.name)
    (k : String) :
    (changeChild name change ds).find? (·.name == k) =
      if k = name then (ds.find? (·.name == name)).map change
      else ds.find? (·.name == k) := by
  induction ds with
  | nil => simp [changeChild]
  | cons d ds ih =>
    rw [changeChild]
    by_cases hd : d.name = name
    · rw [if_pos hd]
      by_cases hk : k = name
      · simp [hk, hname, hd]
      · simp [hk, hname, hd, Ne.symm hk]
    · rw [if_neg hd]
      by_cases hk : d.name = k
      · have hkn : k ≠ name := hk ▸ hd
        simp [hk, hkn]
      · simp [hk, ih, hd]

theorem map_name_changeChild {change : Directory → Directory}
    {ds : List Directory} (hname : ∀ d, (change d).name = d.name) :
    (changeChild name change ds).map Directory.name =
      ds.map Directory.name := by
  induction ds with
  | nil => rfl
  | cons d ds ih =>
    rw [changeChild]
    split
    · simp [hname]
    · simp [ih]

theorem mem_changeChild {change : Directory → Directory} {ds : List Directory}
    {c : Directory} (h : c ∈ changeChild name change ds) :
    c ∈ ds ∨ ∃ d ∈ ds, c = change d := by
  induction ds with
  | nil => simp [changeChild] at h
  | cons d ds ih =>
    rw [changeChild] at h
    split at h
    · rcases List.mem_cons.1 h with rfl | h
      · exact Or.inr ⟨d, List.mem_cons_self, rfl⟩
      · exact Or.inl (List.mem_cons_of_mem _ h)
    · rcases List.mem_cons.1 h with rfl | h
      · exact Or.inl List.mem_cons_self
      · rcases ih h with h | ⟨d', hd', h⟩
        · exact Or.inl (List.mem_cons_of_mem _ h)
        · exact Or.inr ⟨d', List.mem_cons_of_mem _ hd', h⟩

end Lists

@[simp]
theorem name_erase (path : Path) (d : Directory) :
    (erase path d).name = d.name := by
  cases path with
  | nil => rfl
  | cons s path =>
    cases path with
    | nil => rfl
    | cons t path => rfl

theorem erase_cons {s : String} {path : Path} (h : path ≠ [])
    (d : Directory) :
    erase (s :: path) d =
      { d with directories := changeChild s (erase path) d.directories } := by
  cases path with
  | nil => exact absurd rfl h
  | cons t path => rfl

/-- Erasing removes the setting of the path and nothing else. -/
theorem Sound.get?_erase {d : Directory} (h : d.Sound) (path q : Path) :
    (Directory.erase path d).get? q =
      if q = path then none else d.get? q := by
  induction path generalizing d q with
  | nil =>
    by_cases hq : q = []
    · simp [hq, Directory.erase]
    · simp [hq, Directory.erase]
  | cons s path ih =>
    by_cases hne : path = []
    · subst hne
      match q with
      | [] => simp
      | [t] =>
        rw [get?_singleton, get?_singleton]
        exact (find?_eraseEntry h.entryNames t).trans (by simp [getOwn?])
      | t :: u :: q =>
        rw [if_neg (by simp)]
        rfl
    · rw [erase_cons hne]
      match q with
      | [] => simp
      | [t] =>
        rw [if_neg (by simpa using fun _ => Ne.symm hne)]
        rfl
      | t :: u :: q =>
        have hq : u :: q ≠ [] := by simp
        rw [get?_cons hq, get?_cons hq, child?,
          find?_changeChild (name_erase path)]
        by_cases hts : t = s
        · subst hts
          rw [if_pos rfl, child?]
          cases hc : d.directories.find? (·.name == t) with
          | none => simp
          | some c =>
            have hsc := h.children c (mem_of_find?_key Directory.name hc).1
            simp [ih hsc]
        · rw [if_neg hts, if_neg (by simp [hts]), child?]

/-- Erasing an entry keeps a tree sound. -/
theorem Sound.erase {d : Directory} (h : d.Sound) (path : Path) :
    (Directory.erase path d).Sound := by
  induction path generalizing d with
  | nil => exact h
  | cons s path ih =>
    by_cases hne : path = []
    · subst hne
      have hsub := eraseEntry_sublist s d.entries
      refine ⟨?_, ?_, h.directoryNames, h.directorySegments, h.children⟩
      · exact (hsub.map Entry.name).nodup h.entryNames
      · intro e he
        exact h.entrySegments e (hsub.subset he)
    · rw [erase_cons hne]
      refine ⟨h.entryNames, h.entrySegments, ?_, ?_, ?_⟩
      · rw [map_name_changeChild (name_erase path)]
        exact h.directoryNames
      · intro c hc
        rcases mem_changeChild hc with hc | ⟨d', hd', rfl⟩
        · exact h.directorySegments c hc
        · rw [name_erase]
          exact h.directorySegments d' hd'
      · intro c hc
        rcases mem_changeChild hc with hc | ⟨d', hd', rfl⟩
        · exact h.children c hc
        · exact ih (h.children d' hd')

/-! ## Changing every setting -/

mutual

/-- The tree with every entry changed. -/
def mapEntries (f : Entry → Entry) : Directory → Directory
  | ⟨name, entries, directories⟩ =>
    ⟨name, entries.map f, mapEntriesOfAll f directories⟩

/-- The directories with every entry changed. -/
def mapEntriesOfAll (f : Entry → Entry) : List Directory → List Directory
  | [] => []
  | d :: ds => mapEntries f d :: mapEntriesOfAll f ds

end

theorem mapEntriesOfAll_eq_map (f : Entry → Entry) (ds : List Directory) :
    mapEntriesOfAll f ds = ds.map (mapEntries f) := by
  induction ds with
  | nil => rfl
  | cons d ds ih => rw [mapEntriesOfAll, ih, List.map_cons]

@[simp]
theorem name_mapEntries (f : Entry → Entry) (d : Directory) :
    (d.mapEntries f).name = d.name := by
  obtain ⟨name, entries, directories⟩ := d
  rw [mapEntries]

@[simp]
theorem entries_mapEntries (f : Entry → Entry) (d : Directory) :
    (d.mapEntries f).entries = d.entries.map f := by
  obtain ⟨name, entries, directories⟩ := d
  rw [mapEntries]

@[simp]
theorem directories_mapEntries (f : Entry → Entry) (d : Directory) :
    (d.mapEntries f).directories = d.directories.map (mapEntries f) := by
  obtain ⟨name, entries, directories⟩ := d
  rw [mapEntries, mapEntriesOfAll_eq_map]

mutual

/-- A tree whose entries do not change does not change. -/
theorem mapEntries_eq_self {f : Entry → Entry} {above : Path} (d : Directory)
    (h : ∀ x ∈ entriesBelow above d, f x.2 = x.2) : d.mapEntries f = d := by
  obtain ⟨name, entries, directories⟩ := d
  rw [entriesBelow, List.forall_mem_append, List.forall_mem_map] at h
  have hentries : entries.map f = entries :=
    (List.map_congr_left h.1).trans (List.map_id entries)
  rw [mapEntries, hentries, mapEntriesOfAll_eq_self directories h.2]

theorem mapEntriesOfAll_eq_self {f : Entry → Entry} {above : Path}
    (ds : List Directory) (h : ∀ x ∈ entriesOfAll above ds, f x.2 = x.2) :
    mapEntriesOfAll f ds = ds := by
  cases ds with
  | nil => rfl
  | cons d ds =>
    rw [entriesOfAll, List.forall_mem_append] at h
    rw [mapEntriesOfAll, mapEntries_eq_self d h.1,
      mapEntriesOfAll_eq_self ds h.2]

end

section MapEntries

variable {f : Entry → Entry} (hf : ∀ e, (f e).name = e.name)

include hf

/-- Every setting is changed where it is. -/
theorem get?_mapEntries (d : Directory) (q : Path) :
    (d.mapEntries f).get? q = (d.get? q).map f := by
  induction q generalizing d with
  | nil => rfl
  | cons s q ih =>
    by_cases hq : q = []
    · subst hq
      have hname : ((·.name == s) ∘ f : Entry → Bool) = (·.name == s) := by
        funext e
        simp [hf]
      rw [get?_singleton, get?_singleton, getOwn?, getOwn?, entries_mapEntries,
        List.find?_map, hname]
    · have hname : ((·.name == s) ∘ mapEntries f : Directory → Bool) =
          (·.name == s) := by
        funext c
        simp
      rw [get?_cons hq, get?_cons hq, child?, child?, directories_mapEntries,
        List.find?_map, hname]
      cases d.directories.find? (·.name == s) with
      | none => rfl
      | some c => exact ih c

/-- Changing every setting keeps a tree sound. -/
theorem Sound.mapEntries {d : Directory} (h : d.Sound) :
    (Directory.mapEntries f d).Sound := by
  induction h with
  | @intro name entries directories hen hes hdn hds hb ih =>
    rw [Directory.mapEntries, mapEntriesOfAll_eq_map]
    have hnames : (entries.map f).map Entry.name = entries.map Entry.name := by
      simp [hf]
    have hdirectories : (directories.map (Directory.mapEntries f)).map
        Directory.name = directories.map Directory.name := by
      simp
    refine ⟨hnames ▸ hen, ?_, hdirectories ▸ hdn, ?_, ?_⟩
    · intro e he
      obtain ⟨e', he', rfl⟩ := List.mem_map.1 he
      exact (hf e').symm ▸ hes e' he'
    · intro c hc
      obtain ⟨c', hc', rfl⟩ := List.mem_map.1 hc
      rw [name_mapEntries]
      exact hds c' hc'
    · intro c hc
      obtain ⟨c', hc', rfl⟩ := List.mem_map.1 hc
      exact ih c' hc'

end MapEntries

theorem map_putEntry {f : Entry → Entry} (hf : ∀ e, (f e).name = e.name)
    {change change' : Option Entry → Entry}
    (hchange : ∀ o, f (change o) = change' (o.map f)) (name : String)
    (es : List Entry) :
    (putEntry name change es).map f = putEntry name change' (es.map f) := by
  induction es with
  | nil => simp [putEntry, hchange none]
  | cons e es ih =>
    rw [putEntry, List.map_cons, putEntry, hf]
    split
    · rw [List.map_cons, hchange (some e), Option.map_some]
    · rw [List.map_cons, ih]

theorem map_putChild {f change change' : Directory → Directory}
    (hf : ∀ d, (f d).name = d.name) (hnew : ∀ name, f { name } = { name })
    (hchange : ∀ d, f (change d) = change' (f d)) (name : String)
    (ds : List Directory) :
    (putChild name change ds).map f = putChild name change' (ds.map f) := by
  induction ds with
  | nil => simp [putChild, hchange, hnew]
  | cons d ds ih =>
    rw [putChild, List.map_cons, putChild, hf]
    split
    · rw [List.map_cons, hchange]
    · rw [List.map_cons, ih]

/-- Changing every setting of a tree behind a put is putting the changed
setting. -/
theorem mapEntries_put {f : Entry → Entry} (hf : ∀ e, (f e).name = e.name)
    {change change' : Option Entry → Entry}
    (hchange : ∀ o, f (change o) = change' (o.map f)) (path : Path)
    (d : Directory) :
    (put change path d).mapEntries f = put change' path (d.mapEntries f) := by
  induction path generalizing d with
  | nil => rfl
  | cons s path ih =>
    obtain ⟨name, entries, directories⟩ := d
    by_cases hne : path = []
    · subst hne
      simp only [put, mapEntries, map_putEntry hf hchange]
    · have hnew (name : String) : mapEntries f { name } = { name } := rfl
      simp only [put_cons hne, mapEntries, mapEntriesOfAll_eq_map,
        map_putChild (name_mapEntries f) hnew ih]

/-! ## Trimming -/

mutual

theorem trim_eq_mapEntries (kept : Nat) (d : Directory) :
    d.trim kept = d.mapEntries (·.trim kept) := by
  obtain ⟨name, entries, directories⟩ := d
  rw [trim, mapEntries, trimAll_eq_mapEntriesOfAll kept directories]

theorem trimAll_eq_mapEntriesOfAll (kept : Nat) (ds : List Directory) :
    trimAll kept ds = mapEntriesOfAll (·.trim kept) ds := by
  cases ds with
  | nil => rfl
  | cons d ds =>
    rw [trimAll, mapEntriesOfAll, trim_eq_mapEntries kept d,
      trimAll_eq_mapEntriesOfAll kept ds]

end

@[simp]
theorem name_trim (kept : Nat) (d : Directory) :
    (d.trim kept).name = d.name := by
  rw [trim_eq_mapEntries, name_mapEntries]

/-- Trimming trims every setting. -/
theorem get?_trim (kept : Nat) (d : Directory) (q : Path) :
    (d.trim kept).get? q = (d.get? q).map (·.trim kept) := by
  rw [trim_eq_mapEntries]
  exact get?_mapEntries (f := (·.trim kept)) (fun e => rfl) d q

/-- Trimming keeps a tree sound. -/
theorem Sound.trim {d : Directory} (h : d.Sound) (kept : Nat) :
    (Directory.trim kept d).Sound := by
  rw [trim_eq_mapEntries]
  exact Sound.mapEntries (f := (·.trim kept)) (fun e => rfl) h

/-! ## Pruning -/

theorem pruneAll_eq_map (ds : List Directory) :
    pruneAll ds = (ds.filter isLive).map prune := by
  induction ds with
  | nil => rfl
  | cons d ds ih =>
    rw [pruneAll]
    by_cases hd : isLive d
    · simp [hd, ih]
    · simp [hd, ih]

@[simp]
theorem name_prune (d : Directory) : d.prune.name = d.name := by
  obtain ⟨name, entries, directories⟩ := d
  rw [prune]

@[simp]
theorem entries_prune (d : Directory) : d.prune.entries = d.entries := by
  obtain ⟨name, entries, directories⟩ := d
  rw [prune]

@[simp]
theorem directories_prune (d : Directory) :
    d.prune.directories = (d.directories.filter isLive).map prune := by
  obtain ⟨name, entries, directories⟩ := d
  rw [prune, pruneAll_eq_map]

theorem anyLive_eq_any (ds : List Directory) : anyLive ds = ds.any isLive := by
  induction ds with
  | nil => rfl
  | cons d ds ih => rw [anyLive, ih, List.any_cons]

theorem isLive_eq (d : Directory) :
    d.isLive = (!d.entries.isEmpty || d.directories.any isLive) := by
  obtain ⟨name, entries, directories⟩ := d
  rw [isLive, anyLive_eq_any]

/-- A directory with a setting is live. -/
theorem isLive_of_get? {d : Directory} {path : Path} {e : Entry}
    (h : d.get? path = some e) : d.isLive := by
  induction path generalizing d with
  | nil => simp at h
  | cons s path ih =>
    rw [isLive_eq]
    by_cases hne : path = []
    · subst hne
      have hmem := (mem_of_find?_key Entry.name h).1
      have hne : d.entries ≠ [] := List.ne_nil_of_mem hmem
      simp [hne]
    · rw [get?_cons hne] at h
      obtain ⟨c, hc, hget⟩ := Option.bind_eq_some_iff.1 h
      have hany : d.directories.any isLive :=
        List.any_eq_true.2 ⟨c, (mem_of_find?_key Directory.name hc).1, ih hget⟩
      simp [hany]

/-- Pruning changes no setting. -/
theorem Sound.get?_prune {d : Directory} (h : d.Sound) (q : Path) :
    d.prune.get? q = d.get? q := by
  induction q generalizing d with
  | nil => rfl
  | cons s q ih =>
    by_cases hq : q = []
    · subst hq
      rw [get?_singleton, get?_singleton, getOwn?, getOwn?, entries_prune]
    · rw [get?_cons hq, get?_cons hq, child?, child?, directories_prune,
        List.find?_map]
      have hname : ((·.name == s) ∘ prune : Directory → Bool) =
          (·.name == s) := by
        funext c
        simp
      have hnodup : ((d.directories.filter isLive).map Directory.name).Nodup :=
        (List.filter_sublist.map _).nodup h.directoryNames
      rw [hname]
      cases hc : d.directories.find? (·.name == s) with
      | none =>
        have hnone : (d.directories.filter isLive).find? (·.name == s) =
            none := by
          rw [find?_key_eq_none_iff] at hc ⊢
          exact fun hm => hc ((List.filter_sublist.map _).subset hm)
        rw [hnone]
        rfl
      | some c =>
        obtain ⟨hmem, hcs⟩ := mem_of_find?_key Directory.name hc
        by_cases hlive : isLive c
        · have hsome : (d.directories.filter isLive).find? (·.name == s) =
              some c :=
            (find?_key_eq_some_iff hnodup).2
              ⟨List.mem_filter.2 ⟨hmem, hlive⟩, hcs⟩
          rw [hsome]
          exact ih (h.children c hmem)
        · -- A dead directory is gone, and it had no setting.
          have hnone : (d.directories.filter isLive).find? (·.name == s) =
              none := by
            rw [Option.eq_none_iff_forall_ne_some]
            intro c' hc'
            obtain ⟨hm', hs'⟩ := mem_of_find?_key Directory.name hc'
            obtain ⟨hm', hl'⟩ := List.mem_filter.1 hm'
            have heq := List.inj_on_of_nodup_map h.directoryNames hm' hmem
              (hs'.trans hcs.symm)
            exact hlive (heq ▸ hl')
          rw [hnone]
          cases hget : c.get? q with
          | none => simp [hget]
          | some e => exact absurd (isLive_of_get? hget) hlive

/-- Pruning keeps a tree sound. -/
theorem Sound.prune {d : Directory} (h : d.Sound) :
    (Directory.prune d).Sound := by
  induction h with
  | @intro name entries directories hen hes hdn hds hb ih =>
    rw [Directory.prune, pruneAll_eq_map]
    refine ⟨hen, hes, ?_, ?_, ?_⟩
    · have hnames : ((directories.filter isLive).map Directory.prune).map
          Directory.name = (directories.filter isLive).map Directory.name := by
        simp
      rw [hnames]
      exact (List.filter_sublist.map _).nodup hdn
    · intro c hc
      obtain ⟨c', hc', rfl⟩ := List.mem_map.1 hc
      rw [name_prune]
      exact hds c' (List.mem_of_mem_filter hc')
    · intro c hc
      obtain ⟨c', hc', rfl⟩ := List.mem_map.1 hc
      exact ih c' (List.mem_of_mem_filter hc')

end SettingsArchive.Directory
