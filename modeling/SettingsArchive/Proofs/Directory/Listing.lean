import SettingsArchive.Proofs.Directory
import Mathlib.Data.List.DropRight

/-!
# Listings of directories

`entriesUnder` lists the entries at and below a directory with their texts.
The directory is known by its path, and what is below it lies in the tree at
the paths that go on from there (`get?_append`).

In a sound tree no path is listed twice (`Sound.nodup_paths`), so no text is
either, and the text of a path is a slash and its segments with slashes between
them, however it is put together (`Path.join_text`, `Path.text_eq`).
`length_entriesBelow` says that a listing is as long as the count of entries.
-/

namespace SettingsArchive

namespace Path

/-! ## Texts of paths -/

/-- The text of a path is a slash and the segments with slashes between. -/
theorem text_eq (path : Path) : path.text = "/" ++ "/".intercalate path := by
  induction path with
  | nil => rfl
  | cons s path ih =>
    by_cases hpath : path = []
    · rw [hpath, text_singleton, String.intercalate_singleton]
    · rw [text_cons s hpath, ih, String.intercalate_cons_of_ne_nil hpath]
      simp only [String.append_assoc]

/-- The text of a path of two segments or more ends with the last one. -/
theorem text_concat {path : Path} (h : path ≠ []) (name : String) :
    text (path ++ [name]) = path.text ++ "/" ++ name := by
  rw [text_eq, text_eq, String.intercalate_append_of_ne_nil h (by simp),
    String.intercalate_singleton]
  simp only [String.append_assoc]

theorem slash_notMem_of_isSegment {s : String} (h : isSegment s) :
    '/' ∉ s.toList := by
  simp only [isSegment, Bool.and_eq_true, Bool.not_eq_true',
    List.contains_eq_mem, decide_eq_false_iff_not] at h
  exact h.2

theorem ne_empty_of_isSegment {s : String} (h : isSegment s) : s ≠ "" := by
  simp only [isSegment, Bool.and_eq_true, decide_eq_true_eq] at h
  exact h.1

/-- The text of a path of segments does not end with a slash. -/
theorem rdropWhile_text {path : Path} (h : ∀ s ∈ path, isSegment s)
    (hne : path ≠ []) :
    path.text.toList.rdropWhile (· == '/') = path.text.toList := by
  obtain ⟨front, s, rfl⟩ := (List.eq_nil_or_concat' path).resolve_left hne
  have hs : isSegment s := h s (by simp)
  obtain ⟨before, htext⟩ : ∃ before,
      (text (front ++ [s])).toList = before ++ s.toList := by
    by_cases hfront : front = []
    · refine ⟨['/'], ?_⟩
      simp [hfront, text_singleton]
    · refine ⟨(text front).toList ++ ['/'], ?_⟩
      simp [text_concat hfront]
  rw [htext, List.rdropWhile_eq_self_iff]
  intro hlist hslash
  have hchars : s.toList ≠ [] := by
    simpa using ne_empty_of_isSegment hs
  rw [List.getLast_append_of_ne_nil hlist hchars, beq_iff_eq] at hslash
  exact slash_notMem_of_isSegment hs (hslash ▸ List.getLast_mem hchars)

/-- A directory and a name are joined to the text of the path that they make
up. -/
theorem join_text {above : Path} {name : String}
    (ha : ∀ s ∈ above, isSegment s) (hn : isSegment name) :
    join above.text name = text (above ++ [name]) := by
  have hname : name.toList.dropWhile (· == '/') = name.toList := by
    rw [List.dropWhile_eq_self_iff]
    intro hlen hslash
    rw [beq_iff_eq] at hslash
    exact slash_notMem_of_isSegment hn (hslash ▸ List.getElem_mem hlen)
  by_cases habove : above = []
  · subst habove
    rw [join, hname, List.nil_append, text_singleton, ← String.toList_inj]
    simp [text, joinSlash]
  · rw [join, hname, ← List.rdropWhile, rdropWhile_text ha habove,
      text_concat habove, ← String.toList_inj]
    simp

end Path

namespace Directory

open Keyed

/-! ## The directory of a path -/

theorem find?_cons (d : Directory) (name : String) (path : Path) :
    d.find? (name :: path) = (d.child? name).bind (·.find? path) :=
  rfl

/-- What lies below a directory lies in the tree below its path. -/
theorem get?_append {d c : Directory} {above rest : Path}
    (h : d.find? above = some c) (hrest : rest ≠ []) :
    d.get? (above ++ rest) = c.get? rest := by
  induction above generalizing d with
  | nil =>
    obtain rfl : d = c := Option.some.inj h
    rfl
  | cons s above ih =>
    rw [find?_cons] at h
    obtain ⟨child, hchild, h⟩ := Option.bind_eq_some_iff.1 h
    rw [List.cons_append, get?_cons (by simp [hrest]), hchild]
    exact ih h

/-- A directory of a sound tree is sound, and its path is made of segments. -/
theorem Sound.of_find? {d c : Directory} {above : Path} (h : d.Sound)
    (hc : d.find? above = some c) :
    c.Sound ∧ ∀ s ∈ above, Path.isSegment s := by
  induction above generalizing d with
  | nil =>
    obtain rfl : d = c := Option.some.inj hc
    exact ⟨h, by simp⟩
  | cons s above ih =>
    rw [find?_cons] at hc
    obtain ⟨child, hchild, hc⟩ := Option.bind_eq_some_iff.1 hc
    obtain ⟨hmem, hname⟩ := mem_of_find?_key Directory.name hchild
    obtain ⟨hsound, hsegments⟩ := ih (h.child hchild) hc
    exact ⟨hsound, List.forall_mem_cons.2
      ⟨hname ▸ h.directorySegments child hmem, hsegments⟩⟩

/-! ## Listed paths -/

theorem entriesOfAll_eq_flatMap (above : Path) (ds : List Directory) :
    entriesOfAll above ds =
      ds.flatMap fun d => entriesBelow (above ++ [d.name]) d := by
  induction ds with
  | nil => rfl
  | cons d ds ih => rw [entriesOfAll, ih, List.flatMap_cons]

/-- Every listed path goes on from that of the directory. -/
theorem Sound.exists_rest {d : Directory} (h : d.Sound) {above path : Path}
    (hpath : path ∈ (entriesBelow above d).map Prod.fst) :
    ∃ rest, rest ≠ [] ∧ path = above ++ rest := by
  obtain ⟨x, hx, rfl⟩ := List.mem_map.1 hpath
  obtain ⟨rest, hrest, hget⟩ := h.mem_entriesBelow_iff.1 hx
  refine ⟨rest, ?_, hrest⟩
  rintro rfl
  simp at hget

/-- No path is listed twice. -/
theorem Sound.nodup_paths {d : Directory} (h : d.Sound) (above : Path) :
    ((entriesBelow above d).map Prod.fst).Nodup := by
  induction h generalizing above with
  | @intro name entries directories hen hes hdn hds hb ih =>
    rw [entriesBelow, entriesOfAll_eq_flatMap, List.map_append, List.map_map,
      List.map_flatMap, List.nodup_append, List.nodup_flatMap]
    refine ⟨?_, ⟨fun c hc => ih c hc _, ?_⟩, ?_⟩
    · -- The entries have different names.
      have hinj : Function.Injective fun s : String => above ++ [s] :=
        fun s t hst => by simpa using hst
      have hnodup := hen.map hinj
      rwa [List.map_map] at hnodup
    · -- Below two directories the paths part at the names of these.
      refine (List.pairwise_map.1 hdn).imp_of_mem ?_
      intro c c' hc hc' hne path hpath hpath'
      obtain ⟨rest, -, rfl⟩ := (hb c hc).exists_rest hpath
      obtain ⟨rest', -, heq⟩ := (hb c' hc').exists_rest hpath'
      simp [hne] at heq
    · -- An entry lies less deep than what is below a directory.
      rintro _ hpath path hpath' rfl
      obtain ⟨e, -, rfl⟩ := List.mem_map.1 hpath
      obtain ⟨c, hc, hpath'⟩ := List.mem_flatMap.1 hpath'
      obtain ⟨rest, hrest, heq⟩ := (hb c hc).exists_rest hpath'
      simp [Ne.symm hrest] at heq

/-! ## Listed texts -/

/-- The entries at and below a directory with their texts.  `above` is the
path of the directory. -/
def entriesUnder (above : Path) (d : Directory) : List (String × Entry) :=
  (entriesBelow above d).map fun x =>
    (Path.join (Path.text x.1.dropLast) x.2.name, x.2)

/-- Each entry is listed with the text of its path. -/
theorem Sound.entriesUnder_eq {d : Directory} (h : d.Sound) {above : Path}
    (ha : ∀ s ∈ above, Path.isSegment s) :
    entriesUnder above d =
      (entriesBelow above d).map fun x => (x.1.text, x.2) := by
  refine List.map_congr_left fun x hx => ?_
  obtain ⟨rest, hpath, hget⟩ := h.mem_entriesBelow_iff.1 hx
  have hsegments : ∀ s ∈ x.1, Path.isSegment s := by
    rw [hpath]
    exact List.forall_mem_append.2 ⟨ha, (h.isValid_of_get? hget).2⟩
  have hlast : x.1.dropLast ++ [x.2.name] = x.1 := by
    refine List.dropLast_append_getLast? _ ?_
    rw [hpath, List.getLast?_append, name_of_get? hget]
    rfl
  rw [← hlast, List.forall_mem_append] at hsegments
  rw [Path.join_text hsegments.1 (hsegments.2 _ List.mem_cons_self), hlast]

/-- A listing has the entries below the directory with their texts. -/
theorem Sound.mem_entriesUnder_iff {d : Directory} (h : d.Sound) {above : Path}
    (ha : ∀ s ∈ above, Path.isSegment s) {t : String} {e : Entry} :
    (t, e) ∈ entriesUnder above d ↔
      ∃ rest, d.get? rest = some e ∧ t = Path.text (above ++ rest) := by
  simp only [h.entriesUnder_eq ha, List.mem_map, h.mem_entriesBelow_iff,
    Prod.mk.injEq]
  constructor
  · rintro ⟨x, ⟨rest, hpath, hget⟩, rfl, rfl⟩
    exact ⟨rest, hget, by rw [hpath]⟩
  · rintro ⟨rest, hget, rfl⟩
    exact ⟨(above ++ rest, e), ⟨rest, rfl, hget⟩, rfl, rfl⟩

/-- No text is listed twice. -/
theorem Sound.nodup_texts {d : Directory} (h : d.Sound) {above : Path}
    (ha : ∀ s ∈ above, Path.isSegment s) :
    ((entriesUnder above d).map Prod.fst).Nodup := by
  rw [h.entriesUnder_eq ha, List.map_map]
  have hvalid : ∀ path ∈ (entriesBelow above d).map Prod.fst, path.IsValid := by
    intro path hpath
    obtain ⟨x, hx, rfl⟩ := List.mem_map.1 hpath
    obtain ⟨rest, hpath, hget⟩ := h.mem_entriesBelow_iff.1 hx
    have hrest := h.isValid_of_get? hget
    rw [hpath]
    exact ⟨by simp [hrest.1], List.forall_mem_append.2 ⟨ha, hrest.2⟩⟩
  have hnodup := (h.nodup_paths above).map_on (f := Path.text)
    fun p hp q hq => Path.text_injective (hvalid p hp) (hvalid q hq)
  rwa [List.map_map] at hnodup

/-! ## Counts -/

mutual

/-- A listing is as long as the count of entries. -/
theorem length_entriesBelow (above : Path) (d : Directory) :
    (entriesBelow above d).length = d.entryCount := by
  obtain ⟨name, entries, directories⟩ := d
  rw [entriesBelow, entryCount, List.length_append, List.length_map,
    length_entriesOfAll above directories]

theorem length_entriesOfAll (above : Path) (ds : List Directory) :
    (entriesOfAll above ds).length = entryCountOfAll ds := by
  cases ds with
  | nil => rfl
  | cons d ds =>
    rw [entriesOfAll, entryCountOfAll, List.length_append,
      length_entriesBelow (above ++ [d.name]) d, length_entriesOfAll above ds]

end

end Directory

end SettingsArchive
