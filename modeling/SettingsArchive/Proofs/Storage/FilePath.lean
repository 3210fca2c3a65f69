import SettingsArchive.Storage.Disk

/-!
# Where paths lead

Names are followed from the root down: a dot stays, two dots go back, and any
other name goes down.  `place?` is the place of the file that a path names.
It is read off the text alone, so it is the same on every disk.

The lock file and the temporary file of a database stand in the directory of
the database, under names of their own (`place?_lockOf`, `place?_temporaryOf`).
-/

namespace SettingsArchive.FilePath

/-! ## The last part -/

/-- What stands behind the last slash. -/
def fileName (path : String) : String :=
  (parts path).getLastD ""

/-- The names in front of the last slash. -/
def directories (path : String) : List String :=
  (parts path).dropLast.filter (· ≠ "")

theorem parts_ne_nil (path : String) : parts path ≠ [] := by
  simpa [parts] using Path.splitSlash_ne_nil path.toList

/-- The last part and those in front of it. -/
theorem dropLast_append_fileName (path : String) :
    (parts path).dropLast ++ [fileName path] = parts path := by
  have hne := parts_ne_nil path
  rw [fileName, List.getLastD_eq_getLast?, List.getLast?_eq_some_getLast hne,
    Option.getD_some]
  exact List.dropLast_concat_getLast hne

/-- Characters behind the last part belong to it, unless there is a slash
among them. -/
theorem splitSlash_append_of_notMem (cs : List Char) {suffix : List Char}
    (h : '/' ∉ suffix) :
    ∃ before last, Path.splitSlash cs = before ++ [last] ∧
      Path.splitSlash (cs ++ suffix) = before ++ [last ++ suffix] := by
  induction cs with
  | nil => exact ⟨[], [], rfl, Path.splitSlash_of_notMem h⟩
  | cons c cs ih =>
    obtain ⟨before, last, hcs, happend⟩ := ih
    rw [List.cons_append, Path.splitSlash, Path.splitSlash, hcs, happend]
    by_cases hc : c = '/'
    · exact ⟨[] :: before, last, by simp [hc], by simp [hc]⟩
    · cases before with
      | nil => exact ⟨[], c :: last, by simp [hc], by simp [hc]⟩
      | cons part before =>
        exact ⟨(c :: part) :: before, last, by simp [hc], by simp [hc]⟩

theorem parts_append {path suffix : String} (h : '/' ∉ suffix.toList) :
    parts (path ++ suffix)
      = (parts path).dropLast ++ [fileName path ++ suffix] := by
  obtain ⟨before, last, hpath, happend⟩ :=
    splitSlash_append_of_notMem path.toList h
  have hlast : fileName path = String.ofList last := by
    simp [fileName, parts, hpath]
  rw [hlast, parts, parts, String.toList_append, happend, hpath]
  simp [String.ofList_append]

theorem fileName_append {path suffix : String} (h : '/' ∉ suffix.toList) :
    fileName (path ++ suffix) = fileName path ++ suffix := by
  rw [fileName, parts_append h]
  simp

theorem directories_append {path suffix : String} (h : '/' ∉ suffix.toList) :
    directories (path ++ suffix) = directories path := by
  rw [directories, parts_append h, List.dropLast_concat, directories]

/-- The names on a path. -/
theorem filter_parts (path : String) :
    (parts path).filter (· ≠ "") = directories path
      ++ if fileName path = "" then [] else [fileName path] := by
  rw [← dropLast_append_fileName path, List.filter_append, ← directories]
  split <;> rename_i h <;> simp [h]

/-- Parts in front of a slash and parts behind it. -/
theorem splitSlash_append_slash (cs rest : List Char) :
    Path.splitSlash (cs ++ '/' :: rest)
      = Path.splitSlash cs ++ Path.splitSlash rest := by
  induction cs with
  | nil => simp [Path.splitSlash]
  | cons c cs ih =>
    rw [List.cons_append, Path.splitSlash, Path.splitSlash, ih]
    have hne := Path.splitSlash_ne_nil cs
    cases hcs : Path.splitSlash cs with
    | nil => exact absurd hcs hne
    | cons part before => split <;> simp

theorem endsWith_slash_iff {path : String} :
    path.endsWith "/" ↔ ∃ cs, path.toList = cs ++ ['/'] := by
  rw [String.endsWith_eq_endsWith_toSlice, String.Slice.endsWith_string_iff]
  constructor
  · intro ⟨cs, h⟩
    exact ⟨cs, by simpa using h.symm⟩
  · intro ⟨cs, h⟩
    exact ⟨cs, by simp [h]⟩

/-- Nothing stands behind a slash at the end. -/
theorem fileName_eq_empty_iff {path : String} :
    fileName path = "" ↔ path = "" ∨ path.endsWith "/" := by
  rw [endsWith_slash_iff, fileName, parts]
  rcases List.eq_nil_or_concat path.toList with h | ⟨cs, c, h⟩
  · simp [Path.splitSlash, String.toList_eq_nil_iff.1 h]
  · have hne : path ≠ "" := by
      rintro rfl
      simp at h
    rw [List.concat_eq_append] at h
    by_cases hc : c = '/'
    · rw [h, hc, splitSlash_append_slash]
      simp [Path.splitSlash]
    · have hslash : '/' ∉ [c] := by simpa using Ne.symm hc
      obtain ⟨before, last, -, happend⟩ := splitSlash_append_of_notMem cs hslash
      rw [h, happend]
      simp [hne, hc]

/-! ## Places -/

/-- Where a name leads to from a place. -/
def step (place : Place) (name : String) : Place :=
  if name = "." then place
  else if name = ".." then place.dropLast
  else place ++ [name]

/-- Where names lead to from the root. -/
def placeOf (names : List String) : Place :=
  names.foldl step []

/-- Whether a part names a file, rather than a directory reached by dots or by
nothing. -/
def isName (part : String) : Bool :=
  part ≠ "" && part ≠ "." && part ≠ ".."

/-- The place of the file that a path names. -/
def place? (path : String) : Option Place :=
  if isName (fileName path) then
    some (placeOf (directories path) ++ [fileName path])
  else none

theorem isName_iff {part : String} :
    isName part ↔ part ≠ "" ∧ part ≠ "." ∧ part ≠ ".." := by
  simp [isName, and_assoc]

theorem isName_of_place? {path : String} {place : Place}
    (h : place? path = some place) :
    isName (fileName path) ∧
      place = placeOf (directories path) ++ [fileName path] := by
  unfold place? at h
  split at h
  · rename_i hname
    exact ⟨hname, (Option.some.inj h).symm⟩
  · cases h

theorem ne_nil_of_place? {path : String} {place : Place}
    (h : place? path = some place) : place ≠ [] := by
  rw [(isName_of_place? h).2]
  simp

/-! ## Beside a database -/

/-- A long part is a name. -/
theorem isName_append (part : String) {suffix : String}
    (h : 3 ≤ suffix.length) : isName (part ++ suffix) := by
  have hlength : 3 ≤ (part ++ suffix).length := by
    rw [String.length_append]
    omega
  rw [isName_iff]
  refine ⟨?_, ?_, ?_⟩ <;> intro heq <;> rw [heq] at hlength
    <;> revert hlength <;> decide

theorem place?_append (path : String) {suffix : String}
    (hslash : '/' ∉ suffix.toList) (hlength : 3 ≤ suffix.length) :
    place? (path ++ suffix)
      = some (placeOf (directories path) ++ [fileName path ++ suffix]) := by
  rw [place?, fileName_append hslash, directories_append hslash,
    if_pos (isName_append _ hlength)]

/-- The place of the lock file of a database. -/
def lockPlace (path : String) : Place :=
  placeOf (directories path) ++ [fileName path ++ ".lock"]

/-- The place of the temporary file of a database. -/
def temporaryPlace (path : String) : Place :=
  placeOf (directories path) ++ [fileName path ++ ".tmp"]

@[simp] theorem place?_lockOf (path : String) :
    place? (lockOf path) = some (lockPlace path) :=
  place?_append path (by decide) (by decide)

@[simp] theorem place?_temporaryOf (path : String) :
    place? (temporaryOf path) = some (temporaryPlace path) :=
  place?_append path (by decide) (by decide)

theorem append_ne_self {part suffix : String} (h : suffix ≠ "") :
    part ++ suffix ≠ part := by
  intro heq
  rw [← String.toList_inj, String.toList_append] at heq
  exact h (String.toList_eq_nil_iff.1 (List.self_eq_append_right.1 heq.symm))

theorem lockPlace_ne_temporaryPlace (path : String) :
    lockPlace path ≠ temporaryPlace path := by
  intro h
  have hname := List.append_cancel_left h
  rw [List.singleton_inj, ← String.toList_inj, String.toList_append,
    String.toList_append] at hname
  exact absurd (List.append_cancel_left hname) (by decide)

/-- A file beside a database is not the database. -/
theorem place?_ne_append {path suffix : String} (h : suffix ≠ "") :
    place? path ≠ some (placeOf (directories path) ++ [fileName path ++ suffix]) := by
  intro hplace
  have hname := List.append_cancel_left (isName_of_place? hplace).2
  exact append_ne_self h (List.singleton_inj.1 hname)

theorem place?_ne_lockPlace (path : String) :
    place? path ≠ some (lockPlace path) :=
  place?_ne_append (by decide)

theorem place?_ne_temporaryPlace (path : String) :
    place? path ≠ some (temporaryPlace path) :=
  place?_ne_append (by decide)

/-! ## The directory around a file -/

theorem slash_notMem_of_mem_parts {path part : String}
    (h : part ∈ parts path) : '/' ∉ part.toList := by
  obtain ⟨cs, hcs, rfl⟩ := List.mem_map.1 h
  rw [String.toList_ofList]
  exact Path.slash_notMem_of_mem_splitSlash hcs

theorem toList_intercalate_slash (names : List String) :
    ("/".intercalate names).toList
      = Path.joinSlash (names.map String.toList) := by
  rw [String.toList_intercalate]
  generalize names.map String.toList = parts
  induction parts with
  | nil => rfl
  | cons part parts ih =>
    cases parts with
    | nil => simp [List.intercalate, Path.joinSlash]
    | cons other parts =>
      rw [Path.joinSlash, ← ih]
      · simp [List.intercalate]
      · simp

/-- The parts of a path with slashes between them are the path. -/
theorem intercalate_parts (path : String) :
    "/".intercalate (parts path) = path := by
  have hid : String.toList ∘ String.ofList = id :=
    funext fun cs => String.toList_ofList
  rw [← String.toList_inj, toList_intercalate_slash, parts, List.map_map, hid,
    List.map_id, Path.joinSlash_splitSlash]

/-- Parts without slashes are those of the path that they make. -/
theorem parts_intercalate {names : List String} (hne : names ≠ [])
    (h : ∀ name ∈ names, '/' ∉ name.toList) :
    parts ("/".intercalate names) = names := by
  have hid : String.ofList ∘ String.toList = id :=
    funext fun s => String.ofList_toList
  rw [parts, toList_intercalate_slash,
    Path.splitSlash_joinSlash (by simpa using hne) (by simpa using h),
    List.map_map, hid, List.map_id]

/-- Parts that do not count are taken off at one end only. -/
theorem dropIdle_suffix (parts : List String) : dropIdle parts <:+ parts := by
  induction parts with
  | nil => exact List.nil_suffix
  | cons part before ih =>
    rw [dropIdle]
    split
    · exact List.suffix_rfl
    · exact ih.trans (List.suffix_cons part before)

/-- The directory around a file stands in front of its name.  Its names are
the first ones on the path of the file. -/
theorem parent?_spec {path directory : String} (hname : isName (fileName path))
    (h : parent? path = some directory) (hne : directory ≠ "") :
    (∃ rest, path = directory ++ rest) ∧
      (parts directory).filter (· ≠ "") <+: directories path := by
  have hparts := dropLast_append_fileName path
  have hcounts : counts (parts path).dropLast.reverse (fileName path) := by
    simp [counts, isName_iff.1 hname]
  obtain ⟨idle, hidle⟩ := dropIdle_suffix (parts path).dropLast.reverse
  generalize hdrop : dropIdle (parts path).dropLast.reverse = left at hidle
  have hdirs : (parts path).dropLast = left.reverse ++ idle.reverse := by
    rw [← List.reverse_append, hidle, List.reverse_reverse]
  rw [parent?, ← hparts, List.reverse_concat, dropIdle, if_pos hcounts] at h
  simp only [hdrop] at h
  split at h
  · -- nothing but slashes
    rename_i hroot
    obtain rfl := Option.some.inj h
    rw [Bool.and_eq_true, String.startsWith_string_iff] at hroot
    obtain ⟨rest, hrest⟩ := hroot.2
    refine ⟨⟨String.ofList rest, ?_⟩, ?_⟩
    · rw [← String.toList_inj, ← hrest]
      simp
    · have hnames : (parts "/").filter (· ≠ "") = [] := by decide
      rw [hnames]
      exact List.nil_prefix
  · obtain rfl := Option.some.inj h
    have hleft : left.reverse ≠ [] := by
      intro hnil
      rw [hnil] at hne
      exact hne rfl
    have hslash : ∀ name ∈ left.reverse, '/' ∉ name.toList := by
      intro name hmem
      have hmem' : name ∈ parts path := by
        rw [← hparts, hdirs]
        simp [List.mem_reverse.1 hmem]
      exact slash_notMem_of_mem_parts hmem'
    constructor
    · refine ⟨"/" ++ "/".intercalate (idle.reverse ++ [fileName path]), ?_⟩
      rw [← String.append_assoc,
        ← String.intercalate_append_of_ne_nil hleft (by simp),
        ← List.append_assoc, ← hdirs, hparts, intercalate_parts]
    · rw [parts_intercalate hleft hslash, directories, hdirs, List.filter_append]
      exact List.prefix_append _ _

end SettingsArchive.FilePath
