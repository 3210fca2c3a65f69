/-!
# Paths

A setting is named by a path of segments: the first is the backend, the last
is the name of the setting, and those between are directories.  In text the
segments are divided by slashes, and a slash in front is optional.

`ofText?_text` says that the text of a path reads back as that path.
-/

namespace SettingsArchive

/-- The segments from the root down. -/
abbrev Path := List String

namespace Path

/-! ## Dividing at slashes -/

/-- The parts between slashes. -/
def splitSlash : List Char → List (List Char)
  | [] => [[]]
  | c :: cs =>
    if c = '/' then [] :: splitSlash cs
    else
      match splitSlash cs with
      | part :: parts => (c :: part) :: parts
      | [] => [[c]]

/-- Parts with a slash between them. -/
def joinSlash : List (List Char) → List Char
  | [] => []
  | [part] => part
  | part :: parts => part ++ '/' :: joinSlash parts

/-- There is always a part. -/
theorem splitSlash_ne_nil (cs : List Char) : splitSlash cs ≠ [] := by
  cases cs with
  | nil => simp [splitSlash]
  | cons c cs =>
    rw [splitSlash]
    split
    · simp
    · split <;> simp

/-- The parts joined again are the characters. -/
theorem joinSlash_splitSlash (cs : List Char) :
    joinSlash (splitSlash cs) = cs := by
  induction cs with
  | nil => rfl
  | cons c cs ih =>
    rw [splitSlash]
    split
    · rename_i hc
      cases hs : splitSlash cs with
      | nil => exact absurd hs (splitSlash_ne_nil cs)
      | cons part parts =>
        rw [hs] at ih
        rw [joinSlash, ih, hc, List.nil_append]
        exact fun h => by simp at h
    · cases hs : splitSlash cs with
      | nil => exact absurd hs (splitSlash_ne_nil cs)
      | cons part parts =>
        rw [hs] at ih
        cases parts with
        | nil => simpa [joinSlash] using ih
        | cons p ps => simpa [joinSlash] using ih

/-- No part holds a slash. -/
theorem slash_notMem_of_mem_splitSlash {cs part : List Char}
    (h : part ∈ splitSlash cs) : '/' ∉ part := by
  induction cs generalizing part with
  | nil =>
    rw [splitSlash, List.mem_singleton] at h
    simp [h]
  | cons c cs ih =>
    rw [splitSlash] at h
    split at h
    · rcases List.mem_cons.1 h with rfl | h
      · simp
      · exact ih h
    · rename_i hc
      split at h
      · rename_i p ps hs
        rcases List.mem_cons.1 h with rfl | h
        · rw [List.mem_cons, not_or]
          exact ⟨fun he => hc he.symm, ih (by rw [hs]; simp)⟩
        · exact ih (by rw [hs]; exact List.mem_cons_of_mem _ h)
      · rw [List.mem_singleton] at h
        simp [h, Ne.symm hc]

/-- A part without a slash in front of a slash is divided off. -/
theorem splitSlash_append {part cs : List Char} (h : '/' ∉ part) :
    splitSlash (part ++ '/' :: cs) = part :: splitSlash cs := by
  induction part with
  | nil => simp [splitSlash]
  | cons c part ih =>
    rw [List.mem_cons, not_or] at h
    rw [List.cons_append, splitSlash, if_neg (Ne.symm h.1), ih h.2]

/-- A part without a slash is not divided. -/
theorem splitSlash_of_notMem {part : List Char} (h : '/' ∉ part) :
    splitSlash part = [part] := by
  induction part with
  | nil => rfl
  | cons c part ih =>
    rw [List.mem_cons, not_or] at h
    rw [splitSlash, if_neg (Ne.symm h.1), ih h.2]

/-- Joined parts are divided again. -/
theorem splitSlash_joinSlash {parts : List (List Char)} (hne : parts ≠ [])
    (h : ∀ part ∈ parts, '/' ∉ part) :
    splitSlash (joinSlash parts) = parts := by
  induction parts with
  | nil => exact absurd rfl hne
  | cons part parts ih =>
    cases parts with
    | nil => exact splitSlash_of_notMem (h part (by simp))
    | cons p ps =>
      rw [joinSlash, splitSlash_append (h part (by simp)),
        ih (by simp) (fun q hq => h q (List.mem_cons_of_mem _ hq))]
      exact fun h => by simp at h

/-! ## Paths and their texts -/

/-- Whether a text can be a segment. -/
def isSegment (s : String) : Bool :=
  s ≠ "" && !s.toList.contains '/'

/-- The characters without a slash in front. -/
def dropSlash : List Char → List Char
  | '/' :: cs => cs
  | cs => cs

/-- The path that a text names.  A path has at least one segment, and no
segment is empty. -/
def ofText? (text : String) : Option Path :=
  let parts := splitSlash (dropSlash text.toList)
  if [] ∈ parts then none else some (parts.map String.ofList)

/-- The text of a path. -/
def text (path : Path) : String :=
  String.ofList ('/' :: joinSlash (path.map String.toList))

/-- Whether a path does not come after another one.  Paths are ordered by the
first segments that differ, and a path comes before the paths below it. -/
def notAfter : Path → Path → Bool
  | [], _ => true
  | _ :: _, [] => false
  | s :: path, t :: other => s < t || (s == t && notAfter path other)

/-- The text of a directory and a name with exactly one slash between them. -/
def join (directory name : String) : String :=
  let front := (directory.toList.reverse.dropWhile (· == '/')).reverse
  String.ofList (front ++ '/' :: name.toList.dropWhile (· == '/'))

/-- The text of a path reads back as that path. -/
theorem ofText?_text {path : Path} (hne : path ≠ [])
    (h : ∀ s ∈ path, isSegment s) : ofText? path.text = some path := by
  have hparts : ∀ part ∈ path.map String.toList, '/' ∉ part := by
    intro part hp
    obtain ⟨s, hs, rfl⟩ := List.mem_map.1 hp
    have := h s hs
    simp only [isSegment, Bool.and_eq_true, Bool.not_eq_true',
      List.contains_eq_mem, decide_eq_false_iff_not] at this
    exact this.2
  have hempty : [] ∉ path.map String.toList := by
    intro hp
    obtain ⟨s, hs, he⟩ := List.mem_map.1 hp
    have := h s hs
    rw [isSegment, String.toList_eq_nil_iff.1 he] at this
    simp at this
  rw [ofText?, text]
  simp only [String.toList_ofList, dropSlash]
  have hid : String.ofList ∘ String.toList = id :=
    funext fun s => String.ofList_toList
  rw [splitSlash_joinSlash (by simpa using hne) hparts, if_neg hempty,
    List.map_map, hid, List.map_id]

/-- A path that a text names has a segment. -/
theorem ne_nil_of_ofText? {t : String} {path : Path}
    (h : ofText? t = some path) : path ≠ [] := by
  rw [ofText?] at h
  split at h
  · simp at h
  · injection h with h
    rw [← h]
    simpa using splitSlash_ne_nil _

/-- A path that a text names is made of segments. -/
theorem isSegment_of_ofText? {t : String} {path : Path}
    (h : ofText? t = some path) : ∀ s ∈ path, isSegment s := by
  rw [ofText?] at h
  split at h
  · simp at h
  · rename_i hempty
    injection h with h
    subst h
    intro s hs
    obtain ⟨part, hp, rfl⟩ := List.mem_map.1 hs
    have hslash := slash_notMem_of_mem_splitSlash hp
    have hne : part ≠ [] := fun he => hempty (he ▸ hp)
    simp [isSegment, hslash, hne]

end Path

end SettingsArchive
