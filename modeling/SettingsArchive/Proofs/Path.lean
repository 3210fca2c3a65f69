import SettingsArchive.Archive.Store

/-!
# Paths and their texts

A path is valid if it has a segment and every segment can be one.  The valid
paths are those that a text can name, and they correspond to the texts that
begin with a slash: `ofText?_text_of_isValid` and `text_of_ofText?` lead from
one to the other and back.

Without the slash in front a path has a second text.  The theory of histories
asks of texts that are stored together that no two of them name one path
(`SpelledOnce`), as it is with texts that begin with a slash
(`spelledOnce_of_anchored`).
-/

namespace SettingsArchive.Path

/-- A path that a text can name. -/
def IsValid (path : Path) : Prop :=
  path ≠ [] ∧ ∀ s ∈ path, isSegment s

/-- A text that begins with a slash. -/
def IsAnchored (t : String) : Prop :=
  ∃ cs, t.toList = '/' :: cs

/-- Texts that spell each path in one way. -/
def SpelledOnce (ts : List String) : Prop :=
  ∀ s ∈ ts, ∀ t ∈ ts, (ofText? s).isSome → ofText? s = ofText? t → s = t

/-! ## Valid paths -/

theorem isValid_of_ofText? {t : String} {path : Path}
    (h : ofText? t = some path) : path.IsValid :=
  ⟨ne_nil_of_ofText? h, isSegment_of_ofText? h⟩

theorem ofText?_text_of_isValid {path : Path} (h : path.IsValid) :
    ofText? path.text = some path :=
  ofText?_text h.1 h.2

/-- A valid path is known by its text. -/
theorem text_injective {path other : Path} (h : path.IsValid)
    (ho : other.IsValid) (heq : path.text = other.text) : path = other := by
  have hp := ofText?_text_of_isValid h
  rw [heq, ofText?_text_of_isValid ho] at hp
  exact (Option.some.inj hp).symm

theorem isValid_singleton {s : String} (h : isSegment s) : IsValid [s] := by
  refine ⟨by simp, ?_⟩
  intro t ht
  rw [List.mem_singleton.1 ht]
  exact h

theorem isValid_concat {above : Path} (ha : above.IsValid) {name : String}
    (hname : isSegment name) : IsValid (above ++ [name]) :=
  ⟨by simp, List.forall_mem_append.2 ⟨ha.2, List.forall_mem_singleton.2 hname⟩⟩

theorem IsValid.tail {s : String} {path : Path} (h : IsValid (s :: path))
    (hne : path ≠ []) : path.IsValid :=
  ⟨hne, fun t ht => h.2 t (List.mem_cons_of_mem _ ht)⟩

theorem IsValid.head {s : String} {path : Path} (h : IsValid (s :: path)) :
    isSegment s :=
  h.2 s List.mem_cons_self

/-- A valid path is one segment, or a segment in front of a valid path. -/
@[elab_as_elim]
theorem IsValid.induction {motive : (path : Path) → path.IsValid → Prop}
    (single : ∀ (name : String) (h : IsValid [name]), motive [name] h)
    (longer : ∀ (name : String) (rest : Path) (h : IsValid (name :: rest))
      (hrest : rest.IsValid), motive rest hrest → motive (name :: rest) h)
    (path : Path) (h : path.IsValid) : motive path h := by
  induction path with
  | nil => exact absurd rfl h.1
  | cons name rest ih =>
    by_cases hrest : rest = []
    · subst hrest
      exact single name h
    · exact longer name rest h (h.tail hrest) (ih _)

/-- The last segment of a longer path is that of its tail. -/
theorem getLast?_tail {s name : String} {path : Path} (hne : path ≠ [])
    (h : (s :: path).getLast? = some name) : path.getLast? = some name := by
  cases path with
  | nil => exact absurd rfl hne
  | cons t path => rwa [List.getLast?_cons_cons] at h

/-! ## Anchored texts -/

theorem isAnchored_append {s : String} (h : IsAnchored s) (t : String) :
    IsAnchored (s ++ t) := by
  obtain ⟨cs, hcs⟩ := h
  exact ⟨cs ++ t.toList, by rw [String.toList_append, hcs, List.cons_append]⟩

/-- An anchored text is the text of the path that it names. -/
theorem text_of_ofText? {t : String} {path : Path} (ht : IsAnchored t)
    (h : ofText? t = some path) : path.text = t := by
  obtain ⟨cs, hcs⟩ := ht
  rw [ofText?, hcs] at h
  simp only [dropSlash] at h
  split at h
  · simp at h
  · injection h with h
    have hparts : path.map String.toList = splitSlash cs := by
      rw [← h, List.map_map]
      have hid : String.toList ∘ String.ofList = id :=
        funext fun cs => String.toList_ofList
      rw [hid, List.map_id]
    rw [text, hparts, joinSlash_splitSlash, ← hcs, String.ofList_toList]

/-- Anchored texts of one path are equal. -/
theorem eq_of_ofText?_eq {s t : String} {path : Path} (hs : IsAnchored s)
    (ht : IsAnchored t) (hsp : ofText? s = some path)
    (htp : ofText? t = some path) : s = t := by
  rw [← text_of_ofText? hs hsp, text_of_ofText? ht htp]

/-- Anchored texts spell each path in one way. -/
theorem spelledOnce_of_anchored {ts : List String}
    (h : ∀ t ∈ ts, IsAnchored t) : SpelledOnce ts := by
  intro s hs t ht hsome heq
  obtain ⟨path, hpath⟩ := Option.isSome_iff_exists.1 hsome
  exact eq_of_ofText?_eq (h s hs) (h t ht) hpath (heq ▸ hpath)

theorem SpelledOnce.subset {ts us : List String} (h : SpelledOnce ts)
    (hsub : us ⊆ ts) : SpelledOnce us :=
  fun s hs t ht => h s (hsub hs) t (hsub ht)

/-- A slash in front of a segment is the text of a path of one segment. -/
theorem text_singleton (s : String) : text [s] = "/" ++ s := by
  rw [← String.toList_inj]
  simp [text, joinSlash]

/-- The text of a longer path is that of its first segment and that of the
others. -/
theorem text_cons (s : String) {path : Path} (h : path ≠ []) :
    text (s :: path) = "/" ++ s ++ path.text := by
  cases path with
  | nil => exact absurd rfl h
  | cons t path =>
    rw [← String.toList_inj]
    simp [text, joinSlash]

/-! ## The backend of a path -/

/-- A text has a backend if it names a path of two segments or more. -/
theorem backendOf_eq_ok_iff {t backend : String} :
    backendOf t = .ok backend ↔
      ∃ name rest, ofText? t = some (backend :: name :: rest) := by
  unfold backendOf
  split
  · rename_i b name rest heq
    rw [heq]
    constructor
    · rintro ⟨⟩
      exact ⟨name, rest, rfl⟩
    · rintro ⟨n, r, h⟩
      simp only [Option.some.injEq, List.cons.injEq] at h
      rw [h.1]
  · rename_i hnone
    constructor
    · intro h
      cases h
    · rintro ⟨name, rest, h⟩
      exact absurd h (hnone _ _ _)

theorem isValidBackend_of_backendOf {t backend : String}
    (h : backendOf t = .ok backend) : Location.isValidBackend backend := by
  obtain ⟨name, rest, hof⟩ := backendOf_eq_ok_iff.1 h
  exact (isValid_of_ofText? hof).head

/-- A path with a backend has two segments or more. -/
theorem two_le_length_of_backendOf {t backend : String} {path : Path}
    (h : backendOf t = .ok backend) (hpath : ofText? t = some path) :
    2 ≤ path.length := by
  obtain ⟨name, rest, hof⟩ := backendOf_eq_ok_iff.1 h
  obtain rfl := Option.some.inj (hpath.symm.trans hof)
  simp

/-- A valid path of two segments or more has a backend. -/
theorem exists_backendOf {path : Path} (h : path.IsValid)
    (hdeep : 2 ≤ path.length) : ∃ backend, backendOf path.text = .ok backend := by
  obtain ⟨backend, name, rest, rfl⟩ :
      ∃ backend name rest, path = backend :: name :: rest := by
    match path, hdeep with
    | backend :: name :: rest, _ => exact ⟨backend, name, rest, rfl⟩
  exact ⟨backend, backendOf_eq_ok_iff.2
    ⟨name, rest, ofText?_text_of_isValid h⟩⟩

/-- A path of one segment has no backend. -/
theorem backendOf_singleton {s : String} (h : IsValid [s]) :
    backendOf (text [s]) = .error (.invalidPath (text [s])) := by
  unfold backendOf
  rw [ofText?_text_of_isValid h]

/-- A path that is looked at: any, or one below a backend. -/
def IsBelow (backend : Option String) (path : Path) : Prop :=
  ∀ b, backend = some b → ∃ rest, rest ≠ [] ∧ path = b :: rest

theorem isBelow_none (path : Path) : path.IsBelow none := by
  intro b hb
  cases hb

theorem ofText?_backend {b : String} (hb : Location.isValidBackend b) :
    ofText? ("/" ++ b) = some [b] := by
  rw [← text_singleton]
  exact ofText?_text_of_isValid (isValid_singleton hb)

end SettingsArchive.Path
