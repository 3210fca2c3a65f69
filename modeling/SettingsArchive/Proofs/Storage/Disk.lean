import SettingsArchive.Proofs.Operations
import SettingsArchive.Proofs.Storage.FilePath

/-!
# What the operations of a disk leave alone

An operation on a path touches the place that the path leads to and nothing
else.  `Keeps` says so for any number of operations: which files may have been
made and which may have been written, while directories and locks stay.

The content of a database is the content of the file at its place.  A path
that could be followed to the lock file of the database finds that file
(`find_of_reaches`).
-/

namespace SettingsArchive.Disk

open FilePath

variable {d e : Disk} {path : String}

/-! ## Files -/

/-- The number and the content of the file at a place. -/
def file? (d : Disk) (place : Place) : Option (Nat × ByteArray) :=
  match d.node? place with
  | some (.file number data) => some (number, data)
  | _ => none

/-- The content of the file that a path names. -/
def content? (d : Disk) (path : String) : Option ByteArray :=
  (place? path).bind fun place => (d.file? place).map Prod.snd

/-- Numbers are given out in order. -/
structure IsSound (d : Disk) : Prop where
  file : ∀ p f, d.file? p = some f → f.1 < d.nextNumber
  locked : ∀ n ∈ d.locked, n < d.nextNumber

theorem file?_eq_some_iff {p : Place} {number : Nat} {data : ByteArray} :
    d.file? p = some (number, data)
      ↔ d.node? p = some (.file number data) := by
  unfold file?
  split
  · rename_i h
    simp [h]
  · rename_i h
    simp only [reduceCtorEq, false_iff]
    exact h number data

theorem file?_of_directory {p : Place} (h : d.node? p = some .directory) :
    d.file? p = none := by
  rw [file?, h]

theorem lookup_filter_ne (nodes : List (Place × Node)) (p q : Place) :
    (nodes.filter (·.1 ≠ p)).lookup q
      = if q = p then none else nodes.lookup q := by
  induction nodes with
  | nil => simp
  | cons entry nodes ih =>
    obtain ⟨place, node⟩ := entry
    grind

theorem node?_put (d : Disk) {p : Place} (hp : p ≠ []) (node : Node)
    (q : Place) :
    (d.put p node).node? q = if q = p then some node else d.node? q := by
  by_cases hq : q = p
  · simp [node?, put, hq, hp]
  · have hne : (q == p) = false := beq_false_of_ne hq
    rw [node?, node?, put, List.lookup_cons, hne, lookup_filter_ne, if_neg hq,
      if_neg hq]

theorem node?_clear (d : Disk) {p : Place} (hp : p ≠ []) (q : Place) :
    (d.clear p).node? q = if q = p then none else d.node? q := by
  rw [node?, clear, lookup_filter_ne]
  by_cases hq : q = p
  · simp [hq, hp]
  · simp [node?, hq]

theorem file?_put_directory (d : Disk) {p : Place} (hp : p ≠ []) (q : Place) :
    (d.put p .directory).file? q = if q = p then none else d.file? q := by
  rw [file?, node?_put d hp]
  by_cases hq : q = p
  · rw [if_pos hq, if_pos hq]
  · rw [if_neg hq, if_neg hq, file?]

theorem file?_put_file (d : Disk) {p : Place} (hp : p ≠ []) (number : Nat)
    (data : ByteArray) (q : Place) :
    (d.put p (.file number data)).file? q
      = if q = p then some (number, data) else d.file? q := by
  rw [file?, node?_put d hp]
  by_cases hq : q = p
  · rw [if_pos hq, if_pos hq]
  · rw [if_neg hq, if_neg hq, file?]

theorem file?_clear (d : Disk) {p : Place} (hp : p ≠ []) (q : Place) :
    (d.clear p).file? q = if q = p then none else d.file? q := by
  rw [file?, node?_clear d hp]
  by_cases hq : q = p
  · rw [if_pos hq, if_pos hq]
  · rw [if_neg hq, if_neg hq, file?]

/-! ## Keeping -/

/-- What stays where files are made at some places at most, and those at some
places may be written or removed: the directories, all other files, and who
holds a lock.  A file that was only made has a new number. -/
structure Keeps (made written : List Place) (d e : Disk) : Prop where
  directory : ∀ p, d.node? p = some .directory → e.node? p = some .directory
  file : ∀ p ∉ written, ∀ f, d.file? p = some f → e.file? p = some f
  absent : ∀ p ∉ made, d.file? p = none → e.file? p = none
  fresh : ∀ p ∉ written, ∀ f, d.file? p = none → e.file? p = some f →
    d.nextNumber ≤ f.1
  next : d.nextNumber ≤ e.nextNumber
  locked : e.locked = d.locked
  sound : d.IsSound → e.IsSound

namespace Keeps

variable {made written : List Place}

theorem refl (made written : List Place) (d : Disk) : Keeps made written d d where
  directory _ h := h
  file _ _ _ h := h
  absent _ _ h := h
  fresh _ _ _ h h' := absurd (h.symm.trans h') (by simp)
  next := Nat.le_refl _
  locked := rfl
  sound h := h

theorem trans {f : Disk} (h : Keeps made written d e)
    (h' : Keeps made written e f) : Keeps made written d f where
  directory p hp := h'.directory p (h.directory p hp)
  file p hp x hx := h'.file p hp x (h.file p hp x hx)
  absent p hp hx := h'.absent p hp (h.absent p hp hx)
  fresh p hp x hx hy := by
    cases hmid : e.file? p with
    | none => exact Nat.le_trans h.next (h'.fresh p hp x hmid hy)
    | some y =>
      obtain rfl := Option.some.inj ((h'.file p hp y hmid).symm.trans hy)
      exact h.fresh p hp y hx hmid
  next := Nat.le_trans h.next h'.next
  locked := h'.locked.trans h.locked
  sound hd := h'.sound (h.sound hd)

theorem mono {made' written' : List Place} (h : Keeps made written d e)
    (hmade : made ⊆ made') (hwritten : written ⊆ written') :
    Keeps made' written' d e where
  directory := h.directory
  file p hp := h.file p fun hmem => hp (hwritten hmem)
  absent p hp := h.absent p fun hmem => hp (hmade hmem)
  fresh p hp := h.fresh p fun hmem => hp (hwritten hmem)
  next := h.next
  locked := h.locked
  sound := h.sound

/-- A file that is neither made nor written is the same. -/
theorem file?_eq {p : Place} (h : Keeps made written d e) (hmade : p ∉ made)
    (hwritten : p ∉ written) : e.file? p = d.file? p := by
  cases hp : d.file? p with
  | none => exact h.absent p hmade hp
  | some f => exact h.file p hwritten f hp

theorem content?_eq (h : Keeps made written d e)
    (hmade : ∀ p, place? path = some p → p ∉ made)
    (hwritten : ∀ p, place? path = some p → p ∉ written) :
    e.content? path = d.content? path := by
  cases hp : place? path with
  | none => simp [content?, hp]
  | some p =>
    simp [content?, hp, h.file?_eq (hmade p hp) (hwritten p hp)]

end Keeps

/-! ## Following paths -/

theorem enter_eq_ok {place q : Place} {name : String}
    (h : d.enter place name = .ok q) : q = step place name := by
  unfold enter at h
  unfold step
  grind

theorem foldlM_enter_eq_ok {names : List String} {place q : Place}
    (h : names.foldlM d.enter place = .ok q) : q = names.foldl step place := by
  induction names generalizing place with
  | nil => exact (Except.ok.inj h).symm
  | cons name names ih =>
    rw [List.foldlM_cons] at h
    obtain ⟨r, hname, hrest⟩ := bind_eq_ok h
    rw [ih hrest, List.foldl_cons, ← enter_eq_ok hname]

/-- Where directories stay, names lead where they led. -/
theorem enter_mono (hdir : ∀ p, d.node? p = some .directory →
    e.node? p = some .directory) {place q : Place} {name : String}
    (h : d.enter place name = .ok q) : e.enter place name = .ok q := by
  unfold enter at h ⊢
  grind

theorem foldlM_enter_mono (hdir : ∀ p, d.node? p = some .directory →
    e.node? p = some .directory) {names : List String} {place q : Place}
    (h : names.foldlM d.enter place = .ok q) :
    names.foldlM e.enter place = .ok q := by
  induction names generalizing place with
  | nil => exact h
  | cons name names ih =>
    rw [List.foldlM_cons] at h ⊢
    obtain ⟨r, hname, hrest⟩ := bind_eq_ok h
    rw [enter_mono hdir hname]
    exact ih hrest

/-- A path that a system call takes. -/
structure IsTaken (path : String) : Prop where
  zero : '\x00' ∉ path.toList
  length : path.utf8ByteSize ≤ maxPath

theorem IsTaken.of_append {rest : String} (h : IsTaken (path ++ rest)) :
    IsTaken path where
  zero hmem := h.zero (by
    rw [String.toList_append]
    exact List.mem_append_left _ hmem)
  length := by
    have hlength := h.length
    rw [String.utf8ByteSize_append] at hlength
    omega

/-- The names of a path lead to a directory. -/
def Leads (d : Disk) (names : List String) : Prop :=
  ∃ place, names.foldlM d.enter [] = .ok place

theorem Leads.of_prefix {names more : List String} (h : d.Leads more)
    (hfront : names <+: more) : d.Leads names := by
  obtain ⟨rest, rfl⟩ := hfront
  obtain ⟨place, h⟩ := h
  rw [List.foldlM_append] at h
  obtain ⟨q, hq, -⟩ := bind_eq_ok h
  exact ⟨q, hq⟩

/-- How a path is followed that a system call takes. -/
theorem follow_of_isTaken (htaken : IsTaken path) (hne : path ≠ "") :
    d.follow path = match ((parts path).filter (· ≠ "")).getLast? with
      | none => .ok (.at [])
      | some last => do
        let place ← ((parts path).filter (· ≠ "")).dropLast.foldlM d.enter []
        if last = "." ∨ last = ".." then .at <$> d.enter place last
        else return .named place last (path.endsWith "/") := by
  rw [follow, if_neg (by simpa using htaken.zero), if_neg hne]
  exact if_neg (Nat.not_lt.2 htaken.length)

theorem isTaken_of_follow {r : End} (h : d.follow path = .ok r) :
    IsTaken path ∧ path ≠ "" := by
  unfold follow at h
  split at h
  · cases h
  · split at h
    · cases h
    · split at h
      · cases h
      · rename_i hzero hne hlength
        exact ⟨⟨by simpa using hzero, Nat.not_lt.1 hlength⟩, hne⟩

/-- A path with a name behind directories is followed to the name. -/
theorem follow_of_concat {before : List String} {last : String} {place : Place}
    (htaken : IsTaken path) (hne : path ≠ "")
    (hnames : (parts path).filter (· ≠ "") = before ++ [last])
    (hbefore : before.foldlM d.enter [] = .ok place) :
    d.follow path = if last = "." ∨ last = ".." then .at <$> d.enter place last
      else .ok (.named place last (path.endsWith "/")) := by
  rw [follow_of_isTaken htaken hne, hnames]
  simp only [List.getLast?_concat, List.dropLast_concat, hbefore]
  rfl

/-- The names in front of one that a path leads to lead to a directory. -/
theorem exists_of_leads_concat {before : List String} {last : String}
    (h : d.Leads (before ++ [last])) :
    ∃ place q, before.foldlM d.enter [] = .ok place ∧
      d.enter place last = .ok q := by
  obtain ⟨q, hq⟩ := h
  rw [List.foldlM_append] at hq
  obtain ⟨place, hbefore, hlast⟩ := bind_eq_ok hq
  obtain ⟨r, hr, -⟩ := bind_eq_ok hlast
  exact ⟨place, r, hbefore, hr⟩

/-- A path that leads to a directory finds it. -/
theorem find_of_leads (htaken : IsTaken path) (hne : path ≠ "")
    (h : d.Leads ((parts path).filter (· ≠ ""))) :
    d.find path = .ok .directory := by
  rcases List.eq_nil_or_concat ((parts path).filter (· ≠ "")) with
    hnames | ⟨before, last, hnames⟩
  · rw [find, follow_of_isTaken htaken hne, hnames]
    rfl
  · rw [List.concat_eq_append] at hnames
    rw [hnames] at h
    obtain ⟨place, q, hbefore, hlast⟩ := exists_of_leads_concat h
    rw [find, follow_of_concat htaken hne hnames hbefore]
    by_cases hdots : last = "." ∨ last = ".."
    · rw [if_pos hdots, hlast]
      rfl
    · rw [if_neg hdots]
      rw [not_or] at hdots
      simp only [enter, if_neg hdots.1, if_neg hdots.2] at hlast
      split at hlast
      · cases hlast
      · rename_i hsize
        split at hlast <;> rename_i hnode
        · change (d.look place last >>= _) = _
          rw [look, if_neg hsize, hnode]
          cases path.endsWith "/" <;> rfl
        · cases hlast
        · cases hlast

/-- The names of a path that names a file. -/
theorem filter_parts_of_isName (hname : isName (fileName path)) :
    (parts path).filter (· ≠ "") = directories path ++ [fileName path] := by
  rw [filter_parts, if_neg (isName_iff.1 hname).1]

/-- A path with a name behind directories is followed to that name. -/
theorem follow_of_isName (htaken : IsTaken path)
    (hname : isName (fileName path)) (h : d.Leads (directories path)) :
    d.follow path
      = .ok (.named (placeOf (directories path)) (fileName path) false) := by
  obtain ⟨hne, hdot, hdots⟩ := isName_iff.1 hname
  have hpath : path ≠ "" := fun hp => hne (fileName_eq_empty_iff.2 (.inl hp))
  have hslash : path.endsWith "/" = false := by
    rw [← Bool.not_eq_true]
    exact fun hs => hne (fileName_eq_empty_iff.2 (.inr hs))
  obtain ⟨place, hplace⟩ := h
  rw [follow_of_concat htaken hpath (filter_parts_of_isName hname) hplace,
    if_neg (by simp [hdot, hdots]), hslash, foldlM_enter_eq_ok hplace, placeOf]

/-- What is found under the name of a path. -/
theorem find_of_isName (htaken : IsTaken path) (hname : isName (fileName path))
    (hsize : (fileName path).utf8ByteSize ≤ maxName)
    (h : d.Leads (directories path)) :
    d.find path
      = (d.node? (placeOf (directories path) ++ [fileName path])).elim
          (.error .noEntry) .ok := by
  rw [find, follow_of_isName htaken hname h]
  change (d.look _ _ >>= _) = _
  rw [look, if_neg (Nat.not_lt.2 hsize)]
  cases d.node? (placeOf (directories path) ++ [fileName path]) with
  | none => rfl
  | some node => cases node <;> rfl

/-- A path that was followed to a name without a slash behind it. -/
theorem of_follow_named {place : Place} {name : String}
    (h : d.follow path = .ok (.named place name false)) :
    isName (fileName path) ∧ d.Leads (directories path) ∧
      place = placeOf (directories path) ∧ name = fileName path := by
  obtain ⟨htaken, hne⟩ := isTaken_of_follow h
  rcases List.eq_nil_or_concat ((parts path).filter (· ≠ "")) with
    hnames | ⟨before, last, hnames⟩
  · rw [follow_of_isTaken htaken hne, hnames] at h
    cases h
  · rw [List.concat_eq_append] at hnames
    rw [follow_of_isTaken htaken hne, hnames] at h
    simp only [List.getLast?_concat, List.dropLast_concat] at h
    obtain ⟨q, hbefore, hend⟩ := bind_eq_ok h
    split at hend
    · obtain ⟨r, -, hat⟩ := map_eq_ok hend
      cases hat
    · rename_i hdots
      obtain ⟨rfl, rfl, hslash⟩ := End.named.inj (Except.ok.inj hend)
      have hlast : fileName path ≠ "" := by
        intro hempty
        rcases fileName_eq_empty_iff.1 hempty with hp | hs
        · exact hne hp
        · rw [hslash] at hs
          cases hs
      rw [filter_parts, if_neg hlast] at hnames
      obtain ⟨rfl, hname⟩ := List.append_inj' hnames rfl
      rw [List.singleton_inj] at hname
      subst hname
      rw [not_or] at hdots
      exact ⟨isName_iff.2 ⟨hlast, hdots⟩, ⟨q, hbefore⟩,
        foldlM_enter_eq_ok hbefore, rfl⟩

/-- A path that names a file is followed to its place, if at all. -/
theorem follow_of_place? {place : Place} {r : End}
    (hplace : place? path = some place) (h : d.follow path = .ok r) :
    d.Leads (directories path) ∧
      r = .named (placeOf (directories path)) (fileName path) false := by
  obtain ⟨hname, -⟩ := isName_of_place? hplace
  obtain ⟨htaken, hne⟩ := isTaken_of_follow h
  have hleads : d.Leads (directories path) := by
    rw [follow_of_isTaken htaken hne, filter_parts_of_isName hname] at h
    simp only [List.getLast?_concat, List.dropLast_concat] at h
    obtain ⟨q, hq, -⟩ := bind_eq_ok h
    exact ⟨q, hq⟩
  rw [follow_of_isName htaken hname hleads] at h
  exact ⟨hleads, (Except.ok.inj h).symm⟩

/-- A path whose name can be looked up, in a directory that is there. -/
structure Names (d : Disk) (path : String) (place : Place) : Prop where
  taken : IsTaken path
  leads : d.Leads (directories path)
  size : (fileName path).utf8ByteSize ≤ maxName
  place?_eq : place? path = some place

theorem fromUTF8?_toUTF8 (text : String) :
    String.fromUTF8? text.toUTF8 = some text :=
  dif_pos text.isValidUTF8

/-- A file with a text in it is read. -/
theorem readText_of_find {number : Nat} {text : String}
    (h : d.find path = .ok (.file number text.toUTF8)) :
    d.readText path = .ok text := by
  rw [readText, h]
  simp only [bind, Except.bind, fromUTF8?_toUTF8]
  rfl

/-! ## Reaching a database -/

/-- The lock file of a database is within reach: its name can be looked up, in
a directory that is there. -/
structure Reaches (d : Disk) (path : String) : Prop where
  taken : IsTaken (lockOf path)
  size : (fileName path ++ ".lock").utf8ByteSize ≤ maxName
  leads : d.Leads (directories path)

/-- Where directories stay, the lock file stays within reach. -/
theorem Reaches.mono (h : d.Reaches path) (hdir : ∀ p,
    d.node? p = some .directory → e.node? p = some .directory) :
    e.Reaches path where
  taken := h.taken
  size := h.size
  leads := h.leads.imp fun _ hp => foldlM_enter_mono hdir hp

/-- Where the lock file is within reach, the database is what has its name. -/
theorem Reaches.find (h : d.Reaches path) :
    d.find path = match place? path with
      | some place => (d.node? place).elim (.error .noEntry) .ok
      | none => if path = "" then .error .noEntry else .ok .directory := by
  have htaken : IsTaken path := h.taken.of_append
  have hsize : (fileName path).utf8ByteSize ≤ maxName := by
    have := h.size
    rw [String.utf8ByteSize_append] at this
    omega
  by_cases hname : isName (fileName path)
  · rw [find_of_isName htaken hname hsize h.leads, place?, if_pos hname]
  · rw [place?, if_neg hname]
    by_cases hempty : path = ""
    · subst hempty
      rfl
    · simp only [if_neg hempty]
      apply find_of_leads htaken hempty
      rw [filter_parts]
      split
      · rw [List.append_nil]
        exact h.leads
      · -- a dot or two dots behind directories
        rename_i hne
        obtain ⟨place, hplace⟩ := h.leads
        have hdots : fileName path = "." ∨ fileName path = ".." := by
          rw [isName_iff] at hname
          grind
        refine ⟨step place (fileName path), ?_⟩
        rw [List.foldlM_append, hplace]
        rcases hdots with hdot | hdot <;> rw [hdot] <;> rfl

/-- Nothing is found under the path of a database only if it has no content. -/
theorem Reaches.content?_of_find (h : d.Reaches path)
    (hfind : (d.find path).toBool = false) : d.content? path = none := by
  rw [h.find] at hfind
  rw [content?]
  cases hp : place? path with
  | none => rfl
  | some p =>
    rw [hp] at hfind
    cases hnode : d.node? p with
    | none => simp [file?, hnode]
    | some node =>
      simp only [hnode] at hfind
      cases hfind

/-- A text that is read from a database is its content. -/
theorem Reaches.content?_of_readText (h : d.Reaches path) {text : String}
    (hread : d.readText path = .ok text) :
    d.content? path = some text.toUTF8 := by
  obtain ⟨node, hfind, hnode⟩ := bind_eq_ok hread
  cases node with
  | directory => cases hnode
  | file number data =>
    have hplace : ∃ p, place? path = some p ∧
        d.node? p = some (.file number data) := by
      rw [h.find] at hfind
      split at hfind
      · rename_i p hp
        refine ⟨p, hp, ?_⟩
        cases hn : d.node? p with
        | none =>
          rw [hn] at hfind
          cases hfind
        | some node =>
          rw [hn] at hfind
          exact congrArg some (Except.ok.inj hfind)
      · split at hfind <;> cases hfind
    obtain ⟨p, hp, hn⟩ := hplace
    rw [content?, hp, Option.bind_some, file?_eq_some_iff.2 hn, Option.map_some]
    simp only at hnode
    split at hnode
    · rename_i decoded hdecode
      obtain rfl := Except.ok.inj hnode
      simp only [String.fromUTF8?, Option.dite_none_right_eq_some,
        Option.some.injEq] at hdecode
      obtain ⟨hvalid, rfl⟩ := hdecode
      rfl
    · cases hnode

/-- A database that has content is found with it. -/
theorem Reaches.find_of_content? (h : d.Reaches path) {data : ByteArray}
    (hcontent : d.content? path = some data) :
    ∃ number, d.find path = .ok (.file number data) := by
  obtain ⟨p, hp, hmap⟩ := Option.bind_eq_some_iff.1 hcontent
  obtain ⟨⟨number, data⟩, hfile, rfl⟩ := Option.map_eq_some_iff.1 hmap
  refine ⟨number, ?_⟩
  rw [h.find, hp]
  simp only [file?_eq_some_iff.1 hfile]
  rfl

theorem Reaches.readText_of_content? (h : d.Reaches path) {text : String}
    (hcontent : d.content? path = some text.toUTF8) :
    d.readText path = .ok text := by
  obtain ⟨number, hfind⟩ := h.find_of_content? hcontent
  exact readText_of_find hfind

end SettingsArchive.Disk
