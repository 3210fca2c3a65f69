import SettingsArchive.Proofs.Loading.Entries
import SettingsArchive.Proofs.Saving

/-!
# Documents of archives

An archive that is read from its own text has what stood in the document, and
there stood the elements of its settings (`holds_directoryElements_iff`).  So
every revision that is read has the number of one before and the instant that is
shown of it (`exists_revision_of_readFrom`), and the number of the next write
stays (`nextRevision_of_ofText_text`), whatever the histories are.
-/

namespace SettingsArchive

open Directory Xml

namespace Contents

variable {d : Directory} {above : Path} {x : Element}

/-! ## Entries in the document of a tree -/

/-- The entries in the document of a tree are the elements of its settings. -/
theorem holds_directoryElements_iff (hd : d.Sound) :
    Holds (directoryElements d) above x ↔
      ∃ e, d.get? (above ++ [e.name]) = some e ∧ entryElement e = x := by
  induction above generalizing d with
  | nil =>
    constructor
    · rintro (⟨hmem, hkind⟩ | -)
      rcases mem_directoryElements_iff.1 hmem with ⟨e, he, rfl⟩ | ⟨s, -, rfl⟩
      · exact ⟨e, Keyed.find?_key_of_mem hd.entryNames he, rfl⟩
      · simp [directoryElement] at hkind
    · rintro ⟨e, he, rfl⟩
      have hmem : e ∈ d.entries := List.mem_of_find?_eq_some he
      exact .here (mem_directoryElements_iff.2 (Or.inl ⟨e, hmem, rfl⟩)) rfl
  | cons name above ih =>
    have hget (e : Entry) : d.get? (name :: above ++ [e.name]) =
        (d.child? name).bind (·.get? (above ++ [e.name])) :=
      get?_cons (by simp)
    constructor
    · intro h
      cases h with
      | inside hmem hkind hnamed hrest =>
        rcases mem_directoryElements_iff.1 hmem with ⟨e, -, rfl⟩ | ⟨s, hs, rfl⟩
        · simp [entryElement] at hkind
        · obtain rfl : s.name = name := Option.some.inj hnamed
          obtain ⟨e, he, hx⟩ := (ih (hd.children s hs)).1 hrest
          have hchild : d.child? s.name = some s :=
            Keyed.find?_key_of_mem hd.directoryNames hs
          exact ⟨e, by rw [hget, hchild]; exact he, hx⟩
    · rintro ⟨e, hbelow, hx⟩
      rw [hget] at hbelow
      obtain ⟨s, hs, he⟩ := Option.bind_eq_some_iff.1 hbelow
      obtain ⟨hmem, rfl⟩ := Keyed.mem_of_find?_key Directory.name hs
      exact .inside (mem_directoryElements_iff.2 (Or.inr ⟨s, hmem, rfl⟩)) rfl rfl
        ((ih (hd.children s hmem)).2 ⟨e, he, hx⟩)

theorem holds_locationElement_iff {l : Location} :
    Holds (locationElement l).children above x ↔
      Holds (directoryElements l.tree) above x := by
  show Holds (l.backends.map backendElement ++ directoryElements l.tree) above x
    ↔ _
  induction l.backends with
  | nil => rfl
  | cons backend backends ih =>
    rw [List.map_cons, List.cons_append,
      holds_cons_other (by simp [backendElement]) (by simp [backendElement]), ih]

/-- The settings of a location that was read from the element of another one
are read from the elements of its settings. -/
theorem get?_of_readFrom {l m : Location}
    (h : Location.ReadFrom (locationElement l) m) (hl : l.tree.Sound)
    {path : Path} {e : Entry} (he : m.tree.get? path = some e) :
    ∃ path own, l.tree.get? path = some own ∧
      readEntry (entryElement own) = .ok e := by
  obtain ⟨above, x, hholds, hread, -⟩ := h.get?_eq_some_iff.1 he
  obtain ⟨own, hown, rfl⟩ :=
    (holds_directoryElements_iff hl).1 (holds_locationElement_iff.1 hholds)
  exact ⟨_, own, hown, hread⟩

/-- The element of every setting was read. -/
theorem exists_readEntry_of_readFrom {l m : Location}
    (h : Location.ReadFrom (locationElement l) m) (hl : l.tree.Sound)
    {path : Path} {e : Entry} (he : l.tree.get? path = some e) :
    ∃ own, readEntry (entryElement e) = .ok own := by
  obtain ⟨above, rfl⟩ := List.getLast?_eq_some_iff.1 (name_of_get? he)
  exact h.tree.exists_readEntry (holds_locationElement_iff.2
    ((holds_directoryElements_iff hl).2 ⟨e, he, rfl⟩))

/-! ## Revisions -/

/-- A revision is read from its own element only if its year has four digits
and no sign.  Then its number is the same, and its instant the one that is
shown. -/
theorem of_readRevision_revisionElement {entry : String} {r s : Revision}
    (h : readRevision entry (revisionElement r) = .ok s) :
    r.time.HasPlainYear ∧ s.time = r.time.shown ∧
      (r.id ≤ Numeral.maxWord → s.id = r.id) := by
  obtain ⟨⟨n, hn, hid⟩, t, ht, hread⟩ := of_readRevision h
  obtain rfl : toString r.id = n := Option.some.inj hn
  obtain rfl : r.time.rfc3339 = t := Option.some.inj ht
  rw [Instant.rfc3339, String.toList_ofList,
    Instant.readRfc3339_rfc3339Chars_eq_ok_iff] at hread
  refine ⟨hread.1, hread.2.symm, fun hle => ?_⟩
  rw [wordOf?_toString hle] at hid
  exact (Option.some.inj hid).symm

/-- Every revision of an entry is read from its own element. -/
theorem forall₂_of_readEntry_entryElement {e own : Entry}
    (h : readEntry (entryElement e) = .ok own) :
    List.Forall₂ (fun r s =>
      readRevision own.name (revisionElement r) = .ok s) e.revisions
        own.revisions := by
  have hall := forall₂_of_readRevisions (of_readEntry h).2.2
  have hchildren : (entryElement e).childrenNamed "revision" =
      e.revisions.map revisionElement := by
    apply List.filter_eq_self.2
    intro c hc
    obtain ⟨r, -, rfl⟩ := List.mem_map.1 hc
    rfl
  rwa [hchildren, List.forall₂_map_left_iff] at hall

/-- A revision whose number is one of sixty-four bits is read in its canonical
form. -/
theorem eq_canonical_of_readRevision {entry : String} {r s : Revision}
    (h : readRevision entry (revisionElement r) = .ok s)
    (hid : r.id ≤ Numeral.maxWord) : s = r.canonical := by
  have hyear := (of_readRevision_revisionElement h).1
  exact Except.ok.inj
    (h.symm.trans (readRevision_revisionElement entry hyear hid))

/-- Revisions that are read from their own elements are in their canonical
forms. -/
theorem eq_canonical_of_forall₂ {entry : String} {rs ss : List Revision}
    (h : List.Forall₂ (fun r s =>
      readRevision entry (revisionElement r) = .ok s) rs ss)
    (hid : ∀ r ∈ rs, r.id ≤ Numeral.maxWord) :
    ss = rs.map Revision.canonical := by
  induction h with
  | nil => rfl
  | cons hrs _ ih =>
    obtain ⟨hr, hrest⟩ := List.forall_mem_cons.1 hid
    rw [List.map_cons, ih hrest, eq_canonical_of_readRevision hrs hr]

/-- An entry whose numbers are of sixty-four bits is read in its canonical
form. -/
theorem eq_canonical_of_readEntry {e own : Entry}
    (h : readEntry (entryElement e) = .ok own)
    (hid : ∀ r ∈ e.revisions, r.id ≤ Numeral.maxWord) : own = e.canonical := by
  have hname : own.name = e.canonical.name :=
    (Option.some.inj (of_readEntry h).1).symm
  have hrevisions : own.revisions = e.canonical.revisions := by
    rw [Entry.revisions_canonical]
    exact eq_canonical_of_forall₂ (forall₂_of_readEntry_entryElement h) hid
  have hown := own.ofRevisions?_revisions
  rw [hname, hrevisions, Entry.ofRevisions?_revisions] at hown
  exact (Option.some.inj hown).symm

/-- The settings of a location that was read from the element of another one
are those of that location, in their canonical forms. -/
theorem get?_eq_canonical_of_readFrom {l m : Location}
    (h : Location.ReadFrom (locationElement l) m) (hl : l.tree.Sound)
    (hid : ∀ path e, l.tree.get? path = some e →
      ∀ r ∈ e.revisions, r.id ≤ Numeral.maxWord) (path : Path) :
    m.tree.get? path = (l.tree.get? path).map Entry.canonical := by
  have hread : ∀ e, m.tree.get? path = some e ↔
      ∃ own, l.tree.get? path = some own ∧ own.canonical = e := by
    intro e
    rw [h.get?_eq_some_iff]
    constructor
    · rintro ⟨above, x, hholds, hread, rfl⟩
      obtain ⟨own, hown, rfl⟩ :=
        (holds_directoryElements_iff hl).1 (holds_locationElement_iff.1 hholds)
      obtain rfl := eq_canonical_of_readEntry hread (hid _ own hown)
      exact ⟨own, hown, rfl⟩
    · rintro ⟨own, hown, rfl⟩
      obtain ⟨above, rfl⟩ := List.getLast?_eq_some_iff.1 (name_of_get? hown)
      have hholds := holds_locationElement_iff.2
        ((holds_directoryElements_iff hl).2 ⟨own, hown, rfl⟩)
      obtain ⟨e, hread⟩ := h.tree.exists_readEntry hholds
      obtain rfl := eq_canonical_of_readEntry hread (hid _ own hown)
      exact ⟨above, entryElement own, hholds, hread, rfl⟩
  apply Option.ext
  intro e
  rw [hread, Option.map_eq_some_iff]

/-- Every revision was read, so its year has four digits and no sign. -/
theorem hasPlainYear_of_readFrom {l m : Location}
    (h : Location.ReadFrom (locationElement l) m) (hl : l.tree.Sound)
    {path : Path} {e : Entry} (he : l.tree.get? path = some e) {r : Revision}
    (hr : r ∈ e.revisions) : r.time.HasPlainYear := by
  obtain ⟨own, hread⟩ := exists_readEntry_of_readFrom h hl he
  have hall := forall₂_of_readEntry_entryElement hread
  obtain ⟨s, -, hs⟩ := exists_mem_of_forall₂ hall.flip hr
  exact (of_readRevision_revisionElement hs).1

/-- Every history was read, so what its written instants stand for is in
order. -/
theorem shownInOrder_of_readFrom {l m : Location}
    (h : Location.ReadFrom (locationElement l) m) (hl : l.tree.Sound)
    {path : Path} {e : Entry} (he : l.tree.get? path = some e)
    (hid : ∀ r ∈ e.revisions, r.id ≤ Numeral.maxWord) : e.ShownInOrder := by
  obtain ⟨own, hread⟩ := exists_readEntry_of_readFrom h hl he
  have hpairs := (of_readRevisions (of_readEntry hread).2.2).1
  rw [eq_canonical_of_readEntry hread hid, Entry.revisions_canonical,
    List.pairwise_map] at hpairs
  exact hpairs.imp fun hrs => hrs.time

/-- Every revision that is read has the number of one before and the instant
that is shown of it. -/
theorem exists_revision_of_readFrom {l m : Location}
    (h : Location.ReadFrom (locationElement l) m) (hl : l.tree.Sound)
    {path : Path} {e : Entry} (he : m.tree.get? path = some e) {s : Revision}
    (hs : s ∈ e.revisions) :
    ∃ path e, l.tree.get? path = some e ∧ ∃ r ∈ e.revisions,
      s.time = r.time.shown ∧ (r.id ≤ Numeral.maxWord → s.id = r.id) := by
  obtain ⟨path, own, hown, hread⟩ := get?_of_readFrom h hl he
  have hall := forall₂_of_readEntry_entryElement hread
  obtain ⟨r, hr, hrs⟩ := exists_mem_of_forall₂ hall hs
  exact ⟨path, own, hown, r, hr, (of_readRevision_revisionElement hrs).2⟩

end Contents

namespace Archive

variable {a b : Archive}

/-- An archive has a location for each one that is read from its own text. -/
theorem forall₂_of_ofText_text (h : ofText a.text = .ok b) :
    List.Forall₂ (fun l m => Location.ReadFrom (Contents.locationElement l) m)
      a.locations b.locations := by
  obtain ⟨c, hread, rfl⟩ := of_ofText_text h
  have hall := hread.locations
  rwa [(Contents.childrenNamed_toElement a.contents).2,
    List.forall₂_map_left_iff] at hall

/-- An archive whose numbers are below that of the next write keeps that number
when its own text is read. -/
theorem nextRevision_of_ofText_text (h : ofText a.text = .ok b)
    (ha : a.WellFormed) (hn : a.HasNumber)
    (hbelow : ∀ l ∈ a.locations, ∀ path e, l.tree.get? path = some e →
      ∀ r ∈ e.revisions, r.id < a.nextRevision) :
    b.nextRevision = a.nextRevision := by
  have hall := forall₂_of_ofText_text h
  obtain ⟨c, hread, rfl⟩ := of_ofText_text h
  have hlast : Contents.lastRevision c.locations ≤ a.nextRevision - 1 := by
    rw [Contents.lastRevision_le_iff fun l hl => (hread.isSound.locations l hl).1.tree]
    intro m hm path e he s hs
    obtain ⟨l, hl, hlm⟩ := exists_mem_of_forall₂ hall hm
    obtain ⟨path, e, he, r, hr, -, hid⟩ := Contents.exists_revision_of_readFrom
      hlm (ha.sound l hl).tree he hs
    have hlt := hbelow l hl path e he r hr
    have hbound := hn.bound
    rw [hid (by omega)]
    omega
  have hpos := hn.pos
  have hlt : Contents.lastRevision c.locations < a.contents.nextRevision := by
    show _ < a.nextRevision
    omega
  have hnumber := Contents.readNextRevision_toElement hlt hn.bound
  exact Except.ok.inj (hread.number.symm.trans hnumber)

end Archive

end SettingsArchive
