import SettingsArchive.Proofs.Loading

/-!
# The entries of a document

Where a setting is to be found in a document can be said without reading the
document: `Holds` leads to the element of an entry through the elements of the
directories around it.  Reading gives exactly these entries:

* `Fills.get?_eq_some_iff` says so for the elements of one directory, and
  `Fills.exists_readEntry` that none of them was refused;
* `Location.ReadFrom.get?_eq_some_iff` says so for one location;
* `exists_id_iff` says the same of the numbers of revisions, which
  `HasRevision` finds in the whole document.
-/

namespace SettingsArchive

open Directory Xml

namespace Contents

/-! ## Where an entry stands -/

/-- The element of an entry stands among some elements, inside directories of
these names. -/
inductive Holds : List Element → Path → Element → Prop where
  | here {es : List Element} {x : Element} (mem : x ∈ es)
      (kind : x.name = "entry") : Holds es [] x
  | inside {es : List Element} {e x : Element} {name : String} {above : Path}
      (mem : e ∈ es) (kind : e.name = "dir")
      (named : e.attribute? "name" = some name)
      (rest : Holds e.children above x) : Holds es (name :: above) x

section Holds

variable {e x : Element} {es : List Element} {above : Path}

theorem not_holds_nil : ¬ Holds [] above x := by
  rintro (⟨mem, -⟩ | ⟨mem, -⟩)
  · cases mem
  · cases mem

theorem Holds.mono {fs : List Element} (h : Holds es above x)
    (hsub : ∀ e ∈ es, e ∈ fs) : Holds fs above x := by
  cases h with
  | here mem kind => exact .here (hsub _ mem) kind
  | inside mem kind named rest => exact .inside (hsub _ mem) kind named rest

theorem Holds.cons (h : Holds es above x) : Holds (e :: es) above x :=
  h.mono fun _ => List.mem_cons_of_mem e

theorem holds_cons_entry (kind : e.name = "entry") :
    Holds (e :: es) above x ↔ above = [] ∧ x = e ∨ Holds es above x := by
  constructor
  · rintro (⟨mem, hx⟩ | ⟨mem, hd, named, rest⟩)
    · rcases List.mem_cons.1 mem with rfl | mem
      · exact Or.inl ⟨rfl, rfl⟩
      · exact Or.inr (.here mem hx)
    · rcases List.mem_cons.1 mem with rfl | mem
      · simp [kind] at hd
      · exact Or.inr (.inside mem hd named rest)
  · rintro (⟨rfl, rfl⟩ | h)
    · exact .here List.mem_cons_self kind
    · exact h.cons

theorem holds_cons_directory {name : String} (kind : e.name = "dir")
    (named : e.attribute? "name" = some name) :
    Holds (e :: es) above x ↔
      (∃ rest, above = name :: rest ∧ Holds e.children rest x) ∨
        Holds es above x := by
  constructor
  · rintro (⟨mem, hx⟩ | ⟨mem, hd, named', rest⟩)
    · rcases List.mem_cons.1 mem with rfl | mem
      · simp [kind] at hx
      · exact Or.inr (.here mem hx)
    · rcases List.mem_cons.1 mem with rfl | mem
      · obtain rfl := Option.some.inj (named.symm.trans named')
        exact Or.inl ⟨_, rfl, rest⟩
      · exact Or.inr (.inside mem hd named' rest)
  · rintro (⟨rest, rfl, h⟩ | h)
    · exact .inside List.mem_cons_self kind named h
    · exact h.cons

theorem holds_cons_other (hentry : e.name ≠ "entry") (hdir : e.name ≠ "dir") :
    Holds (e :: es) above x ↔ Holds es above x := by
  constructor
  · rintro (⟨mem, kind⟩ | ⟨mem, kind, named, rest⟩)
    · rcases List.mem_cons.1 mem with rfl | mem
      · exact absurd kind hentry
      · exact .here mem kind
    · rcases List.mem_cons.1 mem with rfl | mem
      · exact absurd kind hdir
      · exact .inside mem kind named rest
  · exact Holds.cons

end Holds

/-! ## What reading gives -/

namespace Fills

variable {es : List Element} {d d' : Directory}

/-- The settings of a directory behind elements are those before and those
whose elements were there. -/
theorem get?_iff (h : Fills es d d') {path : Path} {entry : Entry} :
    d'.get? path = some entry ↔
      d.get? path = some entry ∨ ∃ above x, Holds es above x ∧
        readEntry x = .ok entry ∧ path = above ++ [entry.name] := by
  induction h generalizing path entry with
  | nil => simp [not_holds_nil]
  | @entry e es d d' own kind read new _ ih =>
    rw [ih, get?_concatEntry new, or_assoc]
    refine or_congr_right ⟨?_, ?_⟩
    · rintro (⟨rfl, rfl⟩ | ⟨above, x, hx, hread, rfl⟩)
      · exact ⟨[], e, .here List.mem_cons_self kind, read, rfl⟩
      · exact ⟨above, x, hx.cons, hread, rfl⟩
    · rintro ⟨above, x, hx, hread, rfl⟩
      rcases (holds_cons_entry kind).1 hx with ⟨rfl, rfl⟩ | hx
      · obtain rfl : entry = own := by
          rw [hread] at read
          exact Except.ok.inj read
        exact Or.inl ⟨rfl, rfl⟩
      · exact Or.inr ⟨above, x, hx, hread, rfl⟩
  | @directory e es d d' child kind named _ new _ _ ihc ih =>
    rw [ih, get?_concatDirectory new, or_assoc]
    refine or_congr_right ⟨?_, ?_⟩
    · rintro (⟨rest, rfl, hget⟩ | ⟨above, x, hx, hread, rfl⟩)
      · rcases ihc.1 hget with hget | ⟨above, x, hx, hread, rfl⟩
        · simp at hget
        · exact ⟨child.name :: above, x, .inside List.mem_cons_self kind named hx,
            hread, rfl⟩
      · exact ⟨above, x, hx.cons, hread, rfl⟩
    · rintro ⟨above, x, hx, hread, rfl⟩
      rcases (holds_cons_directory kind named).1 hx with ⟨rest, rfl, hc⟩ | hx
      · exact Or.inl ⟨rest ++ [entry.name], rfl,
          ihc.2 (Or.inr ⟨rest, x, hc, hread, rfl⟩)⟩
      · exact Or.inr ⟨above, x, hx, hread, rfl⟩
  | other hentry hdir _ ih => simp only [ih, holds_cons_other hentry hdir]

/-- Every entry among the elements was read. -/
theorem exists_readEntry (h : Fills es d d') {above : Path} {x : Element}
    (hx : Holds es above x) : ∃ entry, readEntry x = .ok entry := by
  induction h generalizing above with
  | nil => exact absurd hx not_holds_nil
  | entry kind read _ _ ih =>
    rcases (holds_cons_entry kind).1 hx with ⟨-, rfl⟩ | hx
    · exact ⟨_, read⟩
    · exact ih hx
  | directory kind named _ _ _ _ ihc ih =>
    rcases (holds_cons_directory kind named).1 hx with ⟨rest, -, hx⟩ | hx
    · exact ihc hx
    · exact ih hx
  | other hentry hdir _ ih => exact ih ((holds_cons_other hentry hdir).1 hx)

end Fills

end Contents

/-- The settings of a location are those whose elements stand in its
element. -/
theorem Location.ReadFrom.get?_eq_some_iff {e : Element} {l : Location}
    (h : ReadFrom e l) {path : Path} {entry : Entry} :
    l.tree.get? path = some entry ↔ ∃ above x,
      Contents.Holds e.children above x ∧ Contents.readEntry x = .ok entry ∧
        path = above ++ [entry.name] := by
  rw [h.tree.get?_iff]
  exact or_iff_right (by simp [Directory.empty])

namespace Contents

/-! ## Numbers in a document -/

/-- A revision of this number stands in a document. -/
def HasRevision (root : Element) (n : Nat) : Prop :=
  ∃ e ∈ root.childrenNamed "location", ∃ above x, Holds e.children above x ∧
    ∃ y ∈ x.childrenNamed "revision", ∃ t,
      y.attribute? "id" = some t ∧ wordOf? t = some n

/-- The numbers of an entry are those of the elements of its revisions. -/
theorem exists_id_of_readEntry {x : Element} {entry : Entry}
    (h : readEntry x = .ok entry) {n : Nat} :
    (∃ r ∈ entry.revisions, r.id = n) ↔ ∃ y ∈ x.childrenNamed "revision",
      ∃ t, y.attribute? "id" = some t ∧ wordOf? t = some n := by
  have hall := forall₂_of_readRevisions (of_readEntry h).2.2
  constructor
  · rintro ⟨r, hr, rfl⟩
    obtain ⟨y, hy, hread⟩ := exists_mem_of_forall₂ hall hr
    exact ⟨y, hy, (of_readRevision hread).1⟩
  · rintro ⟨y, hy, t, ht, hn⟩
    obtain ⟨r, hr, hread⟩ := exists_mem_of_forall₂ hall.flip hy
    obtain ⟨⟨t', ht', hid⟩, -⟩ := of_readRevision hread
    obtain rfl := Option.some.inj (ht.symm.trans ht')
    exact ⟨r, hr, Option.some.inj (hid.symm.trans hn)⟩

/-- The numbers in the locations of a document are those in the document. -/
theorem exists_id_iff {root : Element} {locations : List Location}
    (h : List.Forall₂ Location.ReadFrom (root.childrenNamed "location")
      locations) {n : Nat} :
    (∃ l ∈ locations, ∃ path entry, l.tree.get? path = some entry ∧
      ∃ r ∈ entry.revisions, r.id = n) ↔ HasRevision root n := by
  constructor
  · rintro ⟨l, hl, path, entry, hget, hr⟩
    obtain ⟨e, he, hread⟩ := exists_mem_of_forall₂ h hl
    obtain ⟨above, x, hx, hentry, -⟩ := hread.get?_eq_some_iff.1 hget
    exact ⟨e, he, above, x, hx, (exists_id_of_readEntry hentry).1 hr⟩
  · rintro ⟨e, he, above, x, hx, hy⟩
    obtain ⟨l, hl, hread⟩ := exists_mem_of_forall₂ h.flip he
    obtain ⟨entry, hentry⟩ := hread.tree.exists_readEntry hx
    refine ⟨l, hl, above ++ [entry.name], entry, ?_,
      (exists_id_of_readEntry hentry).2 hy⟩
    exact hread.get?_eq_some_iff.2 ⟨above, x, hx, hentry, rfl⟩

/-- The largest number in a document is the last number of its locations. -/
theorem hasRevision_lastRevision {root : Element} {locations : List Location}
    (h : List.Forall₂ Location.ReadFrom (root.childrenNamed "location")
      locations) (hpos : 0 < lastRevision locations) :
    HasRevision root (lastRevision locations) := by
  refine (exists_id_iff h).1 (exists_id_eq_lastRevision (fun l hl => ?_) hpos)
  obtain ⟨e, -, hread⟩ := exists_mem_of_forall₂ h hl
  exact hread.isTree.sound

theorem le_lastRevision {root : Element} {locations : List Location}
    (h : List.Forall₂ Location.ReadFrom (root.childrenNamed "location")
      locations) {n : Nat} (hn : HasRevision root n) :
    n ≤ lastRevision locations := by
  obtain ⟨l, hl, path, entry, hget, r, hr, rfl⟩ := (exists_id_iff h).2 hn
  refine (lastRevision_le_iff fun m hm => ?_).1 (Nat.le_refl _) l hl path entry
    hget r hr
  obtain ⟨e, -, hread⟩ := exists_mem_of_forall₂ h hm
  exact hread.isTree.sound

end Contents

end SettingsArchive
