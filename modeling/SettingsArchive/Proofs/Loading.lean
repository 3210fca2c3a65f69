import SettingsArchive.Archive
import SettingsArchive.Proofs.History
import SettingsArchive.Proofs.Xml.Document

/-!
# What a document gives

Reading takes a document apart, and what it took can be said without it:

* `Fills` are the elements that go into a directory, one after the other, and
  what they add to it;
* `Location.ReadFrom` is what a location has from its element;
* `Contents.ReadFrom` is what the contents have from the whole document.

From these follows what the contents of every accepted document have in common
(`Contents.IsSound`): no location id repeats, every location is sound, every
setting has a history with numbers below the number of the next write, and the
links passed `checkLinks`.  `IsStart` archives, which are the new one and those
of documents, have all of this.
-/

namespace SettingsArchive

open Directory Xml

namespace Location

/-- The tree of a location is sound and has no name, and its backends are
sound. -/
structure IsSound (l : Location) : Prop where
  tree : l.tree.Sound
  root : l.tree.name = ""
  backends : l.HasSoundBackends

end Location

namespace Contents

/-! ## Numbers of sixty-four bits -/

theorem readDigits_le {base max value n : Nat} {cs : List Char}
    (h : Numeral.readDigits base max value cs = .ok n) (hv : value ≤ max) :
    n ≤ max := by
  induction cs generalizing value with
  | nil =>
    injection h with h
    exact h ▸ hv
  | cons c cs ih =>
    rw [Numeral.readDigits] at h
    split at h
    · cases h
    · split at h
      · cases h
      · exact ih h (by omega)

/-- A number of sixty-four bits is not above the largest one. -/
theorem wordOf?_le {text : String} {n : Nat} (h : wordOf? text = some n) :
    n ≤ Numeral.maxWord := by
  unfold wordOf? at h
  cases hr : Numeral.readNat 10 Numeral.maxWord text.toList with
  | error fault =>
    rw [hr] at h
    cases h
  | ok m =>
    rw [hr] at h
    obtain rfl := Option.some.inj h
    unfold Numeral.readNat at hr
    split at hr
    · cases hr
    · cases hr
    · exact readDigits_le hr (Nat.zero_le _)
    · exact readDigits_le hr (Nat.zero_le _)

/-! ## Attributes -/

theorem required_eq_ok_iff {e : Element} {key value : String} :
    required e key = .ok value ↔ e.attribute? key = some value := by
  unfold required
  split
  · simp [*]
  · simp [*, corrupt]

/-! ## Entries -/

/-- The number and the instant of a revision stand in its element. -/
theorem of_readRevision {entry : String} {e : Element} {r : Revision}
    (h : readRevision entry e = .ok r) :
    (∃ t, e.attribute? "id" = some t ∧ wordOf? t = some r.id) ∧
      ∃ t, e.attribute? "timestamp" = some t ∧
        Instant.readRfc3339 t.toList = .ok r.time := by
  unfold readRevision at h
  obtain ⟨idText, hidText, h⟩ := bind_eq_ok h
  simp only [bind, Except.bind, corrupt] at h
  split at h
  · rename_i id hid
    split at h
    · cases h
    · rename_i timeText htimeText
      split at h
      · rename_i time htime
        split at h
        · cases h
        · split at h
          · cases h
          · split at h
            · injection h with h
              subst h
              exact ⟨⟨idText, required_eq_ok_iff.1 hidText, hid⟩,
                timeText, required_eq_ok_iff.1 htimeText, htime⟩
            · cases h
      · cases h
  · cases h

theorem id_le_of_readRevision {entry : String} {e : Element} {r : Revision}
    (h : readRevision entry e = .ok r) : r.id ≤ Numeral.maxWord := by
  obtain ⟨⟨t, -, ht⟩, -⟩ := of_readRevision h
  exact wordOf?_le ht

theorem of_checkOrder {entry : String} {before : Option Revision}
    {r : Revision} (h : checkOrder entry before r = .ok ()) :
    ∀ p ∈ before, p.Precedes r := by
  intro p hp
  obtain rfl : before = some p := hp
  simp only [checkOrder] at h
  split at h
  · cases h
  · rename_i horder
    split at h
    · cases h
    · rename_i hkind
      rw [not_or, Instant.not_lt, Nat.not_le] at horder
      exact ⟨horder.1, horder.2, (not_not.1 hkind).symm⟩

/-- The revisions that are read follow each other and the one before them. -/
theorem of_readRevisions {entry : String} {before : Option Revision}
    {es : List Element} {rs : List Revision}
    (h : readRevisions entry before es = .ok rs) :
    rs.Pairwise Revision.Precedes ∧ (∀ p ∈ before, ∀ r ∈ rs, p.Precedes r) ∧
      ∀ r ∈ rs, r.id ≤ Numeral.maxWord := by
  induction es generalizing before rs with
  | nil =>
    injection h with h
    subst h
    simp
  | cons e es ih =>
    obtain ⟨r, hr, h⟩ := bind_eq_ok h
    obtain ⟨⟨⟩, horder, h⟩ := bind_eq_ok h
    obtain ⟨rest, hrest, h⟩ := bind_eq_ok h
    injection h with h
    subst h
    obtain ⟨hpairs, hafter, hbound⟩ := ih hrest
    refine ⟨List.pairwise_cons.2 ⟨hafter r rfl, hpairs⟩, ?_,
      List.forall_mem_cons.2 ⟨id_le_of_readRevision hr, hbound⟩⟩
    intro p hp s hs
    have hpr := of_checkOrder horder p hp
    rcases List.mem_cons.1 hs with rfl | hs
    · exact hpr
    · exact hpr.trans (hafter r rfl s hs)

/-- Every revision is read off its element. -/
theorem forall₂_of_readRevisions {entry : String} {before : Option Revision}
    {es : List Element} {rs : List Revision}
    (h : readRevisions entry before es = .ok rs) :
    List.Forall₂ (fun e r => readRevision entry e = .ok r) es rs := by
  induction es generalizing before rs with
  | nil =>
    injection h with h
    exact h ▸ .nil
  | cons e es ih =>
    obtain ⟨r, hr, h⟩ := bind_eq_ok h
    obtain ⟨⟨⟩, -, h⟩ := bind_eq_ok h
    obtain ⟨rest, hrest, h⟩ := bind_eq_ok h
    injection h with h
    exact h ▸ .cons hr (ih hrest)

theorem of_readEntry {e : Element} {entry : Entry}
    (h : readEntry e = .ok entry) :
    e.attribute? "name" = some entry.name ∧ Path.isSegment entry.name ∧
      readRevisions entry.name none (e.childrenNamed "revision") =
        .ok entry.revisions := by
  unfold readEntry at h
  obtain ⟨name, hnameText, h⟩ := bind_eq_ok h
  simp only [bind, Except.bind, corrupt, pure, Except.pure] at h
  split at h
  · cases h
  · rename_i hname
    split at h
    · cases h
    · rename_i rs hrs
      split at h
      · rename_i entry' hentry
        injection h with h
        subst h
        obtain ⟨hn, hr⟩ := Entry.revisions_of_ofRevisions? hentry
        rw [hn, hr]
        exact ⟨required_eq_ok_iff.1 hnameText, by simpa using hname, hrs⟩
      · cases h

theorem isHistoryBelow_of_readEntry {e : Element} {entry : Entry}
    (h : readEntry e = .ok entry) :
    entry.IsHistoryBelow (Numeral.maxWord + 1) := by
  obtain ⟨hpairs, -, hbound⟩ := of_readRevisions (of_readEntry h).2.2
  exact ⟨hpairs, fun r hr => Nat.lt_succ_of_le (hbound r hr)⟩

/-! ## Trees -/

/-- Elements go into a directory one after the other.  An entry is added at
the end, and so is a directory, with what its own elements add to an empty one.
Other elements are passed over. -/
inductive Fills : List Element → Directory → Directory → Prop where
  | nil (d : Directory) : Fills [] d d
  | entry {e : Element} {es : List Element} {d d' : Directory} {entry : Entry}
      (kind : e.name = "entry") (read : readEntry e = .ok entry)
      (new : d.getOwn? entry.name = none)
      (rest : Fills es { d with entries := d.entries ++ [entry] } d') :
      Fills (e :: es) d d'
  | directory {e : Element} {es : List Element} {d d' child : Directory}
      (kind : e.name = "dir") (named : e.attribute? "name" = some child.name)
      (segment : Path.isSegment child.name)
      (new : d.child? child.name = none)
      (below : Fills e.children { name := child.name } child)
      (rest : Fills es { d with directories := d.directories ++ [child] } d') :
      Fills (e :: es) d d'
  | other {e : Element} {es : List Element} {d d' : Directory}
      (entry : e.name ≠ "entry") (dir : e.name ≠ "dir") (rest : Fills es d d') :
      Fills (e :: es) d d'

theorem Fills.name {es : List Element} {d d' : Directory}
    (h : Fills es d d') : d'.name = d.name := by
  induction h with
  | nil => rfl
  | entry _ _ _ _ ih => exact ih
  | directory _ _ _ _ _ _ _ ih => exact ih
  | other _ _ _ ih => exact ih

mutual

theorem fills_of_addElement {above : Path} {d d' d'' : Directory}
    {es : List Element} (e : Element) (h : addElement above d e = .ok d')
    (rest : Fills es d' d'') : Fills (e :: es) d d'' := by
  obtain ⟨kind, attributes, children, text⟩ := e
  unfold addElement at h
  split at h
  · rename_i hkind
    obtain ⟨entry, hentry, h⟩ := bind_eq_ok h
    simp only [bind, Except.bind, corrupt, pure, Except.pure] at h
    split at h
    · cases h
    · rename_i hnew
      injection h with h
      exact .entry hkind hentry (by simpa using hnew) (h ▸ rest)
  · rename_i hentry
    split at h
    · rename_i hkind
      obtain ⟨name, hname, h⟩ := bind_eq_ok h
      simp only [bind, Except.bind, corrupt, pure, Except.pure] at h
      split at h
      · cases h
      · rename_i hproper
        split at h
        · cases h
        · rename_i child hchild
          injection h with h
          have hbelow := fills_of_addElements children hchild
          obtain rfl : child.name = name := hbelow.name
          simp only [Bool.or_eq_true, not_or, Bool.not_eq_true',
            Bool.not_eq_false] at hproper
          exact .directory hkind (required_eq_ok_iff.1 hname) hproper.1
            (by simpa using hproper.2) hbelow (h ▸ rest)
    · rename_i hkind
      injection h with h
      exact .other hentry hkind (h ▸ rest)

theorem fills_of_addElements {above : Path} {d d' : Directory}
    (es : List Element) (h : addElements above d es = .ok d') :
    Fills es d d' := by
  cases es with
  | nil =>
    injection h with h
    exact h ▸ .nil d
  | cons e es =>
    obtain ⟨d₁, hd₁, h⟩ := bind_eq_ok h
    exact fills_of_addElement e hd₁ (fills_of_addElements es h)

end

/-- A tree that a document gives: it is sound, and every setting has a
history. -/
structure IsTree (d : Directory) : Prop where
  sound : d.Sound
  histories : d.HasHistories (Numeral.maxWord + 1)

theorem isTree_empty (name : String) : IsTree { name } :=
  ⟨sound_empty name, fun path e he => by simp at he⟩

/-- A tree takes a new entry at the end. -/
theorem IsTree.addEntry {d : Directory} (h : IsTree d) {entry : Entry}
    (hs : Path.isSegment entry.name)
    (hh : entry.IsHistoryBelow (Numeral.maxWord + 1))
    (hnew : d.getOwn? entry.name = none) :
    IsTree { d with entries := d.entries ++ [entry] } := by
  have hnames : entry.name ∉ d.entries.map Entry.name :=
    Keyed.find?_key_eq_none_iff.1 hnew
  refine ⟨⟨?_, ?_, h.sound.directoryNames, h.sound.directorySegments,
    h.sound.children⟩, ?_⟩
  · exact Keyed.nodup_map_concat h.sound.entryNames hnames
  · exact List.forall_mem_append.2
      ⟨h.sound.entrySegments, List.forall_mem_singleton.2 hs⟩
  · intro path e he
    rcases (get?_concatEntry hnew).1 he with he | ⟨-, rfl⟩
    · exact h.histories path e he
    · exact hh

/-- A tree takes a new directory at the end. -/
theorem IsTree.addDirectory {d child : Directory} (h : IsTree d)
    (hc : IsTree child) (hs : Path.isSegment child.name)
    (hnew : d.child? child.name = none) :
    IsTree { d with directories := d.directories ++ [child] } := by
  have hnames : child.name ∉ d.directories.map Directory.name :=
    Keyed.find?_key_eq_none_iff.1 hnew
  refine ⟨⟨h.sound.entryNames, h.sound.entrySegments, ?_, ?_, ?_⟩, ?_⟩
  · exact Keyed.nodup_map_concat h.sound.directoryNames hnames
  · exact List.forall_mem_append.2
      ⟨h.sound.directorySegments, List.forall_mem_singleton.2 hs⟩
  · exact List.forall_mem_append.2
      ⟨h.sound.children, List.forall_mem_singleton.2 hc.sound⟩
  · intro path e he
    rcases (get?_concatDirectory hnew).1 he with he | ⟨rest, -, he⟩
    · exact h.histories path e he
    · exact hc.histories rest e he

theorem Fills.isTree {es : List Element} {d d' : Directory}
    (h : Fills es d d') (hd : IsTree d) : IsTree d' := by
  induction h with
  | nil => exact hd
  | entry _ read new _ ih =>
    exact ih (hd.addEntry (of_readEntry read).2.1
      (isHistoryBelow_of_readEntry read) new)
  | @directory _ _ _ _ child _ _ segment new _ _ ihc ih =>
    exact ih (hd.addDirectory (ihc (isTree_empty child.name)) segment new)
  | other _ _ _ ih => exact ih hd

/-! ## Locations -/

theorem of_addBackends {l m : Location} {es : List Element}
    (h : addBackends l es = .ok m) (hl : l.HasSoundBackends) :
    m.HasSoundBackends ∧ m.id = l.id ∧ m.parent = l.parent := by
  induction es generalizing l with
  | nil =>
    injection h with h
    exact h ▸ ⟨hl, rfl, rfl⟩
  | cons e es ih =>
    obtain ⟨backend, -, h⟩ := bind_eq_ok h
    obtain ⟨l', hl', h⟩ := bind_eq_ok h
    obtain ⟨hvalid, hnew, rfl⟩ := Location.of_addBackend hl'
    obtain ⟨hm, hid, hparent⟩ := ih h (hl.concat hvalid hnew)
    exact ⟨hm, hid, hparent⟩

end Contents

/-- What a location has from its element. -/
structure Location.ReadFrom (e : Element) (l : Location) : Prop where
  id : e.attribute? "id" = some l.id
  parent : l.parent = e.attribute? "parent"
  backends : l.HasSoundBackends
  tree : Contents.Fills e.children .empty l.tree

namespace Location.ReadFrom

variable {e : Element} {l : Location}

theorem isTree (h : ReadFrom e l) : Contents.IsTree l.tree :=
  h.tree.isTree (Contents.isTree_empty "")

theorem isSound (h : ReadFrom e l) : l.IsSound :=
  ⟨h.isTree.sound, h.tree.name, h.backends⟩

end Location.ReadFrom

namespace Contents

theorem of_readLocation {before : List Location} {e : Element} {l : Location}
    (h : readLocation before e = .ok l) :
    Location.ReadFrom e l ∧ l.id ∉ before.map Location.id := by
  unfold readLocation at h
  obtain ⟨id, hattribute, h⟩ := bind_eq_ok h
  simp only [bind, Except.bind, corrupt, pure, Except.pure] at h
  split at h
  · cases h
  · rename_i hnew
    split at h
    · cases h
    · rename_i m hm
      split at h
      · cases h
      · rename_i tree htree
        injection h with h
        subst h
        obtain ⟨hbackends, hid, hparent⟩ :=
          of_addBackends hm ⟨List.nodup_nil, by simp⟩
        obtain rfl : m.id = id := hid
        have hnew : findLocation? before m.id = none := by simpa using hnew
        exact ⟨⟨required_eq_ok_iff.1 hattribute, hparent, hbackends,
          fills_of_addElements _ htree⟩, Keyed.find?_key_eq_none_iff.1 hnew⟩

theorem of_readLocations {before ls : List Location} {es : List Element}
    (h : readLocations before es = .ok ls)
    (hn : (before.map Location.id).Nodup) :
    (ls.map Location.id).Nodup ∧
      ∃ new, ls = before ++ new ∧ List.Forall₂ Location.ReadFrom es new := by
  induction es generalizing before with
  | nil =>
    injection h with h
    subst h
    exact ⟨hn, [], (List.append_nil _).symm, .nil⟩
  | cons e es ih =>
    obtain ⟨l, hl, h⟩ := bind_eq_ok h
    obtain ⟨hloc, hnew⟩ := of_readLocation hl
    obtain ⟨hids, new, rfl, hall⟩ := ih h (Keyed.nodup_map_concat hn hnew)
    exact ⟨hids, l :: new, by simp, .cons hloc hall⟩

/-! ## The number of the next write -/

theorem foldl_max_le_iff {ns : List Nat} {start bound : Nat} :
    ns.foldl max start ≤ bound ↔ start ≤ bound ∧ ∀ n ∈ ns, n ≤ bound := by
  induction ns generalizing start with
  | nil => simp
  | cons n ns ih =>
    rw [List.foldl_cons, ih, List.forall_mem_cons, Nat.max_le, and_assoc]

/-- The last number is the least bound of all numbers in use. -/
theorem lastRevision_le_iff {locations : List Location}
    (hs : ∀ l ∈ locations, l.tree.Sound) {bound : Nat} :
    lastRevision locations ≤ bound ↔
      ∀ l ∈ locations, ∀ path e, l.tree.get? path = some e →
        ∀ r ∈ e.revisions, r.id ≤ bound := by
  rw [lastRevision, foldl_max_le_iff]
  constructor
  · rintro ⟨-, h⟩ l hl path e he r hr
    refine h r.id (List.mem_map.2 ⟨r, List.mem_flatMap.2 ⟨e, ?_, hr⟩, rfl⟩)
    refine List.mem_flatMap.2 ⟨l, hl, List.mem_map.2 ⟨(path, e), ?_, rfl⟩⟩
    exact (hs l hl).mem_allEntries_iff.2 he
  · intro h
    refine ⟨Nat.zero_le _, ?_⟩
    intro n hn
    obtain ⟨r, hr, rfl⟩ := List.mem_map.1 hn
    obtain ⟨e, he, hr⟩ := List.mem_flatMap.1 hr
    obtain ⟨l, hl, he⟩ := List.mem_flatMap.1 he
    obtain ⟨x, hx, rfl⟩ := List.mem_map.1 he
    exact h l hl x.1 x.2 ((hs l hl).mem_allEntries_iff.1 hx) r hr

/-- The last number is in use, if there is one. -/
theorem exists_id_eq_lastRevision {locations : List Location}
    (hs : ∀ l ∈ locations, l.tree.Sound) (hpos : 0 < lastRevision locations) :
    ∃ l ∈ locations, ∃ path e, l.tree.get? path = some e ∧
      ∃ r ∈ e.revisions, r.id = lastRevision locations := by
  have hnot : ¬ lastRevision locations ≤ lastRevision locations - 1 := by omega
  rw [lastRevision_le_iff hs] at hnot
  push Not at hnot
  obtain ⟨l, hl, path, e, he, r, hr, hlt⟩ := hnot
  have hle := (lastRevision_le_iff hs).1 (Nat.le_refl _) l hl path e he r hr
  exact ⟨l, hl, path, e, he, r, hr, by omega⟩

/-- The number of the next write that a document states.  It is the first one
if the document leaves it out. -/
def Stated (root : Element) (n : Nat) : Prop :=
  match root.attribute? "next-revision" with
  | none => n = 1
  | some text => wordOf? text = some n

theorem Stated.le {root : Element} {n : Nat} (h : Stated root n) :
    n ≤ Numeral.maxWord := by
  unfold Stated at h
  split at h
  · rw [h]
    decide
  · exact wordOf?_le h

theorem Stated.unique {root : Element} {m n : Nat} (hm : Stated root m)
    (hn : Stated root n) : m = n := by
  unfold Stated at hm hn
  split at hm
  · rename_i hnone
    rw [hnone] at hn
    exact hm.trans hn.symm
  · rename_i text htext
    rw [htext] at hn
    exact Option.some.inj (hm.symm.trans hn)

/-- The number of the next write is the one that is stated, unless the last
one is not below it. -/
theorem of_readNextRevision {root : Element} {locations : List Location}
    {n : Nat} (h : readNextRevision root locations = .ok n) :
    lastRevision locations ≠ Numeral.maxWord ∧
      ∃ stated, Stated root stated ∧
        n = max stated (lastRevision locations + 1) := by
  have hnext : ∀ stated : Nat,
      (if lastRevision locations = Numeral.maxWord then
        (throw .counterExhausted : Except ArchiveError Nat)
      else pure (max stated (lastRevision locations + 1))) = .ok n →
        lastRevision locations ≠ Numeral.maxWord ∧
          n = max stated (lastRevision locations + 1) := by
    intro stated h
    split at h
    · cases h
    · rename_i hlast
      injection h with h
      exact ⟨hlast, h.symm⟩
  unfold readNextRevision at h
  split at h
  · rename_i hnone
    obtain ⟨hlast, hn⟩ := hnext 1 h
    exact ⟨hlast, 1, by simp [Stated, hnone], hn⟩
  · rename_i text htext
    split at h
    · rename_i m hm
      obtain ⟨hlast, hn⟩ := hnext m h
      exact ⟨hlast, m, by simp [Stated, htext, hm], hn⟩
    · cases h

/-! ## The whole document -/

/-- What the contents of an accepted document have in common. -/
structure IsSound (c : Contents) : Prop where
  ids : (c.locations.map Location.id).Nodup
  locations : ∀ l ∈ c.locations,
    l.IsSound ∧ l.tree.HasHistories c.nextRevision
  links : checkLinks c.locations = .ok ()
  pos : 0 < c.nextRevision
  bound : c.nextRevision ≤ Numeral.maxWord

/-- What the contents have from a document. -/
structure ReadFrom (root : Element) (c : Contents) : Prop where
  kind : root.name = "archive"
  masters : (root.childrenNamed "backend").map (·.attribute? "id") =
    c.masters.map some
  locations : List.Forall₂ Location.ReadFrom (root.childrenNamed "location")
    c.locations
  ids : (c.locations.map Location.id).Nodup
  links : checkLinks c.locations = .ok ()
  current : c.current = root.attribute? "current"
  number : readNextRevision root c.locations = .ok c.nextRevision

theorem of_mapM_required {key : String} {es : List Element}
    {values : List String} (h : es.mapM (required · key) = .ok values) :
    es.map (·.attribute? key) = values.map some := by
  induction es generalizing values with
  | nil =>
    injection h with h
    exact h ▸ rfl
  | cons e es ih =>
    rw [List.mapM_cons] at h
    obtain ⟨value, hvalue, h⟩ := bind_eq_ok h
    obtain ⟨rest, hrest, h⟩ := bind_eq_ok h
    injection h with h
    rw [← h, List.map_cons, List.map_cons, ih hrest,
      required_eq_ok_iff.1 hvalue]

theorem readFrom_ofElement {root : Element} {c : Contents}
    (h : ofElement root = .ok c) : c.ReadFrom root := by
  unfold ofElement at h
  simp only [bind, Except.bind, corrupt, pure, Except.pure] at h
  split at h
  · cases h
  · rename_i hroot
    split at h
    · cases h
    · split at h
      · cases h
      · rename_i masters hmasters
        split at h
        · cases h
        · rename_i locations hlocations
          split at h
          · cases h
          · rename_i hlinks
            split at h
            · cases h
            · rename_i n hn
              injection h with h
              subst h
              obtain ⟨hids, new, rfl, hall⟩ :=
                of_readLocations hlocations List.nodup_nil
              exact ⟨not_not.1 hroot, of_mapM_required hmasters, hall, hids,
                hlinks, rfl, hn⟩

namespace ReadFrom

variable {root : Element} {c : Contents}

/-- Every location has its element. -/
theorem exists_element (h : c.ReadFrom root) {l : Location}
    (hl : l ∈ c.locations) :
    ∃ e ∈ root.childrenNamed "location", Location.ReadFrom e l :=
  exists_mem_of_forall₂ h.locations hl

theorem lastRevision_le (h : c.ReadFrom root) :
    lastRevision c.locations ≤ Numeral.maxWord := by
  have hall : ∀ l ∈ c.locations, IsTree l.tree := by
    intro l hl
    obtain ⟨e, -, hread⟩ := h.exists_element hl
    exact hread.isTree
  rw [lastRevision_le_iff fun l hl => (hall l hl).sound]
  intro l hl path e he r hr
  exact Nat.le_of_lt_succ (((hall l hl).histories path e he).below r hr)

/-- The number of the next write is above the last one, and it is one of
sixty-four bits. -/
theorem lastRevision_lt (h : c.ReadFrom root) :
    lastRevision c.locations < c.nextRevision ∧
      c.nextRevision ≤ Numeral.maxWord := by
  obtain ⟨hlast, stated, hstated, hn⟩ := of_readNextRevision h.number
  have hle := h.lastRevision_le
  have hstated := hstated.le
  omega

theorem isSound (h : c.ReadFrom root) : c.IsSound := by
  obtain ⟨hlt, hle⟩ := h.lastRevision_lt
  have hsound : ∀ l ∈ c.locations, l.IsSound := by
    intro l hl
    obtain ⟨e, -, hread⟩ := h.exists_element hl
    exact hread.isSound
  refine ⟨h.ids, fun l hl => ⟨hsound l hl, ?_⟩, h.links, by omega, hle⟩
  intro path e he
  obtain ⟨x, -, hread⟩ := h.exists_element hl
  refine ⟨(hread.isTree.histories path e he).history, fun r hr => ?_⟩
  have hr := (lastRevision_le_iff fun l hl => (hsound l hl).tree).1
    (Nat.le_refl _) l hl path e he r hr
  exact Nat.lt_of_le_of_lt hr hlt

end ReadFrom

end Contents

namespace Archive

/-! ## The beginning -/

/-- No two locations have one id, and every location is sound. -/
structure WellFormed (a : Archive) : Prop where
  ids : (a.locations.map Location.id).Nodup
  sound : ∀ l ∈ a.locations, l.IsSound

theorem WellFormed.trees {a : Archive} (h : a.WellFormed) :
    ∀ l ∈ a.locations, l.tree.Sound :=
  fun l hl => (h.sound l hl).tree

/-- The contents of a new archive are sound as well. -/
theorem isSound_fresh : fresh.contents.IsSound where
  ids := by simp [contents, fresh]
  locations := by
    intro l hl
    obtain rfl := List.mem_singleton.1 hl
    refine ⟨⟨sound_empty "", rfl, List.nodup_nil, by simp⟩, ?_⟩
    intro path e he
    exact absurd he (by simp [Directory.empty])
  links := by simp [contents, fresh, checkLinks, findLocation?, checkChain]
  pos := by decide
  bound := by decide

variable {a : Archive}

/-- The text of a document gives what the document gives. -/
theorem ofText_document {root : Element} (h : root.IsPlain) :
    ofText root.document = ofContents <$> Contents.ofElement root := by
  unfold ofText
  rw [read_document h]
  rfl

/-- An archive that a text gives has its contents from a document. -/
theorem of_ofText {text : String} (h : ofText text = .ok a) :
    ∃ root c, Xml.Element.read text = .ok root ∧ c.ReadFrom root ∧
      a = ofContents c := by
  obtain ⟨root, hroot, h⟩ := bind_eq_ok h
  obtain ⟨c, hc, rfl⟩ := map_eq_ok h
  refine ⟨root, c, ?_, Contents.readFrom_ofElement hc, rfl⟩
  cases hread : Xml.Element.read text with
  | error e =>
    rw [hread] at hroot
    cases hroot
  | ok r =>
    rw [hread] at hroot
    injection hroot with hroot
    rw [hroot]

theorem IsStart.isSound (h : IsStart a) : a.contents.IsSound := by
  cases h with
  | fresh => exact isSound_fresh
  | read h =>
    obtain ⟨root, c, -, hc, rfl⟩ := of_ofText h
    obtain ⟨hids, hlocations, hlinks, hpos, hbound⟩ := hc.isSound
    exact ⟨hids, hlocations, hlinks, hpos, hbound⟩

theorem IsStart.wellFormed (h : IsStart a) : a.WellFormed :=
  ⟨h.isSound.ids, fun l hl => (h.isSound.locations l hl).1⟩

end Archive

end SettingsArchive
