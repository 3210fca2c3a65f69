import SettingsArchive.Proofs.Forest
import SettingsArchive.Proofs.Instant
import SettingsArchive.Proofs.Value

/-!
# Documents of databases read back

The document of sound contents reads back if every instant has a year of four
digits and what the written instants of a setting stand for is in order.  What is
read are the contents with canonical values and with the instants that are shown
(`ofElement_toElement`).  Without a NaN, and with no leap second that ends no
minute, these are the same (`IsPrintable.canonical_eq`).

Each element is read back by the reader of its kind, from revisions up to
locations.  The readers of directories and locations add what they read to what
they have, so their lemmas speak of what was there before.
-/

namespace SettingsArchive

open Directory Xml
open Xml.Element (HasPlainTag IsPlain hasPlainTag_of_keys)

/-! ## Canonical contents -/

namespace Revision

/-- A revision whose instant and value have a written form that reads back. -/
structure IsPrintable (r : Revision) : Prop where
  year : r.time.HasPlainYear
  minute : r.time.EndsMinute
  numeric : r.value.hasNaN = false

/-- The revision as its written form gives it: with a canonical value, at the
instant that is shown. -/
def canonical (r : Revision) : Revision :=
  { r with time := r.time.shown, value := r.value.canonical }

theorem IsPrintable.canonical_eq {r : Revision} (h : r.IsPrintable) :
    r.canonical = r := by
  rw [canonical, r.value.canonical_of_hasNaN h.numeric,
    Instant.shown_of_endsMinute h.minute]

theorem Precedes.canonical {r s : Revision} (h : r.Precedes s)
    (hshown : r.time.shown ≤ s.time.shown) :
    r.canonical.Precedes s.canonical :=
  ⟨h.id, hshown, by simpa [Revision.canonical] using h.kind⟩

end Revision

namespace Entry

/-- What the written instants of a setting stand for never goes back. -/
def ShownInOrder (e : Entry) : Prop :=
  e.revisions.Pairwise fun r s => r.time.shown ≤ s.time.shown

/-- Where the written instants stand for the instants themselves, they are in
the order of the history. -/
theorem IsHistory.shownInOrder {e : Entry} (h : e.IsHistory)
    (hminutes : ∀ r ∈ e.revisions, r.time.EndsMinute) : e.ShownInOrder := by
  refine List.Pairwise.imp_of_mem ?_ h
  intro r s hr hs hrs
  rw [Instant.shown_of_endsMinute (hminutes r hr),
    Instant.shown_of_endsMinute (hminutes s hs)]
  exact hrs.time

/-- A setting whose revisions have a written form that reads back. -/
structure IsDated (e : Entry) : Prop where
  history : e.IsHistory
  order : e.ShownInOrder
  revisions : ∀ r ∈ e.revisions, r.time.HasPlainYear ∧ r.id ≤ Numeral.maxWord

/-- The setting as its written form gives it. -/
def canonical (e : Entry) : Entry :=
  ⟨e.name, e.past.map Revision.canonical, e.head.canonical⟩

theorem revisions_canonical (e : Entry) :
    e.canonical.revisions = e.revisions.map Revision.canonical := by
  simp [canonical, revisions]

theorem canonical_eq {e : Entry} (h : ∀ r ∈ e.revisions, r.canonical = r) :
    e.canonical = e := by
  have hpast : e.past.map Revision.canonical = e.past :=
    (List.map_congr_left fun r hr =>
      h r (List.mem_append_left _ hr)).trans (List.map_id _)
  rw [canonical, hpast, h e.head e.head_mem_revisions]

theorem IsHistory.canonical {e : Entry} (h : e.IsHistory)
    (horder : e.ShownInOrder) : e.canonical.IsHistory := by
  rw [IsHistory, revisions_canonical, List.pairwise_map]
  exact (List.Pairwise.and h horder).imp fun hboth => hboth.1.canonical hboth.2

theorem IsHistoryBelow.canonical {e : Entry} {bound : Nat}
    (h : e.IsHistoryBelow bound) (horder : e.ShownInOrder) :
    e.canonical.IsHistoryBelow bound := by
  refine ⟨h.history.canonical horder, ?_⟩
  rw [revisions_canonical, List.forall_mem_map]
  exact h.below

end Entry

namespace Location

/-- The location as its written form gives it. -/
def canonical (l : Location) : Location :=
  { l with tree := l.tree.mapEntries Entry.canonical }

theorem get?_canonical (l : Location) (path : Path) :
    l.canonical.tree.get? path = (l.tree.get? path).map Entry.canonical :=
  get?_mapEntries (f := Entry.canonical) (fun _ => rfl) l.tree path

theorem IsSound.canonical {l : Location} (h : l.IsSound) :
    l.canonical.IsSound :=
  ⟨Sound.mapEntries (f := Entry.canonical) (fun _ => rfl) h.tree,
    (name_mapEntries _ _).trans h.root, h.backends⟩

end Location

theorem links_map_canonical (locations : List Location) :
    links (locations.map Location.canonical) = links locations := by
  rw [links, links, List.map_map]
  rfl

namespace Contents

/-- The contents as their document gives them. -/
def canonical (c : Contents) : Contents :=
  { c with locations := c.locations.map Location.canonical }

/-- Contents whose settings have instants that read back in their order. -/
def IsDated (c : Contents) : Prop :=
  ∀ l ∈ c.locations, ∀ x ∈ l.tree.allEntries, x.2.ShownInOrder ∧
    ∀ r ∈ x.2.revisions, r.time.HasPlainYear

/-- Sound contents are sound as their document gives them. -/
theorem IsSound.canonical {c : Contents} (h : c.IsSound)
    (hdated : c.IsDated) : c.canonical.IsSound := by
  have hids : (c.locations.map Location.canonical).map Location.id =
      c.locations.map Location.id := by
    rw [List.map_map]
    rfl
  have hlinks := links_map_canonical c.locations
  obtain ⟨hdefault, hheights⟩ := of_checkLinks h.links
  refine ⟨hids ▸ h.ids, ?_, ?_, h.pos, h.bound⟩
  · intro m hm
    obtain ⟨l, hl, rfl⟩ := List.mem_map.1 hm
    obtain ⟨hsound, hhistories⟩ := h.locations l hl
    refine ⟨hsound.canonical, ?_⟩
    intro path e he
    rw [Location.get?_canonical] at he
    obtain ⟨e, hget, rfl⟩ := Option.map_eq_some_iff.1 he
    have hmem := hsound.tree.mem_allEntries_iff (x := (path, e)) |>.2 hget
    exact (hhistories path e hget).canonical (hdated l hl _ hmem).1
  · exact checkLinks_eq_ok (hids ▸ h.ids) (hlinks ▸ hdefault)
      (hlinks ▸ hheights)

/-! ## Numbers -/

/-- A number of sixty-four bits reads back. -/
theorem wordOf?_toString {n : Nat} (h : n ≤ Numeral.maxWord) :
    wordOf? (toString n) = some n := by
  rw [wordOf?, Nat.toString_eq_repr, Nat.toList_repr,
    Numeral.readNat_toDigits h]
  rfl

/-! ## The elements of a directory -/

/-- The element of a directory. -/
def directoryElement (d : Directory) : Element :=
  { name := "dir", attributes := [("name", d.name)],
    children := directoryElements d }

theorem childElements_eq_map (ds : List Directory) :
    childElements ds = ds.map directoryElement := by
  induction ds with
  | nil => rfl
  | cons d ds ih =>
    rw [childElements, ih]
    rfl

/-- What a directory holds has the elements of its entries and of its
directories. -/
theorem mem_directoryElements_iff {d : Directory} {c : Element} :
    c ∈ directoryElements d ↔ (∃ e ∈ d.entries, entryElement e = c) ∨
      ∃ s ∈ d.directories, directoryElement s = c := by
  obtain ⟨name, entries, directories⟩ := d
  rw [directoryElements, childElements_eq_map, List.mem_append, List.mem_map,
    List.mem_map]

/-! ## Plain documents -/

theorem isPlain_backendElement (backend : String) :
    (backendElement backend).IsPlain :=
  .intro (hasPlainTag_of_keys "backend" ["id"] rfl rfl (by decide))
    (Or.inr rfl) (by simp)

theorem isPlain_revisionElement (r : Revision) :
    (revisionElement r).IsPlain := by
  have htag : (revisionElement r).HasPlainTag := by
    cases hs : r.superseded with
    | true =>
      exact hasPlainTag_of_keys "revision"
        ["id", "timestamp", "mask", "superseded"] rfl
        (by simp [revisionElement, hs]) (by decide)
    | false =>
      exact hasPlainTag_of_keys "revision" ["id", "timestamp", "mask"] rfl
        (by simp [revisionElement, hs]) (by decide)
  refine .intro htag (Or.inr rfl) ?_
  intro c hc
  obtain rfl := List.mem_singleton.1 hc
  exact Value.isPlain_writeOnto r.value
    (hasPlainTag_of_keys "value" [] rfl rfl (by decide)) rfl rfl

theorem isPlain_entryElement (e : Entry) : (entryElement e).IsPlain := by
  refine .intro (hasPlainTag_of_keys "entry" ["name"] rfl rfl (by decide))
    (Or.inr rfl) ?_
  intro c hc
  obtain ⟨r, -, rfl⟩ := List.mem_map.1 hc
  exact isPlain_revisionElement r

mutual

theorem isPlain_directoryElements (d : Directory) :
    ∀ c ∈ directoryElements d, c.IsPlain := by
  obtain ⟨name, entries, directories⟩ := d
  intro c hc
  rw [directoryElements] at hc
  rcases List.mem_append.1 hc with hc | hc
  · obtain ⟨e, -, rfl⟩ := List.mem_map.1 hc
    exact isPlain_entryElement e
  · exact isPlain_childElements directories c hc

theorem isPlain_childElements (ds : List Directory) :
    ∀ c ∈ childElements ds, c.IsPlain := by
  intro c hc
  cases ds with
  | nil => simp [childElements] at hc
  | cons d ds =>
    rcases List.mem_cons.1 hc with rfl | hc
    · exact .intro (hasPlainTag_of_keys "dir" ["name"] rfl rfl (by decide))
        (Or.inr rfl) (isPlain_directoryElements d)
    · exact isPlain_childElements ds c hc

end

theorem isPlain_locationElement (l : Location) :
    (locationElement l).IsPlain := by
  have htag : (locationElement l).HasPlainTag := by
    cases hp : l.parent with
    | none =>
      exact hasPlainTag_of_keys "location" ["id"] rfl
        (by simp [locationElement, hp]) (by decide)
    | some parent =>
      exact hasPlainTag_of_keys "location" ["id", "parent"] rfl
        (by simp [locationElement, hp]) (by decide)
  refine .intro htag (Or.inr rfl) ?_
  intro c hc
  rcases List.mem_append.1 hc with hc | hc
  · obtain ⟨backend, -, rfl⟩ := List.mem_map.1 hc
    exact isPlain_backendElement backend
  · exact isPlain_directoryElements l.tree c hc

/-- The document of any contents is plain. -/
theorem isPlain_toElement (c : Contents) : c.toElement.IsPlain := by
  have htag : c.toElement.HasPlainTag := by
    cases hc : c.current with
    | none =>
      exact hasPlainTag_of_keys "archive" ["version", "next-revision"] rfl
        (by simp [toElement, hc]) (by decide)
    | some current =>
      exact hasPlainTag_of_keys "archive"
        ["version", "current", "next-revision"] rfl
        (by simp [toElement, hc]) (by decide)
  refine .intro htag (Or.inr rfl) ?_
  intro e he
  rcases List.mem_append.1 he with he | he
  · obtain ⟨backend, -, rfl⟩ := List.mem_map.1 he
    exact isPlain_backendElement backend
  · obtain ⟨l, -, rfl⟩ := List.mem_map.1 he
    exact isPlain_locationElement l

/-! ## Revisions and entries -/

/-- A revision reads back. -/
theorem readRevision_revisionElement (entry : String) {r : Revision}
    (h : r.time.HasPlainYear) (hid : r.id ≤ Numeral.maxWord) :
    readRevision entry (revisionElement r) = .ok r.canonical := by
  have hidText : required (revisionElement r) "id" = .ok (toString r.id) := rfl
  have htimeText : required (revisionElement r) "timestamp" =
      .ok r.time.rfc3339 := rfl
  have hmask : maskOf (revisionElement r) = .ok r.mask := by
    have hname : (revisionElement r).attribute? "mask" = some r.mask.name := rfl
    rw [maskOf, hname]
    simp only [Mask.ofName?_name]
  have hvalue : (revisionElement r).childrenNamed "value" =
      [r.value.writeOnto { name := "value" }] := by
    have hname := Value.name_writeOnto { name := "value" } r.value
    simp [Element.childrenNamed, revisionElement, hname]
  have hsuperseded : ((revisionElement r).attribute? "superseded" ==
      some "true") = r.superseded := by
    cases hs : r.superseded <;>
      simp [Element.attribute?, revisionElement, hs]
  have htime := Instant.readRfc3339_rfc3339Chars r.time h
  have hread := Value.ofElement_writeOnto r.value { name := "value" } rfl
  unfold readRevision
  simp only [bind, Except.bind, hidText, htimeText, hmask, hvalue, hsuperseded,
    wordOf?_toString hid, Instant.rfc3339, String.toList_ofList, htime, hread]
  rfl

theorem checkOrder_of_precedes (entry : String) {p r : Revision}
    (h : p.Precedes r) : checkOrder entry (some p) r = .ok () := by
  have horder : ¬ (r.id ≤ p.id ∨ r.time < p.time) := by
    rw [not_or, Instant.not_lt, Nat.not_le]
    exact ⟨h.id, h.time⟩
  rw [checkOrder, if_neg horder, if_neg (not_not.2 h.kind.symm)]

/-- The revisions of a history read back behind the one before them. -/
theorem readRevisions_map (entry : String) {rs : List Revision}
    (hpairs : (rs.map Revision.canonical).Pairwise Revision.Precedes)
    (hall : ∀ r ∈ rs, r.time.HasPlainYear ∧ r.id ≤ Numeral.maxWord)
    {before : Option Revision}
    (hbefore : ∀ p ∈ before, ∀ r ∈ rs, p.Precedes r.canonical) :
    readRevisions entry before (rs.map revisionElement) =
      .ok (rs.map Revision.canonical) := by
  induction rs generalizing before with
  | nil => rfl
  | cons r rs ih =>
    rw [List.map_cons, List.pairwise_cons] at hpairs
    obtain ⟨hdated, hid⟩ := hall r List.mem_cons_self
    have hread := readRevision_revisionElement entry hdated hid
    have horder : checkOrder entry before r.canonical = .ok () := by
      cases before with
      | none => rfl
      | some p =>
        exact checkOrder_of_precedes entry (hbefore p rfl r List.mem_cons_self)
    have hrest : readRevisions entry (some r.canonical)
        (rs.map revisionElement) = .ok (rs.map Revision.canonical) := by
      apply ih hpairs.2 fun s hs => hall s (List.mem_cons_of_mem _ hs)
      intro p hp s hs
      obtain rfl : r.canonical = p := Option.some.inj hp
      exact hpairs.1 s.canonical (List.mem_map_of_mem hs)
    rw [List.map_cons, readRevisions]
    simp only [bind, Except.bind, hread, horder, hrest]
    rfl

/-- A setting reads back. -/
theorem readEntry_entryElement {e : Entry} (hname : Path.isSegment e.name)
    (h : e.IsDated) : readEntry (entryElement e) = .ok e.canonical := by
  have hnameText : required (entryElement e) "name" = .ok e.name := rfl
  have hchildren : (entryElement e).childrenNamed "revision" =
      e.revisions.map revisionElement := by
    apply List.filter_eq_self.2
    intro c hc
    obtain ⟨r, -, rfl⟩ := List.mem_map.1 hc
    rfl
  have hread : readRevisions e.name none (e.revisions.map revisionElement) =
      .ok e.canonical.revisions := by
    have hhistory := h.history.canonical h.order
    rw [Entry.IsHistory, Entry.revisions_canonical] at hhistory
    rw [Entry.revisions_canonical]
    exact readRevisions_map e.name hhistory h.revisions (by simp)
  have hentry : Entry.ofRevisions? e.name e.canonical.revisions =
      some e.canonical := e.canonical.ofRevisions?_revisions
  unfold readEntry
  simp only [bind, Except.bind, hnameText, hname, hchildren, hread, hentry,
    Bool.not_true, Bool.false_eq_true, if_false]
  rfl

/-! ## Directories -/

theorem addElements_append (above : Path) (d : Directory)
    (es fs : List Element) :
    addElements above d (es ++ fs) =
      addElements above d es >>= fun d => addElements above d fs := by
  induction es generalizing d with
  | nil => rfl
  | cons e es ih =>
    rw [List.cons_append, addElements, addElements]
    cases addElement above d e with
    | error fault => rfl
    | ok d => exact ih d

/-- Entries read back behind those that are there. -/
theorem addElements_entries (above : Path) {d : Directory} {es : List Entry}
    (hn : ((d.entries ++ es).map Entry.name).Nodup)
    (hsegments : ∀ e ∈ es, Path.isSegment e.name)
    (hall : ∀ e ∈ es, e.IsDated) :
    addElements above d (es.map entryElement) =
      .ok { d with entries := d.entries ++ es.map Entry.canonical } := by
  induction es generalizing d with
  | nil =>
    obtain ⟨name, entries, directories⟩ := d
    simp [addElements]
  | cons e es ih =>
    have hread := readEntry_entryElement (hsegments e List.mem_cons_self)
      (hall e List.mem_cons_self)
    have hnew : d.getOwn? e.name = none :=
      Keyed.find?_key_eq_none_iff.2 (Keyed.key_notMem_of_nodup hn)
    have hnew : d.getOwn? e.canonical.name = none := hnew
    have hadd : addElement above d (entryElement e) =
        .ok { d with entries := d.entries ++ [e.canonical] } := by
      have hentry : entryElement e =
          ⟨"entry", [("name", e.name)], e.revisions.map revisionElement, ""⟩ :=
        rfl
      rw [hentry] at hread ⊢
      rw [addElement, if_pos rfl]
      simp only [bind, Except.bind, hread, hnew, Option.isSome_none,
        Bool.false_eq_true, if_false]
      rfl
    have hrest := ih (d := { d with entries := d.entries ++ [e.canonical] })
      (by simpa [Entry.canonical] using hn)
      (fun f hf => hsegments f (List.mem_cons_of_mem _ hf))
      (fun f hf => hall f (List.mem_cons_of_mem _ hf))
    rw [List.map_cons, addElements, hadd]
    apply hrest.trans
    simp

/-- Directories read back behind those that are there, if each one reads back
from what it holds. -/
theorem addElements_map_directoryElement (above : Path) {d : Directory}
    {ds : List Directory} (hn : ((d.directories ++ ds).map Directory.name).Nodup)
    (hsegments : ∀ c ∈ ds, Path.isSegment c.name)
    (hall : ∀ c ∈ ds, addElements (above ++ [c.name]) { name := c.name }
      (directoryElements c) = .ok (c.mapEntries Entry.canonical)) :
    addElements above d (ds.map directoryElement) =
      .ok { d with directories :=
        d.directories ++ ds.map (mapEntries Entry.canonical) } := by
  induction ds generalizing d with
  | nil =>
    obtain ⟨name, entries, directories⟩ := d
    simp [addElements]
  | cons c ds ih =>
    have hnew : d.child? c.name = none :=
      Keyed.find?_key_eq_none_iff.2 (Keyed.key_notMem_of_nodup hn)
    have hadd : addElement above d (directoryElement c) =
        .ok { d with directories :=
          d.directories ++ [c.mapEntries Entry.canonical] } := by
      have hname : required
          ⟨"dir", [("name", c.name)], directoryElements c, ""⟩ "name" =
            .ok c.name := rfl
      have hsegment := hsegments c List.mem_cons_self
      have hread := hall c List.mem_cons_self
      rw [directoryElement, addElement, if_neg (by decide), if_pos rfl]
      simp only [bind, Except.bind, hname, hsegment, hnew, hread,
        Option.isSome_none, Bool.not_true, Bool.or_self, Bool.false_eq_true,
        if_false]
      rfl
    have hrest := ih
      (d := { d with directories :=
        d.directories ++ [c.mapEntries Entry.canonical] })
      (by simpa using hn) (fun f hf => hsegments f (List.mem_cons_of_mem _ hf))
      (fun f hf => hall f (List.mem_cons_of_mem _ hf))
    rw [List.map_cons, addElements, hadd]
    apply hrest.trans
    simp

/-- A tree reads back from its elements. -/
theorem addElements_directoryElements {d : Directory} (h : d.Sound)
    (above : Path) (hall : ∀ x ∈ entriesBelow above d, x.2.IsDated) :
    addElements above { name := d.name } (directoryElements d) =
      .ok (d.mapEntries Entry.canonical) := by
  induction h generalizing above with
  | @intro name entries directories hen hes hdn hds hsound ih =>
    have hentries : ∀ e ∈ entries, e.IsDated := by
      intro e he
      exact hall (above ++ [e.name], e)
        (mem_entriesBelow_iff_or.2 (Or.inl ⟨e, he, rfl⟩))
    have hchildren : ∀ c ∈ directories,
        addElements (above ++ [c.name]) { name := c.name }
          (directoryElements c) = .ok (c.mapEntries Entry.canonical) := by
      intro c hc
      refine ih c hc _ fun x hx => hall x ?_
      exact mem_entriesBelow_iff_or.2 (Or.inr ⟨c, hc, hx⟩)
    have hread := addElements_entries above (d := { name }) hen hes hentries
    rw [directoryElements, childElements_eq_map, addElements_append, hread,
      mapEntries, mapEntriesOfAll_eq_map]
    exact addElements_map_directoryElement above hdn hds hchildren

/-! ## Locations -/

theorem addBackend_eq_ok {l : Location} {backend : String}
    (hvalid : Location.isValidBackend backend) (hnew : backend ∉ l.backends) :
    l.addBackend backend =
      .ok { l with backends := l.backends ++ [backend] } := by
  unfold Location.addBackend Location.registered Location.checkBackend
  rw [if_pos hvalid]
  simp only [bind, Except.bind, hnew, if_false]
  rfl

/-- Backends read back behind those that are registered. -/
theorem addBackends_map {l : Location} {backends : List String}
    (h : Location.HasSoundBackends
      { l with backends := l.backends ++ backends }) :
    addBackends l (backends.map backendElement) =
      .ok { l with backends := l.backends ++ backends } := by
  induction backends generalizing l with
  | nil =>
    obtain ⟨id, parent, tree, backends⟩ := l
    simp [addBackends]
  | cons backend backends ih =>
    have hid : required (backendElement backend) "id" = .ok backend := rfl
    have hadd : l.addBackend backend =
        .ok { l with backends := l.backends ++ [backend] } := by
      refine addBackend_eq_ok (h.2 backend (by simp)) fun hmem => ?_
      exact (List.nodup_append.1 h.1).2.2 backend hmem backend
        List.mem_cons_self rfl
    have hrest := ih (l := { l with backends := l.backends ++ [backend] })
      (by simpa using h)
    rw [List.map_cons, addBackends]
    simp only [bind, Except.bind, hid, hadd, hrest]
    simp

/-- The readers of directories pass over backends. -/
theorem addElements_backends (above : Path) (d : Directory)
    (backends : List String) (es : List Element) :
    addElements above d (backends.map backendElement ++ es) =
      addElements above d es := by
  induction backends with
  | nil => rfl
  | cons backend backends ih =>
    have hadd : addElement above d (backendElement backend) = .ok d := by
      rw [backendElement, addElement, if_neg (by decide), if_neg (by decide)]
    rw [List.map_cons, List.cons_append, addElements, hadd]
    exact ih

theorem name_of_mem_directoryElements {d : Directory} {c : Element}
    (h : c ∈ directoryElements d) : c.name = "entry" ∨ c.name = "dir" := by
  rcases mem_directoryElements_iff.1 h with ⟨e, -, rfl⟩ | ⟨s, -, rfl⟩
  · exact Or.inl rfl
  · exact Or.inr rfl

/-- The backends of a location are told apart from what its tree holds. -/
theorem childrenNamed_locationElement (l : Location) :
    (locationElement l).childrenNamed "backend" =
      l.backends.map backendElement := by
  have hbackends : (l.backends.map backendElement).filter
      (·.name == "backend") = l.backends.map backendElement := by
    apply List.filter_eq_self.2
    intro c hc
    obtain ⟨backend, -, rfl⟩ := List.mem_map.1 hc
    rfl
  have htree : (directoryElements l.tree).filter (·.name == "backend") = [] := by
    apply List.filter_eq_nil_iff.2
    intro c hc
    rcases name_of_mem_directoryElements hc with hname | hname <;>
      simp [hname]
  rw [Element.childrenNamed, locationElement]
  dsimp only
  rw [List.filter_append, hbackends, htree, List.append_nil]

/-- A sound location reads back behind others. -/
theorem readLocation_locationElement {before : List Location} {l : Location}
    (hnew : l.id ∉ before.map Location.id) (h : l.IsSound)
    (hall : ∀ x ∈ l.tree.allEntries, x.2.IsDated) :
    readLocation before (locationElement l) = .ok l.canonical := by
  have hid : required (locationElement l) "id" = .ok l.id := rfl
  have hparent : (locationElement l).attribute? "parent" = l.parent := by
    cases hp : l.parent <;> simp [Element.attribute?, locationElement, hp]
  have hfind : findLocation? before l.id = none :=
    Keyed.find?_key_eq_none_iff.2 hnew
  have hbackends : addBackends { id := l.id, parent := l.parent }
      (l.backends.map backendElement) =
        .ok { id := l.id, parent := l.parent, backends := l.backends } :=
    addBackends_map h.backends
  have htree : addElements [] .empty (locationElement l).children =
      .ok (l.tree.mapEntries Entry.canonical) := by
    have hread := addElements_directoryElements h.tree [] hall
    rw [h.root] at hread
    exact (addElements_backends [] .empty l.backends _).trans hread
  unfold readLocation
  simp only [bind, Except.bind, hid, hparent, hfind,
    childrenNamed_locationElement, hbackends, htree, Option.isSome_none,
    Bool.false_eq_true, if_false]
  rfl

/-- Sound locations read back behind others. -/
theorem readLocations_map {before locations : List Location}
    (hn : ((before ++ locations).map Location.id).Nodup)
    (hsound : ∀ l ∈ locations, l.IsSound)
    (hall : ∀ l ∈ locations, ∀ x ∈ l.tree.allEntries, x.2.IsDated) :
    readLocations before (locations.map locationElement) =
      .ok (before ++ locations.map Location.canonical) := by
  induction locations generalizing before with
  | nil => simp [readLocations]
  | cons l locations ih =>
    have hread := readLocation_locationElement (Keyed.key_notMem_of_nodup hn)
      (hsound l List.mem_cons_self) (hall l List.mem_cons_self)
    have hids : ((before ++ [l.canonical] ++ locations).map
        Location.id).Nodup := by
      simpa [Location.canonical] using hn
    have hrest := ih hids
      (fun m hm => hsound m (List.mem_cons_of_mem _ hm))
      (fun m hm => hall m (List.mem_cons_of_mem _ hm))
    rw [List.map_cons, readLocations]
    simp only [bind, Except.bind, hread, hrest]
    simp

/-! ## The whole document -/

/-- Contents whose settings have a written form that reads back. -/
def IsPrintable (c : Contents) : Prop :=
  ∀ l ∈ c.locations, ∀ x ∈ l.tree.allEntries, ∀ r ∈ x.2.revisions,
    r.IsPrintable

theorem childrenNamed_toElement (c : Contents) :
    c.toElement.childrenNamed "backend" = c.masters.map backendElement ∧
      c.toElement.childrenNamed "location" =
        c.locations.map locationElement := by
  have hfilter (name : String) : c.toElement.childrenNamed name =
      (c.masters.map backendElement).filter (·.name == name) ++
        (c.locations.map locationElement).filter (·.name == name) :=
    List.filter_append ..
  have hbackend : ∀ e ∈ c.masters.map backendElement, e.name = "backend" := by
    intro e he
    obtain ⟨backend, -, rfl⟩ := List.mem_map.1 he
    rfl
  have hlocation :
      ∀ e ∈ c.locations.map locationElement, e.name = "location" := by
    intro e he
    obtain ⟨l, -, rfl⟩ := List.mem_map.1 he
    rfl
  constructor
  · rw [hfilter, List.filter_eq_self.2 fun e he => by simp [hbackend e he],
      List.filter_eq_nil_iff.2 fun e he => by simp [hlocation e he],
      List.append_nil]
  · rw [hfilter, List.filter_eq_nil_iff.2 fun e he => by simp [hbackend e he],
      List.filter_eq_self.2 fun e he => by simp [hlocation e he],
      List.nil_append]

theorem mapM_required (backends : List String) :
    (backends.map backendElement).mapM (required · "id") = .ok backends := by
  induction backends with
  | nil => rfl
  | cons backend backends ih =>
    have hid : required (backendElement backend) "id" = .ok backend := rfl
    rw [List.map_cons, List.mapM_cons]
    simp only [bind, Except.bind, hid, ih]
    rfl

/-- The number of the next write reads back if it is above all numbers. -/
theorem readNextRevision_toElement {c : Contents} {locations : List Location}
    (hlast : lastRevision locations < c.nextRevision)
    (hbound : c.nextRevision ≤ Numeral.maxWord) :
    readNextRevision c.toElement locations = .ok c.nextRevision := by
  have hstated : c.toElement.attribute? "next-revision" =
      some (toString c.nextRevision) := by
    cases hc : c.current <;> simp [Element.attribute?, toElement, hc]
  have hne : lastRevision locations ≠ Numeral.maxWord := by omega
  have hmax : max c.nextRevision (lastRevision locations + 1) =
      c.nextRevision := by omega
  unfold readNextRevision
  simp only [bind, Except.bind, hstated, wordOf?_toString hbound, hne, if_false,
    hmax]
  rfl

/-- In sound contents the last number is below that of the next write. -/
theorem IsSound.lastRevision_lt {c : Contents} (h : c.IsSound) :
    lastRevision c.locations < c.nextRevision := by
  have hle : lastRevision c.locations ≤ c.nextRevision - 1 := by
    rw [lastRevision_le_iff fun l hl => (h.locations l hl).1.tree]
    intro l hl path e he r hr
    have := ((h.locations l hl).2 path e he).below r hr
    omega
  have := h.pos
  omega

/-- The document of sound contents reads back, in its canonical form. -/
theorem ofElement_toElement {c : Contents} (h : c.IsSound)
    (hdated : c.IsDated) : ofElement c.toElement = .ok c.canonical := by
  have hentries : ∀ l ∈ c.locations, ∀ x ∈ l.tree.allEntries,
      x.2.IsDated := by
    intro l hl x hx
    obtain ⟨hsound, hhistories⟩ := h.locations l hl
    have hhistory := hhistories x.1 x.2 (hsound.tree.mem_allEntries_iff.1 hx)
    obtain ⟨horder, hyears⟩ := hdated l hl x hx
    refine ⟨hhistory.history, horder, fun r hr => ⟨hyears r hr, ?_⟩⟩
    have := hhistory.below r hr
    have := h.bound
    omega
  have hname : c.toElement.name = "archive" := rfl
  have hversion : checkVersion c.toElement = .ok () := by
    have htext : c.toElement.attribute? "version" = some "1" := rfl
    rw [checkVersion, htext]
    rfl
  have hcurrent : c.toElement.attribute? "current" = c.current := by
    cases hc : c.current <;> simp [Element.attribute?, toElement, hc]
  obtain ⟨hbackend, hlocation⟩ := childrenNamed_toElement c
  have hread : readLocations [] (c.locations.map locationElement) =
      .ok c.canonical.locations :=
    readLocations_map h.ids (fun l hl => (h.locations l hl).1) hentries
  have hcanonical := h.canonical hdated
  have hnumber := readNextRevision_toElement hcanonical.lastRevision_lt h.bound
  unfold ofElement
  simp only [bind, Except.bind, hname, hversion, hbackend, hlocation,
    mapM_required, hread, hcanonical.links, ne_eq, not_true, if_false]
  rw [hcurrent]
  have hnumber : readNextRevision c.toElement c.canonical.locations =
      .ok c.nextRevision := hnumber
  simp only [hnumber]
  rfl

theorem IsSound.isDated {c : Contents} (h : c.IsSound) (hp : c.IsPrintable) :
    c.IsDated := by
  intro l hl x hx
  obtain ⟨hsound, hhistories⟩ := h.locations l hl
  have hhistory := hhistories x.1 x.2 (hsound.tree.mem_allEntries_iff.1 hx)
  exact ⟨hhistory.history.shownInOrder fun r hr => (hp l hl x hx r hr).minute,
    fun r hr => (hp l hl x hx r hr).year⟩

theorem IsPrintable.canonical_eq {c : Contents} (h : c.IsPrintable) :
    c.canonical = c := by
  have hlocation : ∀ l ∈ c.locations, l.canonical = l := by
    intro l hl
    have htree : l.tree.mapEntries Entry.canonical = l.tree :=
      @mapEntries_eq_self Entry.canonical [] l.tree fun x hx =>
        Entry.canonical_eq fun r hr => (h l hl x hx r hr).canonical_eq
    rw [Location.canonical, htree]
  rw [canonical, (List.map_congr_left hlocation).trans (List.map_id _)]

end Contents

end SettingsArchive
