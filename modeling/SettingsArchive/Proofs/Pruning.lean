import SettingsArchive.Proofs.Saving

/-!
# Pruned and canonical texts

Saving drops the directories without settings, and a text has the canonical form
of every value.  Neither says more when it is done twice, and they may be done
in either order (`prune_prune`, `prune_mapEntries`).

So an archive and what its saved text gives have one saved text.
`Archive.Agrees` is that relation: two archives that agree cannot be told apart
once both were saved.
-/

namespace SettingsArchive

namespace Directory

/-! ## Pruning twice -/

section Prune

variable (f : Entry → Entry)

mutual

theorem isLive_mapEntries (d : Directory) :
    (d.mapEntries f).isLive = d.isLive := by
  obtain ⟨name, entries, directories⟩ := d
  rw [mapEntries, isLive, isLive, anyLive_mapEntriesOfAll directories,
    List.isEmpty_map]

theorem anyLive_mapEntriesOfAll (ds : List Directory) :
    anyLive (mapEntriesOfAll f ds) = anyLive ds := by
  cases ds with
  | nil => rfl
  | cons d ds =>
    rw [mapEntriesOfAll, anyLive, anyLive, isLive_mapEntries d,
      anyLive_mapEntriesOfAll ds]

end

mutual

/-- Changing entries and pruning may be exchanged. -/
theorem prune_mapEntries (d : Directory) :
    (d.mapEntries f).prune = d.prune.mapEntries f := by
  obtain ⟨name, entries, directories⟩ := d
  rw [mapEntries, prune, prune, mapEntries, pruneAll_mapEntriesOfAll directories]

theorem pruneAll_mapEntriesOfAll (ds : List Directory) :
    pruneAll (mapEntriesOfAll f ds) = mapEntriesOfAll f (pruneAll ds) := by
  cases ds with
  | nil => rfl
  | cons d ds =>
    have hrest := pruneAll_mapEntriesOfAll ds
    rw [mapEntriesOfAll, pruneAll, pruneAll, isLive_mapEntries]
    split
    · rw [mapEntriesOfAll, prune_mapEntries d, hrest]
    · exact hrest

end

end Prune

mutual

theorem isLive_prune (d : Directory) : d.prune.isLive = d.isLive := by
  obtain ⟨name, entries, directories⟩ := d
  rw [prune, isLive, isLive, anyLive_pruneAll directories]

theorem anyLive_pruneAll (ds : List Directory) :
    anyLive (pruneAll ds) = anyLive ds := by
  cases ds with
  | nil => rfl
  | cons d ds =>
    have hrest := anyLive_pruneAll ds
    rw [pruneAll, anyLive]
    split
    · rw [anyLive, isLive_prune d, hrest]
    · rename_i hdead
      rw [hrest, Bool.eq_false_iff.2 hdead, Bool.false_or]

end

mutual

/-- A pruned tree is pruned already. -/
theorem prune_prune (d : Directory) : d.prune.prune = d.prune := by
  obtain ⟨name, entries, directories⟩ := d
  rw [prune, prune, pruneAll_pruneAll directories]

theorem pruneAll_pruneAll (ds : List Directory) :
    pruneAll (pruneAll ds) = pruneAll ds := by
  cases ds with
  | nil => rfl
  | cons d ds =>
    have hrest := pruneAll_pruneAll ds
    rw [pruneAll]
    split
    · rename_i hlive
      rw [pruneAll, isLive_prune, if_pos hlive, prune_prune d, hrest]
    · exact hrest

end

mutual

theorem mapEntries_mapEntries (f g : Entry → Entry) (d : Directory) :
    (d.mapEntries g).mapEntries f = d.mapEntries (f ∘ g) := by
  obtain ⟨name, entries, directories⟩ := d
  rw [mapEntries, mapEntries, mapEntries,
    mapEntriesOfAll_mapEntriesOfAll f g directories, List.map_map]

theorem mapEntriesOfAll_mapEntriesOfAll (f g : Entry → Entry)
    (ds : List Directory) :
    mapEntriesOfAll f (mapEntriesOfAll g ds) = mapEntriesOfAll (f ∘ g) ds := by
  cases ds with
  | nil => rfl
  | cons d ds =>
    rw [mapEntriesOfAll, mapEntriesOfAll, mapEntriesOfAll,
      mapEntries_mapEntries f g d, mapEntriesOfAll_mapEntriesOfAll f g ds]

end

end Directory

/-! ## Canonical documents -/

theorem Revision.canonical_canonical (r : Revision) :
    r.canonical.canonical = r.canonical := by
  simp [canonical, Value.canonical_canonical]

theorem Entry.canonical_canonical (e : Entry) :
    e.canonical.canonical = e.canonical := by
  simp [canonical, Revision.canonical_canonical]

namespace Contents

open Directory

theorem canonical_canonical (c : Contents) :
    c.canonical.canonical = c.canonical := by
  have hentry : Entry.canonical ∘ Entry.canonical = Entry.canonical :=
    funext Entry.canonical_canonical
  have hlocation (l : Location) : l.canonical.canonical = l.canonical := by
    rw [Location.canonical, Location.canonical, mapEntries_mapEntries, hentry]
  rw [canonical, canonical, List.map_map]
  simp [Function.comp_def, hlocation]

theorem revisionElement_canonical (r : Revision) :
    revisionElement r.canonical = revisionElement r := by
  rw [revisionElement, revisionElement, Revision.canonical,
    Value.writeOnto_canonical]
  simp only [Instant.rfc3339, Instant.rfc3339Chars_shown]

theorem entryElement_canonical (e : Entry) :
    entryElement e.canonical = entryElement e := by
  rw [entryElement, entryElement, Entry.revisions_canonical, List.map_map]
  simp [Function.comp_def, revisionElement_canonical, Entry.canonical]

mutual

theorem directoryElements_canonical (d : Directory) :
    directoryElements (d.mapEntries Entry.canonical) = directoryElements d := by
  obtain ⟨name, entries, directories⟩ := d
  rw [mapEntries, directoryElements, directoryElements,
    childElements_canonical directories, List.map_map]
  simp [Function.comp_def, entryElement_canonical]

theorem childElements_canonical (ds : List Directory) :
    childElements (mapEntriesOfAll Entry.canonical ds) = childElements ds := by
  cases ds with
  | nil => rfl
  | cons d ds =>
    rw [mapEntriesOfAll, childElements, childElements, name_mapEntries,
      directoryElements_canonical d, childElements_canonical ds]

end

/-- Canonical contents have the document that the contents have. -/
theorem toElement_canonical (c : Contents) :
    c.canonical.toElement = c.toElement := by
  have hlocation (l : Location) :
      locationElement l.canonical = locationElement l := by
    rw [locationElement, locationElement, Location.canonical,
      directoryElements_canonical]
  rw [toElement, toElement, canonical, List.map_map]
  simp [Function.comp_def, hlocation]

end Contents

namespace Archive

open Directory

variable {a b : Archive}

/-- Two archives have the same contents behind saving. -/
def Agrees (a b : Archive) : Prop :=
  a.pruned.contents.canonical = b.pruned.contents.canonical

theorem Agrees.text (h : a.Agrees b) : a.pruned.text = b.pruned.text := by
  rw [Archive.text, Archive.text, ← Contents.toElement_canonical,
    ← Contents.toElement_canonical b.pruned.contents, h]

theorem Agrees.current (h : a.Agrees b) : a.current = b.current :=
  Option.some.inj (congrArg Contents.current h)

theorem Agrees.masters (h : a.Agrees b) : a.masters = b.masters :=
  congrArg Contents.masters h

theorem Agrees.nextRevision (h : a.Agrees b) :
    a.nextRevision = b.nextRevision :=
  congrArg Contents.nextRevision h

theorem locations_pruned_pruned (a : Archive) :
    a.pruned.pruned.locations = a.pruned.locations := by
  rw [pruned, pruned, List.map_map]
  simp [Function.comp_def, prune_prune]

theorem agrees_pruned (a : Archive) : a.pruned.Agrees a := by
  rw [Agrees, contents, locations_pruned_pruned]
  rfl

/-- Pruned contents are canonical where the contents are. -/
theorem agrees_of_canonical (h : b.contents = a.contents.canonical) :
    b.Agrees a := by
  obtain ⟨locations, current, masters, next, policy, dirty⟩ := b
  obtain ⟨hlocations, hcurrent, rfl, rfl⟩ := Contents.mk.inj h
  obtain rfl : current = a.current := Option.some.inj hcurrent
  obtain rfl : locations = a.locations.map Location.canonical := hlocations
  have htrees : ((a.locations.map Location.canonical).map fun l =>
      { l with tree := l.tree.prune }) =
        a.pruned.locations.map Location.canonical := by
    rw [pruned, List.map_map, List.map_map]
    simp [Function.comp_def, Location.canonical, prune_mapEntries]
  rw [Agrees, ← Contents.canonical_canonical a.pruned.contents]
  simp only [pruned, contents, htrees]
  rfl

/-- Contents whose current location is there are the contents of the archive
that is made of them. -/
theorem contents_ofContents {c : Contents} {id : String}
    (hid : c.current = some id) (h : (findLocation? c.locations id).isSome) :
    (ofContents c).contents = c ∧ (ofContents c).dirty = false := by
  have hfound : c.current.filter
      (fun id => (findLocation? c.locations id).isSome) = some id :=
    Option.filter_eq_some_iff.2 ⟨hid, h⟩
  unfold ofContents
  simp only [hfound, Option.getD_some, Option.isNone_some, Bool.and_false]
  rw [contents, ← hid]
  exact ⟨rfl, trivial⟩

/-- The text of an archive gives an archive with canonical values and nothing to
be saved. -/
theorem exists_ofText_text (h : a.contents.IsSound) (hd : a.contents.IsDated)
    (hcurrent : a.hasLocation a.current) :
    ∃ b, ofText a.text = .ok b ∧ b.contents = a.contents.canonical ∧
      b.dirty = false := by
  have hthere :
      (findLocation? a.contents.canonical.locations a.current).isSome := by
    obtain ⟨l, hl⟩ := hasLocation_iff.1 hcurrent
    have hmap : findLocation? (a.locations.map Location.canonical) a.current =
        some l.canonical := by
      rw [findLocation?_map (g := Location.canonical) fun _ _ => rfl, hl]
      rfl
    exact Option.isSome_iff_exists.2 ⟨_, hmap⟩
  obtain ⟨hcontents, hclean⟩ := contents_ofContents rfl hthere
  exact ⟨_, ofText_text_of_isDated h hd, hcontents, hclean⟩

end Archive

end SettingsArchive
