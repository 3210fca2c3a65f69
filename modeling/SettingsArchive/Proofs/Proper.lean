import SettingsArchive.Proofs.Loading.Entries
import SettingsArchive.Proofs.Saving

/-!
# Proper archives

Operations keep three rules that reading does not ask for: the id of a location
is a valid one, the backends that are registered archive-wide are valid and none
is there twice, and every setting lies below a backend.  An archive that keeps
them is proper.

* Operations lead from proper archives to proper archives, and the new archive
  is proper (`isProper_run`).
* A document gives a proper archive exactly if it keeps the rules itself
  (`Contents.ReadFrom.isProper_iff`), so only the texts of proper documents could
  come from operations.
-/

namespace SettingsArchive

open Directory Xml

/-- Every setting of a tree lies below a backend. -/
def Directory.IsDeep (d : Directory) : Prop :=
  ∀ path e, d.get? path = some e → 2 ≤ path.length

/-- The ids of the locations are valid, so are the backends that are registered
archive-wide, each once, and every setting lies below a backend. -/
structure Archive.IsProper (a : Archive) : Prop where
  ids : ∀ l ∈ a.locations, Location.isValidId l.id
  masters : a.HasSoundMasters
  deep : ∀ l ∈ a.locations, l.tree.IsDeep

/-- A document that keeps the rules of proper archives: the ids of its locations
are valid, so are its backends, each once, and no entry stands in a location
outside all directories. -/
structure Xml.Element.IsProper (root : Element) : Prop where
  ids : ∀ e ∈ root.childrenNamed "location", ∀ id,
    e.attribute? "id" = some id → Location.isValidId id
  distinct : ((root.childrenNamed "backend").map (·.attribute? "id")).Nodup
  masters : ∀ e ∈ root.childrenNamed "backend", ∀ id,
    e.attribute? "id" = some id → Location.isValidBackend id
  entries : ∀ e ∈ root.childrenNamed "location",
    ∀ x ∈ e.children, x.name ≠ "entry"

/-! ## Deep trees -/

namespace Directory

/-- A deep tree has no entry in front of its directories. -/
theorem IsDeep.entries_eq_nil {d : Directory} (h : d.IsDeep) :
    d.entries = [] := by
  cases hd : d.entries with
  | nil => rfl
  | cons e es =>
    have hget : d.get? [e.name] = some e := by
      rw [get?_singleton, getOwn?, hd, List.find?_cons_of_pos (by simp)]
    have hlength := h [e.name] e hget
    simp at hlength

/-- Edits keep a tree deep if their places are. -/
theorem Edit.isDeep {anchored : Prop} {time? : Option Instant}
    {places : Path → Prop} {next next' : Nat} {d d' : Directory}
    (h : Edit anchored time? places next next' d d') (hd : d.Sound)
    (hdeep : d.IsDeep) (hplaces : ∀ path, places path → 2 ≤ path.length) :
    d'.IsDeep := by
  intro path e he
  rcases h.sublist_or_write hd with
    hsub | ⟨time, mask, items, hw, -, -, hplaced, -⟩
  · obtain ⟨old, hold, -⟩ := hsub path e he
    exact hdeep path old hold
  · rcases hw.mem_or_exists he with hmem | ⟨old, hold⟩
    · exact hplaces path (hplaced path hmem)
    · exact hdeep path old hold

end Directory

/-- In the document of a deep tree no entry stands in front. -/
theorem Contents.name_of_mem_directoryElements_of_deep {d : Directory}
    (h : d.IsDeep) {x : Element} (hx : x ∈ directoryElements d) :
    x.name = "dir" := by
  rcases mem_directoryElements_iff.1 hx with ⟨e, he, rfl⟩ | ⟨s, -, rfl⟩
  · simp [h.entries_eq_nil] at he
  · rfl

/-! ## Proper documents -/

namespace Contents

/-- A tree from a document is deep if no entry stands in front of it. -/
theorem isDeep_iff {e : Element} {l : Location} (h : Location.ReadFrom e l) :
    l.tree.IsDeep ↔ ∀ x ∈ e.children, x.name ≠ "entry" := by
  constructor
  · intro hdeep x hx hkind
    have hholds : Holds e.children [] x := .here hx hkind
    obtain ⟨entry, hread⟩ := h.tree.exists_readEntry hholds
    have hlength := hdeep [entry.name] entry
      (h.get?_eq_some_iff.2 ⟨[], x, hholds, hread, rfl⟩)
    simp at hlength
  · intro hentries path entry hget
    obtain ⟨above, x, hholds, -, rfl⟩ := h.get?_eq_some_iff.1 hget
    cases hholds with
    | here mem kind => exact absurd kind (hentries x mem)
    | inside => simp

namespace ReadFrom

variable {root : Element} {c : Contents}

theorem ids_iff (h : c.ReadFrom root) :
    (∀ l ∈ c.locations, Location.isValidId l.id) ↔
      ∀ e ∈ root.childrenNamed "location", ∀ id,
        e.attribute? "id" = some id → Location.isValidId id := by
  constructor
  · intro hids e he id hid
    obtain ⟨l, hl, hread⟩ := exists_mem_of_forall₂ h.locations.flip he
    obtain rfl := Option.some.inj (hread.id.symm.trans hid)
    exact hids l hl
  · intro hids l hl
    obtain ⟨e, he, hread⟩ := h.exists_element hl
    exact hids e he l.id hread.id

theorem masters_iff (h : c.ReadFrom root) :
    (Archive.ofContents c).HasSoundMasters ↔
      ((root.childrenNamed "backend").map (·.attribute? "id")).Nodup ∧
        ∀ e ∈ root.childrenNamed "backend", ∀ id,
          e.attribute? "id" = some id → Location.isValidBackend id := by
  have hmem (id : String) : id ∈ c.masters ↔
      ∃ e ∈ root.childrenNamed "backend", e.attribute? "id" = some id := by
    rw [← List.mem_map, h.masters]
    simp
  rw [h.masters, List.nodup_map_iff (Option.some_injective String)]
  refine and_congr_right fun _ => ⟨?_, ?_⟩
  · intro hall e he id hid
    exact hall id ((hmem id).2 ⟨e, he, hid⟩)
  · intro hall id hid
    obtain ⟨e, he, hattribute⟩ := (hmem id).1 hid
    exact hall e he id hattribute

theorem deep_iff (h : c.ReadFrom root) :
    (∀ l ∈ c.locations, l.tree.IsDeep) ↔
      ∀ e ∈ root.childrenNamed "location", ∀ x ∈ e.children,
        x.name ≠ "entry" := by
  constructor
  · intro hdeep e he
    obtain ⟨l, hl, hread⟩ := exists_mem_of_forall₂ h.locations.flip he
    exact (isDeep_iff hread).1 (hdeep l hl)
  · intro hentries l hl
    obtain ⟨e, he, hread⟩ := h.exists_element hl
    exact (isDeep_iff hread).2 (hentries e he)

/-- A document gives a proper archive exactly if it is proper. -/
theorem isProper_iff (h : c.ReadFrom root) :
    (Archive.ofContents c).IsProper ↔ root.IsProper := by
  constructor
  · rintro ⟨hids, hmasters, hdeep⟩
    obtain ⟨hdistinct, hvalid⟩ := h.masters_iff.1 hmasters
    exact ⟨h.ids_iff.1 hids, hdistinct, hvalid, h.deep_iff.1 hdeep⟩
  · rintro ⟨hids, hdistinct, hvalid, hentries⟩
    exact ⟨h.ids_iff.2 hids, h.masters_iff.2 ⟨hdistinct, hvalid⟩,
      h.deep_iff.2 hentries⟩

end ReadFrom

end Contents

namespace Archive

variable {a b : Archive} {anchored : Prop} {time? : Option Instant}

/-! ## The archive's own text -/

/-- In the document of deep trees no entry stands in front. -/
theorem name_ne_entry_of_deep (h : ∀ l ∈ a.locations, l.tree.IsDeep) :
    ∀ e ∈ a.contents.toElement.childrenNamed "location",
      ∀ x ∈ e.children, x.name ≠ "entry" := by
  rw [(Contents.childrenNamed_toElement a.contents).2]
  intro e he x hx
  obtain ⟨l, hl, rfl⟩ := List.mem_map.1 he
  rcases List.mem_append.1 hx with hx | hx
  · obtain ⟨backend, -, rfl⟩ := List.mem_map.1 hx
    simp [Contents.backendElement]
  · simp [Contents.name_of_mem_directoryElements_of_deep (h l hl) hx]

/-- The document of a proper archive is proper. -/
theorem IsProper.toElement (h : a.IsProper) :
    a.contents.toElement.IsProper := by
  obtain ⟨hbackend, hlocation⟩ := Contents.childrenNamed_toElement a.contents
  obtain ⟨hn, hvalid⟩ := h.masters
  have hid (id : String) :
      (Contents.backendElement id).attribute? "id" = some id := rfl
  refine ⟨?_, ?_, ?_, name_ne_entry_of_deep h.deep⟩
  · rw [hlocation]
    intro e he id hattribute
    obtain ⟨l, hl, rfl⟩ := List.mem_map.1 he
    obtain rfl : l.id = id := Option.some.inj hattribute
    exact h.ids l hl
  · rw [hbackend, List.map_map]
    exact hn.map fun x y hxy => Option.some.inj hxy
  · rw [hbackend]
    intro e he id hattribute
    obtain ⟨backend, hb, rfl⟩ := List.mem_map.1 he
    obtain rfl : backend = id := Option.some.inj hattribute
    exact hvalid backend hb

/-! ## Operations -/

/-- A step keeps trees deep. -/
theorem Step.deep (h : Step anchored time? a b) (ha : a.WellFormed)
    (hdeep : ∀ l ∈ a.locations, l.tree.IsDeep) :
    ∀ l ∈ b.locations, l.tree.IsDeep := by
  refine h.forall_tree (P := fun _ d => d.IsDeep) hdeep ?_ ?_ ?_
  · intro path e he
    simp [Directory.empty] at he
  · intro _ l hl d hedit
    refine hedit.isDeep (ha.sound l hl).tree (hdeep l hl) ?_
    rintro path (hplace | ⟨m, hm, e, he⟩)
    · exact hplace
    · exact hdeep m hm path e he
  · intro c hc
    obtain ⟨c, hread, rfl⟩ := of_ofText_text hc
    exact hread.deep_iff.2 (name_ne_entry_of_deep hdeep)

/-- A step leads from a proper archive to a proper archive. -/
theorem Step.isProper (h : Step anchored time? a b) (ha : a.WellFormed)
    (hp : a.IsProper) : b.IsProper := by
  refine ⟨?_, ?_, h.deep ha hp.deep⟩
  · cases h with
    | edit locations =>
      intro m hm
      obtain ⟨l, hl, hlm⟩ := exists_mem_of_forall₂ locations hm
      exact hlm.id ▸ hp.ids l hl
    | add valid =>
      exact List.forall_mem_append.2
        ⟨hp.ids, List.forall_mem_singleton.2 valid⟩
    | @link id l parent _ found =>
      intro m hm
      obtain ⟨x, hx, rfl⟩ := List.mem_map.1 hm
      split
      · exact hp.ids l (mem_of_findLocation? found).1
      · exact hp.ids x hx
    | rename _ valid =>
      intro m hm
      obtain ⟨l, hl, rfl⟩ := List.mem_map.1 hm
      show Location.isValidId (renamed _ _ l.id)
      unfold renamed
      split
      · exact valid
      · exact hp.ids l hl
    | remove =>
      intro l hl
      exact hp.ids l (List.mem_filter.1 hl).1
    | read own =>
      obtain ⟨c, hread, rfl⟩ := of_ofText_text own
      exact (hread.isProper_iff.2 hp.toElement).ids
  · cases h with
    | edit _ _ masters => exact masters hp.masters
    | add => exact hp.masters
    | link => exact hp.masters
    | rename => exact hp.masters
    | remove => exact hp.masters
    | read own =>
      obtain ⟨c, hread, rfl⟩ := of_ofText_text own
      exact (hread.isProper_iff.2 hp.toElement).masters

/-- Operations lead from a proper archive to proper archives. -/
theorem isProper_run (ha : a.WellFormed) (hp : a.IsProper)
    (ops : List Operation) :
    (a.run ops).WellFormed ∧ (a.run ops).IsProper :=
  run_induction_step ha hp fun _ _ _ ha hp hstep => hstep.isProper ha hp

theorem isProper_fresh : fresh.IsProper := by
  refine ⟨by decide, ⟨by decide, by decide⟩, ?_⟩
  intro l hl path e he
  obtain rfl := List.mem_singleton.1 hl
  simp [Directory.empty] at he

/-- A backend that is removed from a proper archive is not there any more. -/
theorem IsProper.notMem_of_removeMaster (h : a.IsProper) {backend : String}
    (hb : a.removeMaster backend = .ok b) : backend ∉ b.masters := by
  obtain ⟨-, rfl⟩ := of_removeMaster hb
  exact h.masters.1.not_mem_erase

/-! ## What reading admits -/

/-- Of the rules of proper archives, reading asks for none: the archive keeps
each of them exactly if the document does.  If it keeps all of them, so does
every archive behind it, and a backend that is removed there is gone.  Whatever
the document, the backends of the locations are sound and every setting has a
valid path. -/
theorem proper_of_ofText {text : String} (h : ofText text = .ok a) :
    ∃ root, Element.read text = .ok root ∧
      ((∀ l ∈ a.locations, Location.isValidId l.id) ↔
        ∀ e ∈ root.childrenNamed "location", ∀ id,
          e.attribute? "id" = some id → Location.isValidId id) ∧
      (a.HasSoundMasters ↔
        ((root.childrenNamed "backend").map (·.attribute? "id")).Nodup ∧
          ∀ e ∈ root.childrenNamed "backend", ∀ id,
            e.attribute? "id" = some id → Location.isValidBackend id) ∧
      ((∀ l ∈ a.locations, l.tree.IsDeep) ↔
        ∀ e ∈ root.childrenNamed "location", ∀ x ∈ e.children,
          x.name ≠ "entry") ∧
      (a.IsProper → ∀ ops, (a.run ops).IsProper ∧
        ∀ backend b, (a.run ops).removeMaster backend = .ok b →
          backend ∉ b.masters) ∧
      ∀ l ∈ a.locations, l.HasSoundBackends ∧
        ∀ path e, l.tree.get? path = some e → path.IsValid := by
  have hwf : a.WellFormed := (IsStart.read h).wellFormed
  obtain ⟨root, c, hroot, hread, rfl⟩ := of_ofText h
  refine ⟨root, hroot, hread.ids_iff, hread.masters_iff, hread.deep_iff, ?_, ?_⟩
  · intro hproper ops
    have hrun := (isProper_run hwf hproper ops).2
    exact ⟨hrun, fun backend b hb => hrun.notMem_of_removeMaster hb⟩
  · intro l hl
    have hsound := hwf.sound l hl
    exact ⟨hsound.backends, fun path e he => hsound.tree.isValid_of_get? he⟩

/-- A document with two backends is proper, and a backend that is removed later
is gone. -/
theorem proper_of_two_masters :
    let b : Archive := { fresh with masters := ["app", "site"] }
    ∃ a, ofText b.text = .ok a ∧ a.masters = ["app", "site"] ∧
      ∀ ops, (a.run ops).IsProper ∧
        ∀ backend b, (a.run ops).removeMaster backend = .ok b →
          backend ∉ b.masters := by
  intro b
  have hsound : b.contents.IsSound :=
    ⟨isSound_fresh.ids, isSound_fresh.locations, isSound_fresh.links,
      isSound_fresh.pos, isSound_fresh.bound⟩
  have hprintable : b.contents.IsPrintable := by
    intro l hl x hx
    obtain rfl := List.mem_singleton.1 hl
    cases hx
  have hload := ofText_text hsound hprintable
  have hproper : (ofContents b.contents).IsProper :=
    ⟨isProper_fresh.ids, ⟨by decide, by decide⟩, isProper_fresh.deep⟩
  obtain ⟨root, -, -, -, -, hrun, -⟩ := proper_of_ofText hload
  exact ⟨_, hload, rfl, hrun hproper⟩

/-- Contents that break all rules: a location without an id, a backend that is
there twice, and a setting without a backend. -/
def improper : Contents :=
  let revision : Revision := ⟨1, .ofSecond 0, .bool true, .keep, false⟩
  { fresh.contents with
    locations :=
      [{ id := defaultId, tree := Directory.empty.write ["key"] revision },
        { id := "" }]
    masters := ["app", "app"] }

/-- A document that breaks all rules is read, and a backend that is removed is
still there. -/
theorem ofText_of_improper :
    let text := improper.toElement.document
    ∃ a, ofText text = .ok a ∧
      (∃ l ∈ a.locations, ¬ Location.isValidId l.id) ∧
      ¬ a.HasSoundMasters ∧ (∃ l ∈ a.locations, ¬ l.tree.IsDeep) ∧
      ∃ b, a.removeMaster "app" = .ok b ∧ "app" ∈ b.masters := by
  intro text
  have hread : (Contents.ofElement improper.toElement).toOption.map
      (fun c => (c.locations.map Location.id,
        c.locations.map fun l => (l.tree.get? ["key"]).isSome, c.masters)) =
      some (["default", ""], [true, false], ["app", "app"]) := by
    decide +kernel
  obtain ⟨c, hc, hfacts⟩ := exists_ok_of_map_toOption hread
  simp only [Prod.mk.injEq] at hfacts
  obtain ⟨hids, htrees, hmasters⟩ := hfacts
  refine ⟨ofContents c, ?_, ?_, ?_, ?_, ?_⟩
  · rw [ofText_document (Contents.isPlain_toElement _), hc]
    rfl
  · obtain ⟨l, hl, hid⟩ := List.mem_map.1
      (show "" ∈ c.locations.map Location.id by rw [hids]; decide)
    exact ⟨l, hl, by rw [hid]; decide⟩
  · rintro ⟨hn, -⟩
    have hn : c.masters.Nodup := hn
    rw [hmasters] at hn
    exact absurd hn (by decide)
  · obtain ⟨l, hl, hsome⟩ := List.mem_map.1
      (show true ∈ c.locations.map fun l => (l.tree.get? ["key"]).isSome by
        rw [htrees]; decide)
    obtain ⟨e, he⟩ := Option.isSome_iff_exists.1 hsome
    exact ⟨l, hl, fun hdeep => absurd (hdeep ["key"] e he) (by decide)⟩
  · have hm : (ofContents c).masters = ["app", "app"] := hmasters
    have hremoved : Location.unregistered (ofContents c).masters "app" .archive =
        .ok ["app"] := by
      rw [hm]
      rfl
    exact ⟨{ ofContents c with masters := ["app"] }.changed,
      by rw [removeMaster, hremoved]; rfl, List.mem_singleton.2 rfl⟩

end Archive

end SettingsArchive
