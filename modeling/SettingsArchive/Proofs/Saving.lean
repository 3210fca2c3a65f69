import SettingsArchive.Proofs.Database
import SettingsArchive.Proofs.Numbering

/-!
# Saving and loading

The text of every archive that operations lead to loads as the same archive
(`ofText_text_of_reachable`), if the years of its revisions have four digits,
no revision is dated at a leap second that ends no minute, and no value holds a
NaN.

Reading refuses documents for many reasons, and each one is answered by an
invariant: `Reachable.isSound` collects them.
-/

namespace SettingsArchive.Archive

variable {a b : Archive} {anchored : Prop} {time? : Option Instant}

/-! ## The number of the next write -/

/-- The number of the next write is positive and one of sixty-four bits. -/
structure HasNumber (a : Archive) : Prop where
  pos : 0 < a.nextRevision
  bound : a.nextRevision ≤ Numeral.maxWord

theorem IsStart.hasNumber (h : IsStart a) : a.HasNumber :=
  ⟨h.isSound.pos, h.isSound.bound⟩

theorem Step.hasNumber (h : Step anchored time? a b) (hn : a.HasNumber) :
    b.HasNumber := by
  obtain ⟨hpos, hbound⟩ := hn
  cases h with
  | edit _ _ _ counter => exact ⟨by omega, by omega⟩
  | add => exact ⟨hpos, hbound⟩
  | link => exact ⟨hpos, hbound⟩
  | rename => exact ⟨hpos, hbound⟩
  | remove => exact ⟨hpos, hbound⟩
  | read own =>
    obtain ⟨hpos, hbound⟩ := (IsStart.read own).hasNumber
    exact ⟨hpos, hbound⟩

theorem Reachable.hasNumber {allowed : Operation → Prop}
    (h : Reachable allowed a) : a.HasNumber :=
  h.induction_step False nofun (fun _ ha => ha.hasNumber)
    fun _ _ _ _ ha hstep => hstep.hasNumber ha

/-! ## Contents -/

/-- What an archive that operations lead to saves is what reading accepts. -/
theorem Reachable.isSound (h : Reachable Operation.IsAnchored a) :
    a.contents.IsSound where
  ids := h.wellFormed.ids
  locations l hl := ⟨h.wellFormed.sound l hl, h.hasHistories l hl⟩
  links := checkLinks_eq_ok h.wellFormed.ids h.isForest.default
    h.isForest.heights
  pos := h.hasNumber.pos
  bound := h.hasNumber.bound

/-- The contents of an archive give the archive, as it is when it was saved. -/
theorem ofContents_contents (h : a.hasLocation a.current) :
    ofContents a.contents =
      { a with policy := .bestEffort, dirty := false } := by
  have hfound : a.contents.current.filter
      (fun id => (findLocation? a.contents.locations id).isSome) =
        some a.current := Option.filter_eq_some_iff.2 ⟨rfl, h⟩
  unfold ofContents
  simp only [hfound, Option.getD_some, Option.isNone_some, Bool.and_false]
  rfl

/-- The text of sound contents loads, in their canonical form, if their instants
read back in their order. -/
theorem ofText_text_of_isDated (h : a.contents.IsSound)
    (hdated : a.contents.IsDated) :
    ofText a.text = .ok (ofContents a.contents.canonical) := by
  rw [text, ofText_document (Contents.isPlain_toElement _),
    Contents.ofElement_toElement h hdated]
  rfl

/-- The text of sound and printable contents loads. -/
theorem ofText_text (h : a.contents.IsSound)
    (hprintable : a.contents.IsPrintable) :
    ofText a.text = .ok (ofContents a.contents) := by
  have hload := ofText_text_of_isDated h (h.isDated hprintable)
  rwa [hprintable.canonical_eq] at hload

/-- Reading its own text again gives a printable archive back, and it is
clean. -/
theorem perform_reload (h : a.contents.IsSound)
    (hprintable : a.contents.IsPrintable)
    (hcurrent : a.hasLocation a.current) :
    a.perform .reload = { a with dirty := false } := by
  have hload := ofText_text h hprintable
  rw [ofContents_contents hcurrent] at hload
  simp only [perform, reloaded, hload]
  rfl

/-- What the text of an archive gives is read from its document. -/
theorem of_ofText_text (h : ofText a.text = .ok b) :
    ∃ c, c.ReadFrom a.contents.toElement ∧ b = ofContents c := by
  obtain ⟨root, c, hroot, hread, rfl⟩ := of_ofText h
  have hown : Xml.Element.read a.text = .ok a.contents.toElement :=
    Xml.read_document (Contents.isPlain_toElement _)
  obtain rfl := Except.ok.inj (hown.symm.trans hroot)
  exact ⟨c, hread, rfl⟩

/-- Saving and loading an archive that operations lead to keeps all that it
holds: the locations with their directories and histories, the current
location, the backends and the number of the next write.  Nothing is left to be
saved. -/
theorem ofText_text_of_reachable (h : Reachable Operation.IsAnchored a)
    (hyears : ∀ l ∈ a.locations, ∀ path e, (path, e) ∈ l.tree.allEntries →
      ∀ r ∈ e.revisions, 0 ≤ r.time.date.year ∧ r.time.date.year ≤ 9999)
    (hminutes : ∀ l ∈ a.locations, ∀ path e, (path, e) ∈ l.tree.allEntries →
      ∀ r ∈ e.revisions, r.time.EndsMinute)
    (hnumeric : ∀ l ∈ a.locations, ∀ path e, (path, e) ∈ l.tree.allEntries →
      ∀ r ∈ e.revisions, r.value.hasNaN = false) :
    ∃ b, ofText a.text = .ok b ∧ b.locations = a.locations ∧
      b.current = a.current ∧ b.masters = a.masters ∧
      b.nextRevision = a.nextRevision ∧ b.dirty = false := by
  have hprintable : a.contents.IsPrintable := by
    intro l hl x hx r hr
    exact ⟨hyears l hl x.1 x.2 hx r hr, hminutes l hl x.1 x.2 hx r hr,
      hnumeric l hl x.1 x.2 hx r hr⟩
  have hload := ofText_text h.isSound hprintable
  rw [ofContents_contents h.isForest.current] at hload
  exact ⟨_, hload, rfl, rfl, rfl, rfl, rfl⟩

/-- Saving and loading an archive of two locations, where one setting has two
revisions, another one is a struct, and a directory was left without
settings. -/
theorem ofText_text_of_emptied_directory :
    let a := fresh.run [
      .newLocation "site" (some "default"),
      .storeValue "default" "/app/load" (.float ⟨0x3FB999999999999A⟩)
        (.ofSecond 5) .keep,
      .storeValue "default" "/app/load" (.float ⟨0x8000000000000000⟩)
        (.ofSecond 6) .retire,
      .storeDocument "site" "app"
        [("/app/user", .struct [("name", .string "a < b")]),
          ("/app/old/key", .bytes [0, 255])] (.ofSecond 7) .retire,
      .purge "site" "/app/old/key"]
    (a.locations.map fun l => l.tree.allEntries.map Prod.fst) =
        [[["app", "load"]], [["app", "user"]]] ∧
      a.locations.map (·.tree.directoryCount) = [1, 2] ∧
      ∃ b, ofText a.text = .ok b ∧ b.locations = a.locations ∧
        b.current = a.current ∧ b.masters = a.masters ∧
        b.nextRevision = a.nextRevision ∧ b.dirty = false := by
  intro a
  have hallowed : ∀ op ∈ [
      Operation.newLocation "site" (some "default"),
      .storeValue "default" "/app/load" (.float ⟨0x3FB999999999999A⟩)
        (.ofSecond 5) .keep,
      .storeValue "default" "/app/load" (.float ⟨0x8000000000000000⟩)
        (.ofSecond 6) .retire,
      .storeDocument "site" "app"
        [("/app/user", .struct [("name", .string "a < b")]),
          ("/app/old/key", .bytes [0, 255])] (.ofSecond 7) .retire,
      .purge "site" "/app/old/key"], op.IsAnchored := by
    simp only [List.forall_mem_cons, Operation.IsAnchored, true_and]
    exact ⟨⟨⟨_, rfl⟩, ⟨_, rfl⟩, by simp⟩, by simp⟩
  have h : Reachable Operation.IsAnchored a := ⟨fresh, _, .fresh, hallowed, rfl⟩
  have hyears : ∀ l ∈ a.locations, ∀ x ∈ l.tree.allEntries,
      ∀ r ∈ x.2.revisions,
        0 ≤ r.time.date.year ∧ r.time.date.year ≤ 9999 := by decide +kernel
  have hminutes : ∀ l ∈ a.locations, ∀ x ∈ l.tree.allEntries,
      ∀ r ∈ x.2.revisions, r.time.EndsMinute := by decide +kernel
  have hnumeric : ∀ l ∈ a.locations, ∀ x ∈ l.tree.allEntries,
      ∀ r ∈ x.2.revisions, r.value.hasNaN = false := by decide +kernel
  exact ⟨by decide +kernel, by decide +kernel, ofText_text_of_reachable h
    (fun l hl path e he => hyears l hl (path, e) he)
    (fun l hl path e he => hminutes l hl (path, e) he)
    (fun l hl path e he => hnumeric l hl (path, e) he)⟩

end SettingsArchive.Archive
