import SettingsArchive.Proofs.Batch
import SettingsArchive.Proofs.Halfway
import SettingsArchive.Proofs.Pruning
import SettingsArchive.Proofs.Reopening

/-!
# Clean archives

Closing skips the write when an archive is not dirty, so a clean archive must
have nothing to save.  `lastCommitted` follows the text that was last committed
along a run, and `saved_of_run` says that it gives the archive at the end of the
run, if that one is clean.

The invariant of a run is `Saves`: what the text gives agrees with the archive.
An operation that leaves the archive clean has either saved it, pruned it, read
it again or set the policy, or it has changed nothing (`eq_of_clean`).  The last
one asks for deep trees and anchored texts, since otherwise a rollback or a
document may end halfway without a mark.
-/

namespace SettingsArchive.Archive

open Directory

variable {a b : Archive}

/-! ## The text that is committed -/

/-- The text that is committed behind an operation.  Saving commits the text of
the pruned archive, and an archive that was read again has its own text. -/
def committed (a : Archive) (text : String) : Operation → String
  | .flush true => a.pruned.text
  | .reload =>
    match a.reloaded with
    | .ok _ => a.text
    | .error _ => text
  | _ => text

/-- The text that was last committed behind operations. -/
def lastCommitted (a : Archive) (text : String) : List Operation → String
  | [] => text
  | op :: ops => lastCommitted (a.perform op) (a.committed text op) ops

/-- The text gives an archive that agrees with this one. -/
def Saves (text : String) (a : Archive) : Prop :=
  ∃ c, ofText text = .ok c ∧ c.Agrees a

theorem Saves.congr {text : String} (h : Saves text a) (hab : a.Agrees b) :
    Saves text b := by
  obtain ⟨c, hc, hagrees⟩ := h
  exact ⟨c, hc, hagrees.trans hab⟩

/-! ## Operations that leave something to save -/

theorem dirty_of_newLocation {id : String} {parent : Option String}
    (h : a.newLocation id parent = .ok b) : b.dirty = true := by
  obtain ⟨-, -, -, rfl⟩ := of_newLocation h
  rfl

theorem dirty_of_setParent {id : String} {parent : Option String}
    (h : a.setParent id parent = .ok b) : b.dirty = true := by
  obtain ⟨-, l, -, -, rfl⟩ := of_setParent h
  rfl

theorem dirty_of_rename {id newId : String} (h : a.rename id newId = .ok b) :
    b.dirty = true := by
  obtain ⟨-, -, -, -, rfl⟩ := of_rename h
  rfl

theorem dirty_of_removeLocation {id : String}
    (h : a.removeLocation id = .ok b) : b.dirty = true := by
  obtain ⟨-, -, -, -, rfl⟩ := of_removeLocation h
  rfl

theorem eq_or_dirty_of_setCurrent {id : String} (h : a.setCurrent id = .ok b) :
    b = a ∨ b.dirty = true := by
  obtain ⟨-, rfl | rfl⟩ := of_setCurrent h
  · exact .inl rfl
  · exact .inr rfl

theorem dirty_of_addBackend {id backend : String}
    (h : a.addBackend id backend = .ok b) : b.dirty = true := by
  obtain ⟨l, -, -, -, rfl⟩ := of_addBackend h
  rfl

theorem dirty_of_removeBackend {id backend : String}
    (h : a.removeBackend id backend = .ok b) : b.dirty = true := by
  obtain ⟨l, -, -, rfl⟩ := of_removeBackend h
  rfl

theorem dirty_of_addMaster {backend : String}
    (h : a.addMaster backend = .ok b) : b.dirty = true := by
  obtain ⟨-, -, rfl⟩ := of_addMaster h
  rfl

theorem dirty_of_removeMaster {backend : String}
    (h : a.removeMaster backend = .ok b) : b.dirty = true := by
  obtain ⟨-, rfl⟩ := of_removeMaster h
  rfl

/-- A document that was stored leaves something to save. -/
theorem dirty_of_storeDocument {id backend : String}
    {items : List (String × Value)} {time : Instant} {mask : Mask}
    {report : StoreReport}
    (h : a.storeDocument id backend items time mask = (.ok report, b)) :
    b.dirty = true := by
  obtain ⟨l, number, c, placed, tree, -, -, -, -, rfl⟩ :=
    prepared_of_storeDocument h
  rfl

/-- A document whose text was stored leaves something to save. -/
theorem dirty_of_storeSnapshot {id backend text : String} {time : Instant}
    {mask : Mask} {report : StoreReport}
    (h : a.storeSnapshot id backend text time mask = (.ok report, b)) :
    b.dirty = true := by
  obtain ⟨-, items, -, -, hitems⟩ := of_storeSnapshot h
  exact dirty_of_storeDocument hitems

/-- A rollback that was carried out and wrote something leaves something to
save. -/
theorem eq_or_dirty_of_rollback {id : String} {request : RollbackRequest}
    {now : Instant} {report : RollbackReport}
    (h : a.rollback id request now = (.ok report, b)) :
    b = a ∨ b.dirty = true := by
  obtain ⟨plan, l, number, c, hp, -, hdone⟩ := prepared_of_rollback h
  obtain ⟨-, -, hcount⟩ := of_prepareRollback hp
  rcases hcount with ⟨-, rfl, rfl⟩ | ⟨-, rfl, -, -⟩
  · exact .inl (by simpa using hdone)
  · obtain ⟨n, m, -, -, rfl⟩ := hdone.resolve_left (by simp)
    exact .inr rfl

/-! ## Operations that leave an archive clean -/

theorem orElse_eq_of_clean {x : Except ArchiveError Archive}
    (h : ∀ b, x = .ok b → b = a ∨ b.dirty = true)
    (hclean : (a.orElse x).dirty = false) : a.orElse x = a := by
  cases x with
  | error e => rfl
  | ok b =>
    rcases h b rfl with heq | hdirty
    · exact heq
    · have hclean : b.dirty = false := hclean
      rw [hdirty] at hclean
      cases hclean

theorem storeDocument_eq_of_clean {id backend : String}
    {items : List (String × Value)} {time : Instant} {mask : Mask}
    (ha : Path.SpelledOnce (items.map Prod.fst))
    (hclean : (a.storeDocument id backend items time mask).2.dirty = false) :
    (a.storeDocument id backend items time mask).2 = a := by
  cases hstore : a.storeDocument id backend items time mask with
  | mk answer b =>
    cases answer with
    | error e => exact storeDocument_of_error ha hstore
    | ok report =>
      rw [hstore, dirty_of_storeDocument hstore] at hclean
      cases hclean

theorem storeSnapshot_eq_of_clean {id backend text : String} {time : Instant}
    {mask : Mask}
    (hclean : (a.storeSnapshot id backend text time mask).2.dirty = false) :
    (a.storeSnapshot id backend text time mask).2 = a := by
  unfold storeSnapshot at hclean ⊢
  split
  · rfl
  · rename_i root hroot
    rw [hroot] at hclean
    simp only at hclean
    split
    · rfl
    · rename_i items hitems
      rw [hitems] at hclean
      exact storeDocument_eq_of_clean
        (Snapshot.spelledOnce_of_ofElement hitems) hclean

theorem rollback_eq_of_clean (ha : a.WellFormed)
    (hdeep : ∀ l ∈ a.locations, l.tree.IsDeep) {id : String}
    {request : RollbackRequest} {now : Instant}
    (hclean : (a.rollback id request now).2.dirty = false) :
    (a.rollback id request now).2 = a := by
  cases hrollback : a.rollback id request now with
  | mk answer b =>
    cases answer with
    | error e => exact rollback_of_error ha hdeep hrollback
    | ok report =>
      rw [hrollback] at hclean
      rcases eq_or_dirty_of_rollback hrollback with heq | hdirty
      · exact heq
      · exact absurd (hdirty.symm.trans hclean) (by simp)

/-- The operations on what an archive holds. -/
def Operation.IsEdit : Operation → Prop
  | .setPolicy _ | .flush _ | .reload => False
  | _ => True

/-- An edit that leaves an archive clean has changed nothing. -/
theorem eq_of_clean (ha : a.WellFormed)
    (hdeep : ∀ l ∈ a.locations, l.tree.IsDeep) {op : Operation}
    (hop : op.IsAnchored) (hclean : (a.perform op).dirty = false)
    (hedit : op.IsEdit) : a.perform op = a := by
  cases op with
  | setPolicy | flush | reload => exact hedit.elim
  | newLocation id parent =>
    exact orElse_eq_of_clean (fun b hb => .inr (dirty_of_newLocation hb)) hclean
  | setParent id parent =>
    exact orElse_eq_of_clean (fun b hb => .inr (dirty_of_setParent hb)) hclean
  | rename id newId =>
    exact orElse_eq_of_clean (fun b hb => .inr (dirty_of_rename hb)) hclean
  | removeLocation id =>
    exact orElse_eq_of_clean (fun b hb => .inr (dirty_of_removeLocation hb))
      hclean
  | setCurrent id =>
    exact orElse_eq_of_clean (fun b hb => eq_or_dirty_of_setCurrent hb) hclean
  | addBackend id backend =>
    exact orElse_eq_of_clean (fun b hb => .inr (dirty_of_addBackend hb)) hclean
  | removeBackend id backend =>
    exact orElse_eq_of_clean (fun b hb => .inr (dirty_of_removeBackend hb))
      hclean
  | addMaster backend =>
    exact orElse_eq_of_clean (fun b hb => .inr (dirty_of_addMaster hb)) hclean
  | removeMaster backend =>
    exact orElse_eq_of_clean (fun b hb => .inr (dirty_of_removeMaster hb))
      hclean
  | storeValue id path value time mask =>
    refine orElse_eq_of_clean (fun b hb => Or.inr ?_) hclean
    obtain ⟨⟨n, c⟩, hc, rfl⟩ := map_eq_ok hb
    obtain ⟨backend, l, place, -, -, -, -, -, -, rfl⟩ := of_storeValue hc
    rfl
  | storeDocument id backend items time mask =>
    exact storeDocument_eq_of_clean hop.spelledOnce hclean
  | storeSnapshot id backend text time mask =>
    exact storeSnapshot_eq_of_clean hclean
  | rollback id request now => exact rollback_eq_of_clean ha hdeep hclean
  | purge id path =>
    refine orElse_eq_of_clean (fun b hb => ?_) hclean
    obtain ⟨⟨found, c⟩, hc, rfl⟩ := map_eq_ok hb
    rcases of_purge hc with rfl | ⟨l, place, -, -, rfl⟩
    · exact Or.inl rfl
    · exact Or.inr rfl
  | trim id kept =>
    refine orElse_eq_of_clean (fun b hb => ?_) hclean
    obtain ⟨⟨count, c⟩, hc, rfl⟩ := map_eq_ok hb
    rcases of_trim hc with rfl | ⟨l, -, rfl⟩
    · exact Or.inl rfl
    · exact Or.inr rfl

/-! ## Runs -/

/-- The text of an archive gives an archive that agrees with it. -/
theorem saves_text (h : Reachable Operation.IsAnchored a)
    (hread : a.EveryInstant Instant.ReadsBack) : Saves a.text a := by
  obtain ⟨c, hc, hcontents, -⟩ := exists_ofText_text h.isSound
    (isDated_of_readsBack h hread) h.isForest.current
  exact ⟨c, hc, agrees_of_canonical hcontents⟩

/-- If the text that is committed gives a clean archive, it does so behind an
operation. -/
theorem saves_perform {text : String} (h : Reachable Operation.IsAnchored a)
    (hdeep : ∀ l ∈ a.locations, l.tree.IsDeep)
    (hread : a.EveryInstant Instant.ReadsBack)
    {op : Operation} (hop : op.IsAnchored)
    (hsaves : a.dirty = false → Saves text a)
    (hclean : (a.perform op).dirty = false) :
    Saves (a.committed text op) (a.perform op) := by
  cases op with
  | setPolicy policy => exact hsaves hclean
  | flush written =>
    cases written with
    | true =>
      have hprune : Operation.IsAnchored (.flush false) := trivial
      have hpruned : Reachable Operation.IsAnchored a.pruned := h.perform hprune
      exact saves_text hpruned (everyInstant_perform h.wellFormed h.isNumbered
        hread (.flush false) nofun fun _ ht => Instant.ReadsBack.shown ht)
    | false => exact (hsaves hclean).congr (agrees_pruned a).symm
  | reload =>
    show Saves (match a.reloaded with | .ok _ => a.text | .error _ => text)
      (a.orElse a.reloaded)
    have hclean : (a.orElse a.reloaded).dirty = false := hclean
    cases hown : a.reloaded with
    | error e =>
      rw [hown] at hclean
      exact hsaves hclean
    | ok b =>
      obtain ⟨c, hc, rfl⟩ := map_eq_ok hown
      exact ⟨c, hc, rfl⟩
  | _ =>
    have hsame := eq_of_clean h.wellFormed hdeep hop hclean trivial
    rw [hsame] at hclean ⊢
    exact hsaves hclean

theorem saves_run {text : String} (h : Reachable Operation.IsAnchored a)
    (hdeep : ∀ l ∈ a.locations, l.tree.IsDeep)
    (hread : a.EveryInstant Instant.ReadsBack) {ops : List Operation}
    (hops : ∀ op ∈ ops,
      op.IsAnchored ∧ ∀ t, op.time? = some t → t.ReadsBack)
    (hsaves : a.dirty = false → Saves text a)
    (hclean : (a.run ops).dirty = false) :
    Saves (a.lastCommitted text ops) (a.run ops) := by
  induction ops generalizing a text with
  | nil => exact hsaves hclean
  | cons op ops ih =>
    obtain ⟨⟨hop, htime⟩, hrest⟩ := List.forall_mem_cons.1 hops
    have hstep : Step False op.time? a (a.perform op) :=
      step_perform h.wellFormed op nofun
    exact ih (h.perform hop) (hstep.deep h.wellFormed hdeep)
      (hstep.everyInstant h.wellFormed h.isNumbered hread htime
        fun _ ht => Instant.ReadsBack.shown ht) hrest
      (saves_perform h hdeep hread hop hsaves) hclean

/-- A clean archive has nothing to save.  Whatever operations an archive that
was read from a text goes through, carried out or refused: if it is clean at the
end, the text that was last committed gives an archive of the same saved text,
with the same current location, backends and number of the next write.  No
operation may store at a leap second that ends no minute, and what was read has
none. -/
theorem saved_of_clean_run {text : String} (h : ofText text = .ok a)
    (hdeep : ∀ l ∈ a.locations, l.tree.IsDeep)
    (hyears : a.EveryInstant Instant.HasPlainYear) {ops : List Operation}
    (hops : ∀ op ∈ ops, op.IsAnchored ∧
      ∀ t, op.time? = some t → t.HasPlainYear ∧ t.EndsMinute)
    (hclean : (a.run ops).dirty = false) :
    ∃ c, ofText (a.lastCommitted text ops) = .ok c ∧
      c.pruned.text = (a.run ops).pruned.text ∧
      c.current = (a.run ops).current ∧ c.masters = (a.run ops).masters ∧
      c.nextRevision = (a.run ops).nextRevision := by
  have hread : a.EveryInstant Instant.ReadsBack :=
    hyears.and (IsStart.read h).endsMinute
  obtain ⟨c, hc, hagrees⟩ := saves_run (reachable_of_isStart (.read h)) hdeep
    hread hops (fun _ => ⟨a, h, rfl⟩) hclean
  exact ⟨c, hc, hagrees.text, hagrees.current, hagrees.masters,
    hagrees.nextRevision⟩

/-- Contents whose number of the next write is too low. -/
def behind : Contents :=
  let revision : Revision := ⟨4, .ofSecond 5, .int 1, .keep, false⟩
  { fresh.contents with locations := [{ id := defaultId
                                        tree := Directory.empty.write
                                          ["app", "size"] revision }] }

/-- Reading raises a number of the next write that is too low and leaves the
archive clean.  It is still clean behind a write that is refused, and again when
saving succeeds after it failed once. -/
theorem saved_of_raised_number :
    let ops : List Operation := [
      .storeValue "default" "/app/size" (.bool true) (.ofSecond 6) .keep,
      .purge "default" "/app/old"]
    let more : List Operation := ops ++ [
      .storeValue "default" "/app/old/key" (.int 2) (.ofSecond 6) .retire,
      .purge "default" "/app/old/key", .flush false, .flush true]
    ∃ a, ofText behind.toElement.document = .ok a ∧
      a.lastCommitted behind.toElement.document ops =
        behind.toElement.document ∧
      (a.run ops).nextRevision = 5 ∧ (a.run more).nextRevision = 6 ∧
      ∀ done ∈ [ops, more], (a.run done).dirty = false ∧
        ∃ c, ofText (a.lastCommitted behind.toElement.document done) = .ok c ∧
          c.pruned.text = (a.run done).pruned.text ∧
          c.current = (a.run done).current ∧ c.masters = (a.run done).masters ∧
          c.nextRevision = (a.run done).nextRevision := by
  intro ops more
  have hread : (Contents.ofElement behind.toElement).toOption.map (fun c =>
      (((ofContents c).run ops).nextRevision,
        ((ofContents c).run more).nextRevision,
        ((ofContents c).run ops).dirty, ((ofContents c).run more).dirty,
        decide (∀ l ∈ c.locations, ∀ x ∈ l.tree.allEntries, 2 ≤ x.1.length ∧
          ∀ r ∈ x.2.revisions, r.time.HasPlainYear))) =
      some (5, 6, false, false, true) := by
    decide +kernel
  obtain ⟨c, hc, hfacts⟩ := exists_ok_of_map_toOption hread
  simp only [Prod.mk.injEq, decide_eq_true_eq] at hfacts
  obtain ⟨hfirst, hsecond, hclean, hclean', hentries⟩ := hfacts
  have hload : ofText behind.toElement.document = .ok (ofContents c) := by
    rw [ofText_document (Contents.isPlain_toElement _), hc]
    rfl
  have ha : (ofContents c).WellFormed := (IsStart.read hload).wellFormed
  have hlisted : ∀ l ∈ (ofContents c).locations, ∀ path e,
      l.tree.get? path = some e → 2 ≤ path.length ∧
        ∀ r ∈ e.revisions, r.time.HasPlainYear := fun l hl path e he =>
    hentries l hl (path, e) ((ha.trees l hl).mem_allEntries_iff.2 he)
  have hdeep : ∀ l ∈ (ofContents c).locations, l.tree.IsDeep :=
    fun l hl path e he => (hlisted l hl path e he).1
  have hyears : (ofContents c).EveryInstant Instant.HasPlainYear := fun l hl =>
    Directory.everyInstant_iff.2 fun path e he => (hlisted l hl path e he).2
  have hmore : ∀ op ∈ more, op.IsAnchored ∧
      ∀ t, op.time? = some t → t.HasPlainYear ∧ t.EndsMinute := by
    have hread : (Instant.ofSecond 6).HasPlainYear ∧
        (Instant.ofSecond 6).EndsMinute := by decide +kernel
    simp [more, ops, Operation.IsAnchored, Operation.time?, hread]
  refine ⟨ofContents c, hload, rfl, hfirst, hsecond, ?_⟩
  refine List.forall_mem_cons.2 ⟨⟨hclean, ?_⟩,
    List.forall_mem_singleton.2 ⟨hclean', ?_⟩⟩
  · exact saved_of_clean_run hload hdeep hyears
      (fun op hop => hmore op (List.mem_append_left _ hop)) hclean
  · exact saved_of_clean_run hload hdeep hyears hmore hclean'

/-- An archive that was read from the text of a new one, two values that are
stored a fifth of a second apart, the first of them at a leap second that ends no
minute, and saving: the archive is clean, but the text that was committed is
refused, since it shows the first instant behind the second one. -/
theorem not_saved_behind_leap_second :
    let leap : Instant := ⟨4, 1900000000, by decide⟩
    let later : Instant := ⟨5, 100000000, by decide⟩
    let ops : List Operation := [
      .storeValue "default" "/app/size" (.int 1) leap .keep,
      .storeValue "default" "/app/size" (.int 2) later .keep, .flush true]
    leap.HasPlainYear ∧ later.HasPlainYear ∧ leap < later ∧
    ∃ a, ofText fresh.text = .ok a ∧ (a.run ops).dirty = false ∧
      ∀ text, ¬ ∃ c, ofText (a.lastCommitted text ops) = .ok c := by
  intro leap later ops
  have hload : ofText fresh.text = .ok (ofContents fresh.contents) :=
    ofText_text isSound_fresh (by
      unfold Contents.IsPrintable
      intro l hl x hx
      obtain rfl := List.mem_singleton.1 hl
      cases hx)
  have htimes : [leap, later] ∈
      ((ofContents fresh.contents).run ops).locations.map fun l =>
        (l.tree.recorded ["app", "size"]).map Prod.fst := by decide +kernel
  refine ⟨by decide +kernel, by decide +kernel, by decide, _, hload,
    by decide +kernel, fun text => ?_⟩
  rintro ⟨c, hc⟩
  have hc : ofText ((ofContents fresh.contents).run ops).text = .ok c := hc
  have horder :=
    (recorded_of_ofText_text hc (reachable_run (.read hload) ops) htimes).2
  exact absurd horder (by decide +kernel)

end SettingsArchive.Archive
