import SettingsArchive.Proofs.Step

/-!
# Numbers of writes

One counter numbers the writes of an archive, and several settings may share a
number.  In every archive that operations lead to, each setting has a history,
and the counter is above all numbers (`histories_of_reachable`).

A rollback writes values that it found in other locations.  It checks their
kinds as any write does, so histories keep theirs.  What is asked of the
operations is that settings stored together are named by texts with a slash in
front: without it two texts may name one setting, which would then have one
number twice.
-/

namespace SettingsArchive

open Directory

/-- An edit leaves histories. -/
theorem Directory.Edit.hasHistories {anchored : Prop}
    {time? : Option Instant} {places : Path → Prop} {next next' : Nat}
    {d d' : Directory}
    (h : Edit anchored time? places next next' d d') (ha : anchored)
    (hle : next ≤ next') (hd : d.Sound) (hh : d.HasHistories next) :
    d'.HasHistories next' := by
  rcases h.sublist_or_write hd with
    hsub | ⟨time, mask, items, hw, -, hlt, -, hn⟩
  · intro path e he
    obtain ⟨old, hold, hrevisions⟩ := hsub path e he
    exact ((hh path old hold).sublist hrevisions).mono hle
  · exact (hw.hasHistories (hn ha) hh).mono hlt

theorem Directory.hasHistories_empty (name : String) (bound : Nat) :
    HasHistories { name } bound := by
  intro path e he
  simp at he

namespace Archive

/-- Every setting has a history with numbers below that of the next write. -/
def HasHistories (a : Archive) : Prop :=
  ∀ l ∈ a.locations, l.tree.HasHistories a.nextRevision

variable {a b : Archive} {anchored : Prop} {time? : Option Instant}

theorem IsStart.hasHistories (h : IsStart a) : a.HasHistories :=
  fun l hl => (h.isSound.locations l hl).2

/-- A step leaves histories. -/
theorem Step.hasHistories (h : Step anchored time? a b) (hanch : anchored)
    (ha : a.WellFormed) (hh : a.HasHistories) : b.HasHistories := by
  refine h.forall_tree (P := fun next d => d.HasHistories next) hh
    (hasHistories_empty "" _) ?_ fun c hc => (IsStart.read hc).hasHistories
  intro hle l hl d hedit
  exact hedit.hasHistories hanch hle (ha.sound l hl).tree (hh l hl)

theorem Reachable.hasHistories_of_spelledOnce
    (h : Reachable Operation.SpelledOnce a) : a.HasHistories :=
  h.induction_step True (fun _ _ hop => hop)
    (fun _ ha => ha.hasHistories)
    fun _ _ _ ha hh hstep => hstep.hasHistories trivial ha hh

theorem Reachable.hasHistories (h : Reachable Operation.IsAnchored a) :
    a.HasHistories :=
  (h.mono fun _ hop => hop.spelledOnce).hasHistories_of_spelledOnce

/-- Every setting of a reachable archive has a revision, its revisions are
numbered upwards, their instants never go back, and their values are of one
kind.  The counter is above all numbers of the archive. -/
theorem histories_of_reachable (h : Reachable Operation.IsAnchored a) :
    ∀ l ∈ a.locations, ∀ path e, (path, e) ∈ l.tree.allEntries →
      e.revisions ≠ [] ∧
      (e.revisions.map Revision.id).Pairwise (· < ·) ∧
      (e.revisions.map Revision.time).Pairwise (· ≤ ·) ∧
      (∀ r ∈ e.revisions, ∀ s ∈ e.revisions, r.value.kind = s.value.kind) ∧
      ∀ r ∈ e.revisions, r.id < a.nextRevision := by
  intro l hl path e he
  have hsound := (h.wellFormed.sound l hl).tree
  obtain ⟨hhistory, hbelow⟩ :=
    h.hasHistories l hl path e (hsound.mem_allEntries_iff.1 he)
  refine ⟨by simp [Entry.revisions], ?_, ?_, ?_, hbelow⟩
  · rw [List.pairwise_map]
    exact List.Pairwise.imp Revision.Precedes.id hhistory
  · rw [List.pairwise_map]
    exact List.Pairwise.imp Revision.Precedes.time hhistory
  · intro r hr s hs
    rw [hhistory.kind_eq hr, hhistory.kind_eq hs]

/-- The histories of two settings that were stored together, of which one was
stored again. -/
theorem histories_of_two_writes :
    let a := fresh.run [
      .storeDocument "default" "app"
        [("/app/size", .int 1), ("/app/name", .string "x")] (.ofSecond 5) .keep,
      .storeValue "default" "/app/size" (.int 2) (.ofSecond 5) .retire]
    (a.locations.flatMap fun l => l.tree.allEntries.map
        fun (path, e) => (path, e.revisions.map Revision.id)) =
        [(["app", "size"], [1, 2]), (["app", "name"], [1])] ∧
      a.nextRevision = 3 ∧
      ∀ l ∈ a.locations, ∀ path e, (path, e) ∈ l.tree.allEntries →
        e.revisions ≠ [] ∧
        (e.revisions.map Revision.id).Pairwise (· < ·) ∧
        (e.revisions.map Revision.time).Pairwise (· ≤ ·) ∧
        (∀ r ∈ e.revisions, ∀ s ∈ e.revisions, r.value.kind = s.value.kind) ∧
        ∀ r ∈ e.revisions, r.id < a.nextRevision := by
  intro a
  have hallowed : ∀ op ∈ [
      Operation.storeDocument "default" "app"
        [("/app/size", .int 1), ("/app/name", .string "x")] (.ofSecond 5) .keep,
      .storeValue "default" "/app/size" (.int 2) (.ofSecond 5) .retire],
      op.IsAnchored := by
    intro op hop
    rcases List.mem_cons.1 hop with rfl | hop
    · intro item hitem
      rcases List.mem_cons.1 hitem with rfl | hitem
      · exact ⟨_, rfl⟩
      · obtain rfl := List.mem_singleton.1 hitem
        exact ⟨_, rfl⟩
    · obtain rfl := List.mem_singleton.1 hop
      trivial
  have h : Reachable Operation.IsAnchored a := ⟨fresh, _, .fresh, hallowed, rfl⟩
  exact ⟨by decide +kernel, by decide +kernel, histories_of_reachable h⟩

end Archive

end SettingsArchive
