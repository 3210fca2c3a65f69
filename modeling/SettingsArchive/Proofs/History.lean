import SettingsArchive.Proofs.Storing

/-!
# Histories

The revisions of a setting are numbered upwards, their instants never go back,
and their values are of one kind.  `Entry.IsHistory` says so for one setting,
and `Directory.HasHistories` for all settings of a tree, whose numbers are
moreover below the number of the next write.

Each operation on a setting keeps the first, and `Written.hasHistories` says
that writes under one number keep the second if no two of them name one
setting.
-/

namespace SettingsArchive

/-! ## Instants -/

namespace Instant

theorem le_trans {t u v : Instant} (h : t ≤ u) (k : u ≤ v) : t ≤ v := by
  change t.second < u.second ∨ (t.second = u.second ∧ t.nano ≤ u.nano) at h
  change u.second < v.second ∨ (u.second = v.second ∧ u.nano ≤ v.nano) at k
  show t.second < v.second ∨ (t.second = v.second ∧ t.nano ≤ v.nano)
  omega

end Instant

namespace Revision

/-- A revision that another one may follow. -/
structure Precedes (r s : Revision) : Prop where
  id : r.id < s.id
  time : r.time ≤ s.time
  kind : r.value.kind = s.value.kind

theorem Precedes.trans {r s t : Revision} (h : r.Precedes s)
    (k : s.Precedes t) : r.Precedes t :=
  ⟨Nat.lt_trans h.id k.id, Instant.le_trans h.time k.time, h.kind.trans k.kind⟩

end Revision

namespace Entry

/-- The revisions are numbered upwards, their instants never go back, and
their values are of one kind. -/
def IsHistory (e : Entry) : Prop :=
  e.revisions.Pairwise Revision.Precedes

theorem head_mem_revisions (e : Entry) : e.head ∈ e.revisions := by
  simp [revisions]

/-- The kind of an entry is that of each of its revisions. -/
theorem IsHistory.kind_eq {e : Entry} (h : e.IsHistory) {r : Revision}
    (hr : r ∈ e.revisions) : r.value.kind = e.kind := by
  obtain ⟨name, past, head⟩ := e
  cases past with
  | nil =>
    have hr : r = head := by simpa [revisions] using hr
    rw [hr, kind]
    rfl
  | cons first past =>
    have h : List.Pairwise Revision.Precedes (first :: (past ++ [head])) := h
    rcases List.mem_cons.1 hr with rfl | hr
    · rfl
    · exact ((List.pairwise_cons.1 h).1 r hr).kind.symm

/-- What retiring a head leaves of it. -/
theorem retired_eq (mask : Mask) (r : Revision) :
    (retired mask r).id = r.id ∧ (retired mask r).time = r.time ∧
      (retired mask r).value = r.value ∧ (retired mask r).mask = r.mask := by
  cases mask <;> exact ⟨rfl, rfl, rfl, rfl⟩

theorem isHistory_ofFirst (name : String) (r : Revision) :
    (ofFirst name r).IsHistory := by
  simp [IsHistory, revisions, ofFirst]

/-- A history goes on with a revision that fits and has a larger number. -/
theorem IsHistory.append {e : Entry} (h : e.IsHistory) {r : Revision}
    (hid : e.head.id < r.id) (htime : e.head.time ≤ r.time)
    (hkind : e.kind = r.value.kind) : (e.append r).IsHistory := by
  have hpast := List.pairwise_append.1 h
  obtain ⟨hi, ht, hv, -⟩ := retired_eq r.mask e.head
  have hhead : e.head.Precedes r :=
    ⟨hid, htime, (h.kind_eq e.head_mem_revisions).trans hkind⟩
  have hretired : (retired r.mask e.head).Precedes r :=
    ⟨hi ▸ hid, ht ▸ htime, hv ▸ hhead.kind⟩
  show List.Pairwise _ ((e.past ++ [retired r.mask e.head]) ++ [r])
  rw [List.pairwise_append, List.pairwise_append]
  refine ⟨⟨hpast.1, List.pairwise_singleton _ _, ?_⟩,
    List.pairwise_singleton _ _, ?_⟩
  · intro p hp q hq
    rw [List.mem_singleton.1 hq]
    have hpe := hpast.2.2 p hp e.head List.mem_cons_self
    exact ⟨hi ▸ hpe.id, ht ▸ hpe.time, hv ▸ hpe.kind⟩
  · intro p hp q hq
    rw [List.mem_singleton.1 hq]
    rcases List.mem_append.1 hp with hp | hp
    · exact (hpast.2.2 p hp e.head List.mem_cons_self).trans hhead
    · exact List.mem_singleton.1 hp ▸ hretired

/-- The numbers in a longer history are those before and the new one. -/
theorem id_of_mem_append {e : Entry} {r s : Revision}
    (h : s ∈ (e.append r).revisions) :
    s.id = r.id ∨ ∃ p ∈ e.revisions, s.id = p.id := by
  have h : s ∈ (e.past ++ [retired r.mask e.head]) ++ [r] := h
  rcases List.mem_append.1 h with h | h
  · rcases List.mem_append.1 h with h | h
    · exact Or.inr ⟨s, List.mem_append_left _ h, rfl⟩
    · rw [List.mem_singleton.1 h]
      exact Or.inr ⟨e.head, e.head_mem_revisions, (retired_eq _ _).1⟩
  · exact Or.inl (by rw [List.mem_singleton.1 h])

theorem dropSuperseded_sublist (count : Nat) (rs : List Revision) :
    (dropSuperseded count rs).Sublist rs := by
  induction rs generalizing count with
  | nil => exact List.Sublist.refl _
  | cons r rs ih =>
    cases count with
    | zero => exact List.Sublist.refl _
    | succ count =>
      rw [dropSuperseded]
      split
      · exact (ih count).cons r
      · exact (ih (count + 1)).cons_cons r

/-- Trimming only drops revisions. -/
theorem revisions_trim_sublist (e : Entry) (kept : Nat) :
    (e.trim kept).revisions.Sublist e.revisions :=
  (dropSuperseded_sublist _ _).append_right _

/-- A history whose numbers are below a bound. -/
structure IsHistoryBelow (e : Entry) (bound : Nat) : Prop where
  history : e.IsHistory
  below : ∀ r ∈ e.revisions, r.id < bound

namespace IsHistoryBelow

variable {e : Entry} {bound : Nat}

theorem mono (h : e.IsHistoryBelow bound) {larger : Nat}
    (hle : bound ≤ larger) : e.IsHistoryBelow larger :=
  ⟨h.history, fun r hr => Nat.lt_of_lt_of_le (h.below r hr) hle⟩

/-- Part of a history is a history. -/
theorem sublist (h : e.IsHistoryBelow bound) {part : Entry}
    (hsub : part.revisions.Sublist e.revisions) : part.IsHistoryBelow bound :=
  ⟨List.Pairwise.sublist hsub h.history, fun r hr => h.below r (hsub.subset hr)⟩

/-- A history takes a fitting revision whose number is the bound. -/
theorem append (h : e.IsHistoryBelow bound) {r : Revision} (hid : r.id = bound)
    (htime : e.head.time ≤ r.time) (hkind : e.kind = r.value.kind) :
    (e.append r).IsHistoryBelow (bound + 1) := by
  have hhead : e.head.id < r.id := hid ▸ h.below _ e.head_mem_revisions
  refine ⟨h.history.append hhead htime hkind, ?_⟩
  intro s hs
  rcases id_of_mem_append hs with hs | ⟨p, hp, hs⟩
  · omega
  · have := h.below p hp
    omega

end IsHistoryBelow

theorem isHistoryBelow_ofFirst (name : String) (r : Revision) :
    (ofFirst name r).IsHistoryBelow (r.id + 1) := by
  refine ⟨isHistory_ofFirst name r, ?_⟩
  intro s hs
  have hs : s = r := by simpa [revisions, ofFirst] using hs
  rw [hs]
  exact Nat.lt_succ_self _

end Entry

namespace Directory

/-! ## Trees of histories -/

/-- Every setting of a tree has a history with numbers below a bound. -/
def HasHistories (d : Directory) (bound : Nat) : Prop :=
  ∀ path e, d.get? path = some e → e.IsHistoryBelow bound

theorem HasHistories.mono {d : Directory} {bound larger : Nat}
    (h : d.HasHistories bound) (hle : bound ≤ larger) : d.HasHistories larger :=
  fun path e he => (h path e he).mono hle

/-- Writes under one number leave histories if every written setting had
smaller numbers and no two writes name one setting. -/
theorem Written.histories {time : Instant} {id : Nat} {mask : Mask}
    {items : List (Path × Value)} {d d' : Directory}
    (h : Written time id mask items d d')
    (hn : (items.map Prod.fst).Nodup)
    (hd : d.HasHistories (id + 1))
    (hitems : ∀ path ∈ items.map Prod.fst, ∀ e, d.get? path = some e →
      e.IsHistoryBelow id) : d'.HasHistories (id + 1) := by
  induction h with
  | nil d => exact hd
  | @cons path value items d d' valid fits rest ih =>
    rw [List.map_cons, List.nodup_cons] at hn
    have hget := get?_write valid.1 d ⟨id, time, value, mask, false⟩
    apply ih hn.2
    · intro q e he
      rw [hget] at he
      split at he
      · injection he with he
        subst he
        cases ho : d.get? path with
        | none => exact Entry.isHistoryBelow_ofFirst _ _
        | some e =>
          obtain ⟨hkind, htime⟩ := fits e ho
          have hbelow := hitems path List.mem_cons_self e ho
          exact hbelow.append rfl htime hkind
      · exact hd q e he
    · -- No later write names the setting that has the number now.
      intro q hq e he
      have hne : q ≠ path := fun heq => hn.1 (heq ▸ hq)
      rw [hget, if_neg hne] at he
      exact hitems q (List.mem_cons_of_mem _ hq) e he

/-- Writes under the number that bounds a tree leave histories if no two of
them name one setting. -/
theorem Written.hasHistories {time : Instant} {id : Nat} {mask : Mask}
    {items : List (Path × Value)} {d d' : Directory}
    (h : Written time id mask items d d')
    (hn : (items.map Prod.fst).Nodup) (hd : d.HasHistories id) :
    d'.HasHistories (id + 1) :=
  h.histories hn (hd.mono (Nat.le_succ id)) fun path _ e he => hd path e he

end Directory

end SettingsArchive
