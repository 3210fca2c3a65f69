import Mathlib.Data.List.Sort
import SettingsArchive.Proofs.Lineage
import SettingsArchive.Proofs.Pruning
import SettingsArchive.Proofs.Reopening

/-!
# What lasts in a history

A revision that is in a history keeps its number, its instant, its value and its
mask as long as it is there, and its place among the others.  It may become
superseded, when a write that retires it follows it as the head, and only then may
a trim drop it.  So a head that is kept as a checkpoint stays until its setting is
purged or its location removed (`checkpoint_run`).

`Operation.Turns` gives the lemmas on one operation, and `permanence_of_run`
collects what follows for runs.  Reading a saved archive replaces each NaN by the
one that documents have, which no answer shows, and each leap second that ends no
minute by the instant behind it, which every answer shows.  Where the saved text
is refused there is nothing to go on with, and an operation that reads it changes
nothing (`not_permanent_when_saved`).
-/

namespace SettingsArchive

open Directory

/-! ## Revisions -/

/-- A revision at a later time.  It may have become superseded, and its value and
its instant may have been saved and read in between, which changes a leap second
that ends no minute. -/
structure Revision.Persists (reads : Prop) (r s : Revision) : Prop where
  id : s.id = r.id
  time : s.time = r.time ∨
    reads ∧ ¬ r.time.EndsMinute ∧ s.time = r.time.shown
  mask : s.mask = r.mask
  value : s.value = r.value ∨ reads ∧ s.value = r.value.canonical
  superseded : r.superseded = true → s.superseded = true

namespace Revision

variable {reads more : Prop} {r s t : Revision}

theorem Persists.refl (reads : Prop) (r : Revision) : r.Persists reads r :=
  ⟨rfl, Or.inl rfl, rfl, Or.inl rfl, fun h => h⟩

theorem Persists.mono (h : r.Persists reads s) (hmore : reads → more) :
    r.Persists more s :=
  { h with
    time := h.time.imp_right fun ht => ⟨hmore ht.1, ht.2⟩
    value := h.value.imp_right fun hv => ⟨hmore hv.1, hv.2⟩ }

theorem Persists.trans (h : r.Persists reads s) (k : s.Persists reads t) :
    r.Persists reads t := by
  refine ⟨k.id.trans h.id, ?_, k.mask.trans h.mask, ?_,
    fun hr => k.superseded (h.superseded hr)⟩
  · rcases k.time with hk | ⟨hreads, hleap, hk⟩
    · rw [hk]
      exact h.time
    · rcases h.time with hh | ⟨-, -, hh⟩
      · exact Or.inr ⟨hreads, hh ▸ hleap, by rw [hk, hh]⟩
      · exact absurd (hh ▸ r.time.endsMinute_shown) hleap
  · rcases k.value with hk | ⟨hreads, hk⟩
    · rw [hk]
      exact h.value
    · rcases h.value with hh | ⟨-, hh⟩
      · exact Or.inr ⟨hreads, by rw [hk, hh]⟩
      · exact Or.inr ⟨hreads, by rw [hk, hh, Value.canonical_canonical]⟩

theorem persists_retired (reads : Prop) (mask : Mask) (r : Revision) :
    r.Persists reads (Entry.retired mask r) := by
  cases mask with
  | retire => exact ⟨rfl, Or.inl rfl, rfl, Or.inl rfl, fun _ => rfl⟩
  | keep => exact .refl reads r

theorem persists_canonical (h : reads) (r : Revision) :
    r.Persists reads r.canonical := by
  refine ⟨rfl, ?_, rfl, Or.inr ⟨h, rfl⟩, fun h => h⟩
  by_cases hminute : r.time.EndsMinute
  · exact Or.inl (Instant.shown_of_endsMinute hminute)
  · exact Or.inr ⟨h, hminute, rfl⟩

end Revision

/-- A trim drops superseded revisions only. -/
theorem Entry.mem_dropSuperseded {count : Nat} {rs : List Revision}
    {r : Revision} (hr : r ∈ rs) (hkept : r.superseded = false) :
    r ∈ dropSuperseded count rs := by
  induction rs generalizing count with
  | nil => exact hr
  | cons s rs ih =>
    cases count with
    | zero => exact hr
    | succ count =>
      rw [dropSuperseded]
      rcases List.mem_cons.1 hr with rfl | hr
      · rw [hkept]
        exact List.mem_cons_self
      · split
        · exact ih hr
        · exact List.mem_cons_of_mem _ (ih hr)

/-! ## One operation -/

namespace Archive.Operation

variable {op : Operation} {id : String} {path : Path} {next : Nat}
  {rs ss : List Revision} {r s : Revision}

/-- What has an older number was there before. -/
theorem Turns.persists (h : op.Turns id path next rs ss) (hs : s ∈ ss)
    (hold : s.id < next) : ∃ r ∈ rs, r.Persists (op = .reload) s := by
  cases h with
  | same => exact ⟨s, hs, .refl _ s⟩
  | @begun new treats number =>
    rw [List.mem_singleton.1 hs] at hold
    omega
  | @continued past head new treats number =>
    rcases List.mem_append.1 hs with hs | hs
    · rcases List.mem_append.1 hs with hs | hs
      · exact ⟨s, List.mem_append_left _ hs, .refl _ s⟩
      · rw [List.mem_singleton.1 hs]
        exact ⟨head, by simp, Revision.persists_retired _ _ head⟩
    · rw [List.mem_singleton.1 hs] at hold
      omega
  | purged => cases hs
  | trimmed e => exact ⟨s, (e.revisions_trim_sublist _).subset hs, .refl _ s⟩
  | read rs reads =>
    obtain ⟨r, hr, rfl⟩ := List.mem_map.1 hs
    exact ⟨r, hr, Revision.persists_canonical reads r⟩

/-- A revision disappears when its setting is purged, or when it is trimmed.
Then it was superseded and was not the head. -/
theorem Turns.lost (h : op.Turns id path next rs ss) (hr : r ∈ rs)
    (hlost : ∀ s ∈ ss, s.id ≠ r.id) :
    (∃ text, op = .purge id text ∧ Path.ofText? text = some path) ∨
      (∃ kept, op = .trim id kept) ∧ r.superseded = true ∧
        rs.getLast? ≠ some r := by
  cases h with
  | same => exact absurd rfl (hlost r hr)
  | begun => cases hr
  | @continued past head new treats number =>
    rcases List.mem_append.1 hr with hr | hr
    · exact absurd rfl (hlost r (by simp [hr]))
    · rw [List.mem_singleton.1 hr] at hlost
      have hid := (Revision.persists_retired True new.mask head).id
      exact absurd hid (hlost _ (by simp))
  | purged rs purges names => exact Or.inl ⟨_, purges, names⟩
  | trimmed e trims =>
    refine Or.inr ⟨⟨_, trims⟩, ?_, ?_⟩
    · by_contra hkept
      rw [Bool.not_eq_true] at hkept
      rcases List.mem_append.1 hr with hr | hr
      · exact hlost r (List.mem_append_left _
          (Entry.mem_dropSuperseded hr hkept)) rfl
      · exact hlost r (List.mem_append_right _ hr) rfl
    · intro hlast
      have hhead : e.head = r := by simpa [Entry.revisions] using hlast
      exact hlost e.head (e.trim _).head_mem_revisions (by rw [hhead])
  | read rs reads =>
    exact absurd rfl (hlost r.canonical (List.mem_map_of_mem hr))

/-- Revisions of one number in a history are one revision. -/
theorem eq_of_id_eq (h : rs.Pairwise fun r s => r.id < s.id) (hr : r ∈ rs)
    (hs : s ∈ rs) (hid : s.id = r.id) : s = r := by
  have hn : (rs.map Revision.id).Nodup :=
    List.pairwise_map.2 (h.imp Nat.ne_of_lt)
  exact List.inj_on_of_nodup_map hn hs hr hid

/-- A revision becomes superseded when it was the head and a write that retires
it follows it. -/
theorem Turns.superseded (h : op.Turns id path next rs ss)
    (hids : rs.Pairwise fun r s => r.id < s.id) (hbelow : ∀ r ∈ rs, r.id < next)
    (hr : r ∈ rs) (hs : s ∈ ss) (hid : s.id = r.id)
    (hdiffer : s.superseded ≠ r.superseded) :
    r.superseded = false ∧ s.superseded = true ∧ op.mask? = some .retire ∧
      rs.getLast? = some r ∧ ss.getLast? ≠ some s := by
  have hsame : s ∉ rs := fun hmem =>
    hdiffer (congrArg Revision.superseded (eq_of_id_eq hids hr hmem hid))
  cases h with
  | same => exact absurd hs hsame
  | begun => cases hr
  | @continued past head new treats number =>
    have hnew : s ≠ new := by
      rintro rfl
      have := hbelow r hr
      omega
    have hs : s = Entry.retired new.mask head := by
      rcases List.mem_append.1 hs with hs | hs
      · rcases List.mem_append.1 hs with hs | hs
        · exact absurd (List.mem_append_left _ hs) hsame
        · exact List.mem_singleton.1 hs
      · exact absurd (List.mem_singleton.1 hs) hnew
    have hhead : head = r :=
      eq_of_id_eq hids hr (by simp) (by
        rw [← hid, hs, (Revision.persists_retired True new.mask head).id])
    subst hhead
    cases hmask : new.mask with
    | keep =>
      rw [hmask] at hs
      exact absurd (hs ▸ by simp [Entry.retired]) hsame
    | retire =>
      rw [hmask] at hs treats
      subst hs
      have hsuperseded : head.superseded = false := by
        simpa [Entry.retired] using hdiffer
      refine ⟨hsuperseded, rfl, treats, by simp, ?_⟩
      simpa using Ne.symm hnew
  | purged => cases hs
  | trimmed e => exact absurd ((e.revisions_trim_sublist _).subset hs) hsame
  | read rs reads =>
    obtain ⟨r', hr', rfl⟩ := List.mem_map.1 hs
    exact absurd (congrArg Revision.superseded
      (eq_of_id_eq hids hr hr' hid)) hdiffer

/-- A revision behind which another one stands and which is not superseded stays
so, unless its setting is purged. -/
theorem Turns.checkpoint (h : op.Turns id path next rs ss)
    (hr : r ∈ rs.dropLast) (hkept : r.superseded = false)
    (hpurge : ∀ text, op = .purge id text → Path.ofText? text ≠ some path) :
    ∃ s ∈ ss.dropLast, r.Persists (op = .reload) s ∧ s.superseded = false := by
  cases h with
  | same => exact ⟨r, hr, .refl _ r, hkept⟩
  | begun => cases hr
  | @continued past head new treats number =>
    rw [List.dropLast_concat] at hr
    refine ⟨r, ?_, .refl _ r, hkept⟩
    rw [List.dropLast_concat]
    exact List.mem_append_left _ hr
  | purged rs purges names => exact absurd names (hpurge _ purges)
  | trimmed e =>
    refine ⟨r, ?_, .refl _ r, hkept⟩
    rw [Entry.revisions, List.dropLast_concat] at hr ⊢
    exact Entry.mem_dropSuperseded hr hkept
  | read rs reads =>
    refine ⟨r.canonical, ?_, Revision.persists_canonical reads r, hkept⟩
    rw [← List.map_dropLast]
    exact List.mem_map_of_mem hr

/-- A head that is not superseded stays so behind a write that keeps it. -/
theorem Turns.checkpoint_of_keep (h : op.Turns id path next rs ss)
    (hr : rs.getLast? = some r) (hmask : op.mask? = some .keep)
    (hnext : ∀ s, ss.getLast? = some s → s.id ≠ r.id) : r ∈ ss.dropLast := by
  cases h with
  | same => exact absurd rfl (hnext r hr)
  | begun => cases hr
  | @continued past head new treats number =>
    obtain rfl : head = r := by simpa using hr
    have hnew : new.mask = .keep := Option.some.inj (treats.symm.trans hmask)
    rw [List.dropLast_concat, hnew]
    simp [Entry.retired]
  | purged _ purges =>
    subst purges
    cases hmask
  | trimmed _ trims =>
    subst trims
    cases hmask
  | read _ reads =>
    subst reads
    cases hmask

end Archive.Operation

/-! ## Runs -/

namespace Archive

variable {a : Archive} {op : Operation} {ops : List Operation} {id : String}
  {path : Path} {l m : Location} {r : Revision}

/-- Operations that neither remove the location that has this id in the beginning
nor purge the setting of the path there. -/
def Spares (a : Archive) (path : Path) (id : String) : List Operation → Prop
  | [] => True
  | op :: ops =>
    (∀ text, op = .purge id text → Path.ofText? text ≠ some path) ∧
      ∃ behind, a.idBehind id op = some behind ∧
        (a.perform op).Spares path behind ops

/-- Each operation turns the histories of a location that it does not remove. -/
theorem turns_perform (h : Reachable Operation.SpelledOnce a)
    (hop : op.SpelledOnce) (hl : l ∈ a.locations)
    (hid : a.idBehind l.id op = some id) :
    ∃ m ∈ (a.perform op).locations, m.id = id ∧ ∀ path,
      op.Turns l.id path a.nextRevision (l.tree.revisions path)
        (m.tree.revisions path) := by
  obtain ⟨m, hm, hmid, hchanged⟩ := changed_perform h.wellFormed hl hid
  have hn := h.isNumbered
  exact ⟨m, hm, hmid, hchanged.turns hop (h.wellFormed.trees l hl)
    (hn.below l hl) hn.number.bound⟩

theorem le_nextRevision_perform (h : Reachable Operation.SpelledOnce a)
    (op : Operation) : a.nextRevision ≤ (a.perform op).nextRevision := by
  have hstep : Step False op.time? a (a.perform op) :=
    step_perform h.wellFormed op nofun
  exact hstep.le_nextRevision h.wellFormed h.isNumbered

/-- What has an older number behind a run was there before. -/
theorem persists_run (h : Reachable Operation.SpelledOnce a)
    (hops : ∀ op ∈ ops, op.SpelledOnce) (hl : l ∈ a.locations)
    (hid : a.idAfter l.id ops = some id) :
    ∃ m ∈ (a.run ops).locations, m.id = id ∧ ∀ path,
      ∀ s ∈ m.tree.revisions path, s.id < a.nextRevision →
        ∃ r ∈ l.tree.revisions path, r.Persists (.reload ∈ ops) s := by
  induction ops generalizing a l with
  | nil =>
    obtain rfl := Option.some.inj hid
    exact ⟨l, hl, rfl, fun path s hs _ => ⟨s, hs, .refl _ s⟩⟩
  | cons op ops ih =>
    obtain ⟨behind, hbehind, hid⟩ := Option.bind_eq_some_iff.1 hid
    obtain ⟨hop, hrest⟩ := List.forall_mem_cons.1 hops
    obtain ⟨k, hk, rfl, hturns⟩ := turns_perform h hop hl hbehind
    obtain ⟨m, hm, hmid, hpersists⟩ := ih (h.perform hop) hrest hk hid
    refine ⟨m, hm, hmid, fun path s hs hold => ?_⟩
    have hle := le_nextRevision_perform h op
    obtain ⟨t, ht, hts⟩ := hpersists path s hs (by omega)
    obtain ⟨r, hr, hrt⟩ := (hturns path).persists ht (hts.id ▸ hold)
    have hfirst : r.Persists (.reload ∈ op :: ops) t :=
      hrt.mono fun hop => hop ▸ List.mem_cons_self
    exact ⟨r, hr, hfirst.trans (hts.mono (List.mem_cons_of_mem op))⟩

/-- A revision behind which another one stands and which is not superseded lasts
until its setting is purged or its location removed. -/
theorem checkpoint_run (h : Reachable Operation.SpelledOnce a)
    (hops : ∀ op ∈ ops, op.SpelledOnce) (hl : l ∈ a.locations)
    (hr : r ∈ (l.tree.revisions path).dropLast) (hkept : r.superseded = false)
    (hspares : a.Spares path l.id ops) :
    ∃ id, a.idAfter l.id ops = some id ∧
      ∃ m ∈ (a.run ops).locations, m.id = id ∧
        ∃ s ∈ (m.tree.revisions path).dropLast,
          r.Persists (.reload ∈ ops) s ∧ s.superseded = false := by
  induction ops generalizing a l r with
  | nil => exact ⟨l.id, rfl, l, hl, rfl, r, hr, .refl _ r, hkept⟩
  | cons op ops ih =>
    obtain ⟨hpurge, behind, hbehind, hspares⟩ := hspares
    obtain ⟨hop, hrest⟩ := List.forall_mem_cons.1 hops
    obtain ⟨k, hk, rfl, hturns⟩ := turns_perform h hop hl hbehind
    obtain ⟨t, ht, hrt, hkept⟩ := (hturns path).checkpoint hr hkept hpurge
    obtain ⟨id, hid, m, hm, hmid, s, hs, hts, hkept⟩ :=
      ih (h.perform hop) hrest hk ht hkept hspares
    have hfirst : r.Persists (.reload ∈ op :: ops) t :=
      hrt.mono fun hop => hop ▸ List.mem_cons_self
    refine ⟨id, ?_, m, hm, hmid, s, hs,
      hfirst.trans (hts.mono (List.mem_cons_of_mem op)), hkept⟩
    rw [idAfter, hbehind]
    exact hid

/-- The numbers of a history go upwards and are below the number of the next
write. -/
theorem pairwise_revisions (h : Reachable Operation.SpelledOnce a)
    (hl : l ∈ a.locations) (path : Path) :
    ((l.tree.revisions path).Pairwise fun r s => r.id < s.id) ∧
      ∀ r ∈ l.tree.revisions path, r.id < a.nextRevision := by
  cases he : l.tree.get? path with
  | none => simp [revisions_of_none he]
  | some e =>
    obtain ⟨hhistory, hbelow⟩ := h.hasHistories_of_spelledOnce l hl path e he
    rw [revisions_of_get? he]
    exact ⟨hhistory.imp fun hrs => hrs.id, hbelow⟩

/-- What is left of a history: its revisions still say what they said, and those
with older numbers stand in the order in which they were. -/
structure Outlasts (reads : Prop) (bound : Nat) (rs ss : List Revision) :
    Prop where
  same : ∀ r ∈ rs, ∀ s ∈ ss, s.id = r.id → r.Persists reads s
  order : ((ss.map Revision.id).filter (· < bound)).Sublist (rs.map Revision.id)

/-- What an operation may do to the revisions of a history.  One of them
disappears when its setting is purged, or in a trim while it is superseded and not
the head.  It becomes superseded, and never the other way round, when it was the
head and a write that retires it takes its place. -/
structure Operation.Respects (op : Operation) (id : String) (path : Path)
    (rs ss : List Revision) : Prop where
  lost : ∀ r ∈ rs, (∀ s ∈ ss, s.id ≠ r.id) →
    (∃ text, op = .purge id text ∧ Path.ofText? text = some path) ∨
      (∃ kept, op = .trim id kept) ∧ r.superseded = true ∧ rs.getLast? ≠ some r
  superseded : ∀ r ∈ rs, ∀ s ∈ ss, s.id = r.id → s.superseded ≠ r.superseded →
    r.superseded = false ∧ s.superseded = true ∧ op.mask? = some .retire ∧
      rs.getLast? = some r ∧ ss.getLast? ≠ some s

/-- Histories with numbers that go upwards outlast a run if what has an older
number was there before. -/
theorem outlasts_of_persists {reads : Prop} {bound : Nat}
    {rs ss : List Revision} (hrs : rs.Pairwise fun r s => r.id < s.id)
    (hss : ss.Pairwise fun r s => r.id < s.id) (hbelow : ∀ r ∈ rs, r.id < bound)
    (h : ∀ s ∈ ss, s.id < bound → ∃ r ∈ rs, r.Persists reads s) :
    Outlasts reads bound rs ss := by
  constructor
  · intro r hr s hs hid
    obtain ⟨r', hr', hpersists⟩ := h s hs (hid ▸ hbelow r hr)
    obtain rfl := Operation.eq_of_id_eq hrs hr hr' (hpersists.id.symm.trans hid)
    exact hpersists
  · have hids : ((ss.map Revision.id).filter (· < bound)).Pairwise (· < ·) :=
      (List.pairwise_map.2 hss).filter _
    have hsub : (ss.map Revision.id).filter (· < bound) ⊆
        rs.map Revision.id := by
      intro n hn
      obtain ⟨hmem, hlt⟩ := List.mem_filter.1 hn
      obtain ⟨s, hs, rfl⟩ := List.mem_map.1 hmem
      obtain ⟨r, hr, hpersists⟩ := h s hs (of_decide_eq_true hlt)
      exact hpersists.id ▸ List.mem_map_of_mem hr
    have hn : ((ss.map Revision.id).filter (· < bound)).Nodup :=
      hids.imp Nat.ne_of_lt
    exact List.sublist_of_subperm_of_pairwise (hn.subperm hsub) hids
      (List.pairwise_map.2 hrs)

/-- Whatever operations come, a revision keeps what it records and its place as
long as it is there, a leap second that ends no minute being kept until the archive
is read again only.  A revision is lost or becomes superseded only in the ways that
`Operation.Respects` lists or with its location, and a head that a write kept as a
checkpoint stays, not superseded, until its setting is purged or its location
removed. -/
theorem permanence_of_run (h : Reachable Operation.SpelledOnce a)
    (hops : ∀ op ∈ ops, op.SpelledOnce) (hl : l ∈ a.locations) (path : Path) :
    (∀ id, a.idAfter l.id ops = some id →
      ∃ m ∈ (a.run ops).locations, m.id = id ∧
        Outlasts (.reload ∈ ops) a.nextRevision (l.tree.revisions path)
          (m.tree.revisions path)) ∧
    (∀ op, op.SpelledOnce →
      (a.idBehind l.id op = none → op = .removeLocation l.id) ∧
      ∀ id, a.idBehind l.id op = some id →
        ∃ m ∈ (a.perform op).locations, m.id = id ∧
          op.Respects l.id path (l.tree.revisions path)
            (m.tree.revisions path)) ∧
    ∀ r, (l.tree.revisions path).getLast? = some r → r.superseded = false →
      ∀ op rest, ops = op :: rest → op.mask? = some .keep →
        ∀ m ∈ (a.perform op).locations, m.id = l.id →
          (∀ s, (m.tree.revisions path).getLast? = some s → s.id ≠ r.id) →
          (a.perform op).Spares path l.id rest →
          ∃ id, a.idAfter l.id ops = some id ∧
            ∃ k ∈ (a.run ops).locations, k.id = id ∧
              ∃ s ∈ k.tree.revisions path,
                r.Persists (.reload ∈ ops) s ∧ s.superseded = false := by
  obtain ⟨hids, hbelow⟩ := pairwise_revisions h hl path
  refine ⟨?_, ?_, ?_⟩
  · intro id hid
    obtain ⟨m, hm, hmid, hpersists⟩ := persists_run h hops hl hid
    have hlater := (pairwise_revisions (h.run hops) hm path).1
    exact ⟨m, hm, hmid, outlasts_of_persists hids hlater hbelow (hpersists path)⟩
  · intro op hop
    refine ⟨eq_removeLocation_of_idBehind, fun id hid => ?_⟩
    obtain ⟨m, hm, hmid, hturns⟩ := turns_perform h hop hl hid
    exact ⟨m, hm, hmid, ⟨fun r hr => (hturns path).lost hr,
      fun r hr s hs => (hturns path).superseded hids hbelow hr hs⟩⟩
  · rintro r hr hkept op rest rfl hmask m hm hmid hnext hspares
    obtain ⟨hop, hrest⟩ := List.forall_mem_cons.1 hops
    have hbehind : a.idBehind l.id op = some l.id := idBehind_of_mask? hmask
    obtain ⟨k, hk, hkid, hturns⟩ := turns_perform h hop hl hbehind
    obtain rfl : m = k := List.inj_on_of_nodup_map (h.perform hop).wellFormed.ids
      hm hk (hmid.trans hkid.symm)
    have hcheckpoint := (hturns path).checkpoint_of_keep hr hmask hnext
    obtain ⟨id, hid, k, hk, hkid, s, hs, hpersists, hkept⟩ :=
      checkpoint_run (h.perform hop) hrest hm hcheckpoint hkept (hmid ▸ hspares)
    refine ⟨id, ?_, k, hk, hkid, s, List.dropLast_subset _ hs,
      hpersists.mono (List.mem_cons_of_mem op), hkept⟩
    rw [idAfter, hbehind]
    exact hmid ▸ hid

/-- A first revision that a later write kept is there when the one in between was
retired and trimmed and the location has another id. -/
theorem permanence_of_checkpoint :
    let path : Path := ["app", "size"]
    let a := fresh.run [.newLocation "site" none,
      .storeValue "site" "/app/size" (.int 1) (.ofSecond 5) .retire]
    let keep : Operation :=
      .storeValue "site" "/app/size" (.int 2) (.ofSecond 6) .keep
    let rest : List Operation := [
      .storeValue "site" "/app/size" (.int 3) (.ofSecond 7) .retire,
      .trim "site" 0, .rename "site" "office"]
    ∃ l ∈ a.locations, l.id = "site" ∧ ∃ r,
      l.tree.revisions path = [r] ∧ r.id = 1 ∧ r.superseded = false ∧
      ((a.run (keep :: rest)).locations.flatMap fun k =>
        (k.tree.revisions path).map Revision.id) = [1, 3] ∧
      ∃ k ∈ (a.run (keep :: rest)).locations, k.id = "office" ∧
        ∃ s ∈ k.tree.revisions path,
          r.Persists (.reload ∈ keep :: rest) s ∧ s.superseded = false := by
  intro path a keep rest
  have ha : Reachable Operation.SpelledOnce a :=
    ⟨fresh, _, .fresh, by simp [Operation.SpelledOnce], rfl⟩
  have hops : ∀ op ∈ keep :: rest, op.SpelledOnce := by
    simp [keep, rest, Operation.SpelledOnce]
  have hbefore : (a.location "site").toOption.map (fun l =>
      (l.tree.revisions path).map fun r => (r.id, r.superseded)) =
        some [(1, false)] := by decide +kernel
  have hkept : ((a.perform keep).location "site").toOption.map (fun m =>
      (m.tree.revisions path).getLast?.map Revision.id) = some (some 2) := by
    decide +kernel
  have hspares : (a.perform keep).Spares path "site" rest :=
    ⟨nofun, "site", rfl, nofun, "site", rfl, nofun, "office", by decide +kernel,
      trivial⟩
  have hafter : a.idAfter "site" (keep :: rest) = some "office" := by
    decide +kernel
  obtain ⟨l, hl, hbefore⟩ := exists_ok_of_map_toOption hbefore
  obtain ⟨m, hm, hkept⟩ := exists_ok_of_map_toOption hkept
  obtain ⟨hl, hlid⟩ := mem_of_findLocation? (location_eq_ok_iff.1 hl)
  obtain ⟨hm, hmid⟩ := mem_of_findLocation? (location_eq_ok_iff.1 hm)
  obtain ⟨r, hr, hfacts⟩ := List.map_eq_singleton_iff.1 hbefore
  obtain ⟨hnumber, hsuperseded⟩ := Prod.mk.inj hfacts
  obtain ⟨-, -, hcheckpoint⟩ := permanence_of_run ha hops hl path
  have hnext : ∀ s, (m.tree.revisions path).getLast? = some s → s.id ≠ r.id := by
    intro s hs
    rw [hs] at hkept
    rw [hnumber, Option.some.inj hkept]
    decide
  obtain ⟨id, hid, k, hk, hkid, hpersists⟩ := hcheckpoint r (by simp [hr])
    hsuperseded keep rest rfl rfl m hm (hmid.trans hlid.symm) hnext
    (hlid ▸ hspares)
  obtain rfl := Option.some.inj (hafter.symm.trans (hlid ▸ hid))
  exact ⟨l, hl, hlid, r, hr, hnumber, hsuperseded, by decide +kernel, k, hk, hkid,
    hpersists⟩

/-- A checkpoint of the year 10000 is lost with the whole archive when that is
saved, since the text is refused.  And a revision of a leap second that ends no
minute has another instant when it was saved and read. -/
theorem not_permanent_when_saved :
    let path : Path := ["app", "size"]
    let late := Instant.ofSecond 253402300800
    let a := fresh.run [
      .storeValue "default" "/app/size" (.int 1) late .keep,
      .storeValue "default" "/app/size" (.int 2) late .keep, .flush true]
    let leap : Instant := ⟨4, 1500000000, by decide⟩
    let b := fresh.run [
      .storeValue "default" "/app/size" (.int 1) leap .keep, .flush true]
    let records (a : Archive) := a.locations.map fun l =>
      (l.tree.revisions path).map fun r => (r.id, r.time, r.superseded)
    records a = [[(1, late, false), (2, late, false)]] ∧
      (¬ ∃ c, ofText a.text = .ok c) ∧
      records b = [[(1, leap, false)]] ∧
      records (b.perform .reload) =
        [[(1, ⟨5, 500000000, by decide⟩, false)]] := by
  intro path late a leap b records
  have htimes : [late, late] ∈ a.locations.map fun l =>
      (l.tree.recorded path).map Prod.fst := by decide +kernel
  have hb : Reachable Operation.IsAnchored b :=
    ⟨fresh, _, .fresh, by simp [Operation.IsAnchored], rfl⟩
  have hdated : b.contents.IsDated := by
    unfold Contents.IsDated Entry.ShownInOrder
    decide +kernel
  have hread : b.perform .reload = ofContents b.contents.canonical := by
    have hload := ofText_text_of_isDated hb.isSound hdated
    simp only [perform, reloaded, hload]
    rfl
  refine ⟨by decide +kernel, ?_, by decide +kernel, ?_⟩
  · rintro ⟨c, hc⟩
    have hyears := (recorded_of_ofText_text hc (reachable_run .fresh _) htimes).1
    exact absurd (hyears late (by simp)) (by decide +kernel)
  · rw [hread]
    decide +kernel

end Archive

end SettingsArchive
