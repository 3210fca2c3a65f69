import SettingsArchive.Proofs.BestEffort
import SettingsArchive.Proofs.Halfway
import SettingsArchive.Proofs.Policies
import SettingsArchive.Proofs.Snapshot.Shown

/-!
# Rolling back again

A date and a number mean the same revisions wherever the head of a history is.
A rollback to one of them adds the value that it found, so what the target means
behind it has that value, too (`Target.IsAbsolute.map_resolveChain_appended`).
This holds wherever the value was found: it may come from above to a location
that had none, and the new revision may be dated before the target or behind it.

So the same rollback finds the same values again
(`RolledBack.resolved_again_iff`), and writing them changes nothing that is seen
(`repeated_of_reachable`).
-/

namespace SettingsArchive

open Directory

/-! ## Entries with one more revision -/

namespace Entry

/-- A write leaves the kind of a setting. -/
theorem kind_append (e : Entry) (r : Revision) : (e.append r).kind = e.kind := by
  obtain ⟨name, past, head⟩ := e
  cases past with
  | nil => exact congrArg Value.kind (retired_eq r.mask head).2.2.1
  | cons first past => rfl

/-- The latest value by an instant is the new one or the one from before. -/
theorem map_latestBy?_append (e : Entry) (r : Revision) (t : Instant) :
    ((e.append r).latestBy? t).map Revision.value =
      if r.time ≤ t then some r.value
      else (e.latestBy? t).map Revision.value := by
  have hvalue (e : Entry) : (e.latestBy? t).map Revision.value =
      (e.recorded.reverse.find? fun x => decide (x.1 ≤ t)).map Prod.snd := by
    rw [← e.latestBy?_eq, Option.map_map]
    rfl
  rw [hvalue, hvalue, recorded_append, List.reverse_append,
    List.reverse_singleton, List.singleton_append, List.find?_cons]
  by_cases hle : r.time ≤ t
  · simp [hle]
  · simp [hle]

/-- The value that a number means is the one from before or the new one. -/
theorem map_written?_append (e : Entry) (r : Revision) (n : Nat) :
    ((e.append r).written? n).map Revision.value =
      ((e.written? n).map Revision.value).or
        (if r.id = n then some r.value else none) := by
  obtain ⟨hid, -, hvalue, -⟩ := retired_eq r.mask e.head
  have hrevisions : (e.append r).revisions =
      e.past ++ [retired r.mask e.head, r] := by
    simp [revisions, append]
  rw [written?, written?, hrevisions, revisions, List.find?_append,
    List.find?_append, Option.map_or, Option.map_or, Option.or_assoc]
  congr 1
  by_cases hhead : e.head.id = n
  · simp [hid, hvalue, hhead]
  · by_cases hr : r.id = n
    · simp [hid, hhead, hr]
    · simp [hid, hhead, hr]

end Entry

/-! ## Targets that stay -/

namespace Target

/-- A target that does not count from the head of a history. -/
def IsAbsolute : Target → Prop
  | .date _ | .revision _ => True
  | .last | .steps _ => False

variable {t : Target}

theorem IsAbsolute.resolveChain_eq (ht : t.IsAbsolute) (chain : List Entry) :
    t.resolveChain chain = chain.findSome? t.resolve := by
  cases t with
  | date time => rfl
  | revision id => rfl
  | last => exact ht.elim
  | steps count => exact ht.elim

/-- In a setting with one more revision the target means the new value, or what
it meant before. -/
theorem IsAbsolute.map_resolve_appended (ht : t.IsAbsolute) (name : String)
    (r : Revision) (own : Option Entry) :
    (t.resolve (appended name r own)).map Revision.value = some r.value ∨
      (t.resolve (appended name r own)).map Revision.value =
        (own.bind t.resolve).map Revision.value := by
  cases t with
  | date time =>
    cases own with
    | none =>
      by_cases hle : r.time ≤ time
      · exact Or.inl (by simp [resolve, appended, Entry.latestBy?,
          Entry.newestFirst, Entry.ofFirst, hle])
      · exact Or.inr (by simp [resolve, appended, Entry.latestBy?,
          Entry.newestFirst, Entry.ofFirst, hle])
    | some e =>
      have hlatest := e.map_latestBy?_append r time
      split at hlatest
      · exact Or.inl hlatest
      · exact Or.inr hlatest
  | revision id =>
    cases own with
    | none =>
      by_cases heq : r.id = id
      · exact Or.inl (by simp [resolve, appended, Entry.written?,
          Entry.revisions, Entry.ofFirst, heq])
      · exact Or.inr (by simp [resolve, appended, Entry.written?,
          Entry.revisions, Entry.ofFirst, heq])
    | some e =>
      have hwritten := e.map_written?_append r id
      cases hbefore : (e.written? id).map Revision.value with
      | some value =>
        rw [hbefore] at hwritten
        exact Or.inr (hwritten.trans hbefore.symm)
      | none =>
        rw [hbefore, Option.none_or] at hwritten
        split at hwritten
        · exact Or.inl hwritten
        · exact Or.inr (hwritten.trans hbefore.symm)
  | last => exact ht.elim
  | steps count => exact ht.elim

end Target

namespace Archive

variable {a b : Archive}

theorem entriesAt_cons (l : Location) (above : List Location) (path : Path) :
    entriesAt (l :: above) path =
      (l.tree.get? path).toList ++ entriesAt above path := by
  unfold entriesAt
  rw [List.filterMap_cons]
  cases l.tree.get? path with
  | none => rfl
  | some e => rfl

/-- Where the value that the target means in a chain is appended to the first
location, the target means it again. -/
theorem map_resolveChain_appended {t : Target} (ht : t.IsAbsolute)
    {l m : Location} {above : List Location} {path : Path} {name : String}
    {r : Revision}
    (hm : m.tree.get? path = some (appended name r (l.tree.get? path)))
    (hr : (t.resolveChain (entriesAt (l :: above) path)).map Revision.value =
      some r.value) :
    (t.resolveChain (entriesAt (m :: above) path)).map Revision.value =
      some r.value := by
  have hchain (k : Location) :
      (t.resolveChain (entriesAt (k :: above) path)).map Revision.value =
        (((k.tree.get? path).bind t.resolve).map Revision.value).or
          (((entriesAt above path).findSome? t.resolve).map Revision.value) := by
    rw [ht.resolveChain_eq, entriesAt_cons, List.findSome?_append, Option.map_or]
    cases k.tree.get? path with
    | none => rfl
    | some e => simp
  rw [hchain] at hr ⊢
  rw [hm, Option.bind_some]
  rcases ht.map_resolve_appended name r (l.tree.get? path) with hnew | hbefore
  · rw [hnew, Option.some_or]
  · rw [hbefore]
    exact hr

/-! ## The same plan again -/

section Again

variable {id : String} {request : RollbackRequest} {now : Instant}
  {report : RollbackReport} {plan : RollbackPlan} {l m : Location}
  {above : List Location}

/-- What a rollback has written is appended to the settings of the location. -/
theorem RolledBack.get?_resolved (ha : a.WellFormed)
    (h : RolledBack a b id request report plan l m above)
    (hrollback : a.rollback id request now = (.ok report, b)) :
    ∀ x ∈ plan.resolved, ∃ r : Revision, r.time = now ∧ r.value = x.2 ∧
      m.tree.get? x.1 =
        some (appended (x.1.getLastD "") r (l.tree.get? x.1)) := by
  have hl := (location_of_scopes h.before).1
  have hm := (location_of_scopes h.after).1
  rcases extended_of_rollback ha h.planned hl hrollback with
    ⟨hnil, -, -⟩ | ⟨-, -, m', hextended, rfl⟩
  · simp [hnil]
  · have hid : id = m'.id := by
      rw [hextended.id]
      exact (mem_of_findLocation? (location_eq_ok_iff.1 hl)).2.symm
    have hput : (a.put m').location m'.id = .ok m' :=
      location_put (hasLocation_iff.2 ⟨l, by
        rw [← hid]
        exact location_eq_ok_iff.1 hl⟩)
    have hm : (a.put m').location id = .ok m := hm
    rw [hid, hput] at hm
    obtain rfl := Except.ok.inj hm
    intro x hx
    refine ⟨⟨a.nextRevision, now, x.2, .retire, false⟩, rfl, rfl, ?_⟩
    cases he : l.tree.get? x.1 with
    | none => exact hextended.begun x hx he
    | some e => exact hextended.continued x hx e he

/-- What a rollback has written lies below backends. -/
theorem RolledBack.deep (ha : a.WellFormed)
    (h : RolledBack a b id request report plan l m above)
    (hrollback : a.rollback id request now = (.ok report, b)) :
    ∀ x ∈ plan.resolved, 2 ≤ x.1.length := by
  obtain ⟨plan', l', n, c, hp, -⟩ := prepared_of_rollback hrollback
  obtain rfl := Except.ok.inj ((of_prepareRollback hp).1.symm.trans h.planned)
  rcases rollback_of_prepared ha hp with ⟨hdeep, -⟩ | ⟨-, reason, d, herror, -⟩
  · exact hdeep
  · rw [hrollback] at herror
    cases (Prod.mk.inj herror).1

/-- A rollback leaves the policy. -/
theorem policy_of_rollback (ha : a.WellFormed)
    (h : RolledBack a b id request report plan l m above)
    (hrollback : a.rollback id request now = (.ok report, b)) :
    b.policy = a.policy := by
  rcases extended_of_rollback ha h.planned (location_of_scopes h.before).1
    hrollback with ⟨-, -, rfl⟩ | ⟨-, -, k, -, rfl⟩
  · rfl
  · rfl

/-- Where a rollback has written nothing, a target means what it meant before. -/
theorem RolledBack.resolved_iff_of_notMem
    (h : RolledBack a b id request report plan l m above) (t : Target)
    {x : Path × Value} (hx : x.1 ∉ plan.resolved.map Prod.fst) :
    Resolved t (m :: above) x ↔ Resolved t (l :: above) x := by
  have hget := h.others x.1 hx
  rw [resolved_iff, resolved_iff, entriesAt_cons_congr hget]
  simp only [List.head?_cons, Option.bind_some, hget]

/-- Behind a rollback to a target that stays, each path goes back to what it
went back to before. -/
theorem RolledBack.resolved_again_iff (ha : a.WellFormed)
    (h : RolledBack a b id request report plan l m above)
    (hrollback : a.rollback id request now = (.ok report, b))
    (ht : request.target.IsAbsolute) {x : Path × Value} :
    Resolved request.target (m :: above) x ↔
      Resolved request.target (l :: above) x := by
  obtain ⟨path, value⟩ := x
  by_cases hpath : path ∈ plan.resolved.map Prod.fst
  · obtain ⟨⟨path, v⟩, hx, rfl⟩ := List.mem_map.1 hpath
    have hl : Resolved request.target (l :: above) (path, v) :=
      ((Archive.mem_resolved_iff ha.trees h.planned h.before).1 hx).2
    obtain ⟨hvalue, hkind⟩ := resolved_iff.1 hl
    obtain ⟨r, -, rfl, hget⟩ := h.get?_resolved ha hrollback _ hx
    have hm : Resolved request.target (m :: above) (path, r.value) := by
      refine resolved_iff.2 ⟨map_resolveChain_appended ht hget hvalue, ?_⟩
      intro own hown
      have hown : m.tree.get? path = some own := hown
      obtain rfl := Option.some.inj (hget.symm.trans hown)
      cases he : l.tree.get? path with
      | none => rfl
      | some e =>
        rw [← hkind e he]
        exact e.kind_append r
    constructor
    · intro hagain
      exact hagain.unique hm ▸ hl
    · intro hbefore
      exact hbefore.unique hl ▸ hm
  · exact h.resolved_iff_of_notMem request.target hpath

section Report

variable (ha : a.WellFormed)
  (h : RolledBack a b id request report plan l m above)
  (hrollback : a.rollback id request now = (.ok report, b))
  (ht : request.target.IsAbsolute)

include ha h

/-- The trees that are looked into are sound before a rollback and behind it. -/
theorem RolledBack.trees :
    (∀ k ∈ l :: above, k.tree.Sound) ∧ ∀ k ∈ m :: above, k.tree.Sound := by
  obtain ⟨-, -, -, -, hthere⟩ := of_scopes h.before
  have hs : ∀ k ∈ l :: above, k.tree.Sound := fun k hk => ha.trees k (hthere k hk)
  exact ⟨hs, List.forall_mem_cons.2 ⟨h.sound, (List.forall_mem_cons.1 hs).2⟩⟩

/-- Behind a rollback the same paths are looked at. -/
theorem RolledBack.mem_pathsIn_again_iff {path : Path} :
    path ∈ pathsIn (m :: above) request.backend ↔
      path ∈ pathsIn (l :: above) request.backend := by
  obtain ⟨hs, hs'⟩ := h.trees ha
  obtain ⟨hbackend, -⟩ := of_plan h.planned
  by_cases hpath : path ∈ plan.resolved.map Prod.fst
  · obtain ⟨x, hx, rfl⟩ := List.mem_map.1 hpath
    obtain ⟨hmem, -⟩ := (Archive.mem_resolved_iff ha.trees h.planned h.before).1 hx
    obtain ⟨e, he, -⟩ := h.written x hx
    have hseen : entriesAt (m :: above) x.1 ≠ [] :=
      entriesAt_ne_nil_iff.2 ⟨m, List.mem_cons_self, e, he⟩
    rw [Archive.mem_pathsIn_iff hs' hbackend, and_iff_right hseen]
    exact iff_of_true ((Archive.mem_pathsIn_iff hs hbackend).1 hmem).2 hmem
  · rw [Archive.mem_pathsIn_iff hs' hbackend, Archive.mem_pathsIn_iff hs hbackend,
      entriesAt_cons_congr (h.others path hpath)]

/-- Behind a rollback a plan that sends the same paths back skips the same
paths. -/
theorem RolledBack.skipped_perm (hb : b.WellFormed) {next : RollbackPlan}
    (hnext : b.plan id request = .ok next)
    (hperm : (next.resolved.map Prod.fst).Perm (plan.resolved.map Prod.fst)) :
    (next.skipped.map Prod.fst).Perm (plan.skipped.map Prod.fst) := by
  have hn {c : Archive} (hs : ∀ k ∈ c.locations, k.tree.Sound)
      {p : RollbackPlan} (hp : c.plan id request = .ok p) {scopes : List Location}
      (hscopes : c.scopes id request.recursive = .ok scopes) :
      (p.skipped.map Prod.fst).Nodup := by
    have hall := (perm_of_plan hs hp hscopes).1.nodup_iff.2 (nodup_pathsIn _ _)
    rw [List.map_append] at hall
    exact hall.of_append_right
  refine (List.perm_ext_iff_of_nodup (hn hb.trees hnext h.after)
    (hn ha.trees h.planned h.before)).2 fun path => ?_
  rw [Archive.mem_skipped_iff hb.trees hnext h.after,
    Archive.mem_skipped_iff ha.trees h.planned h.before, h.mem_pathsIn_again_iff ha,
    hperm.mem_iff]

/-- Behind a rollback the same request is carried out at any later instant, if it
has a plan that sends no further paths back and there is a number for it. -/
theorem RolledBack.exists_rollback_of_plan (hb : b.WellFormed)
    {next : RollbackPlan} (hnext : b.plan id request = .ok next)
    (hrollback : a.rollback id request now = (.ok report, b))
    (hpaths : ∀ x ∈ next.resolved, x.1 ∈ plan.resolved.map Prod.fst)
    {later : Instant} (hlater : now ≤ later)
    (hcounter : b.nextRevision < Numeral.maxWord) :
    ∃ report' c, b.rollback id request later = (.ok report', c) := by
  have hm := location_eq_ok_iff.1 (location_of_scopes h.after).1
  have hitems : ∀ x ∈ next.resolved,
      2 ≤ x.1.length ∧ m.tree.Fits x.1 x.2 later := by
    intro x hx
    obtain ⟨y, hy, hyx⟩ := List.mem_map.1 (hpaths x hx)
    refine ⟨hyx ▸ h.deep ha hrollback y hy, fun own hown => ⟨?_, ?_⟩⟩
    · obtain ⟨-, hresolved⟩ :=
        (Archive.mem_resolved_iff hb.trees hnext h.after).1 hx
      exact (resolved_iff.1 hresolved).2 own hown
    · obtain ⟨r, rfl, -, hget⟩ := h.get?_resolved ha hrollback y hy
      obtain rfl := Option.some.inj (hget.symm.trans (hyx ▸ hown))
      cases l.tree.get? y.1 with
      | none => exact hlater
      | some e => exact hlater
  rcases rollback_of_fits hb hnext hm hitems with hok | ⟨-, hexhausted⟩
  · exact hok
  · exact absurd hcounter hexhausted

include hrollback ht

/-- If a rollback has a plan, so has the same rollback behind it. -/
theorem RolledBack.exists_plan_again : ∃ next, b.plan id request = .ok next := by
  obtain ⟨hbackend, scopes, hscopes, hfold⟩ := of_plan h.planned
  obtain rfl := Except.ok.inj (hscopes.symm.trans h.before)
  rw [plan_of_scopes hbackend h.after, exists_planPaths_iff,
    policy_of_rollback ha h hrollback]
  refine (exists_planPaths_iff.1 ⟨plan, hfold⟩).imp_right ?_
  intro hall path hpath
  obtain ⟨value, hvalue⟩ := hall path ((h.mem_pathsIn_again_iff ha).1 hpath)
  exact ⟨value, (h.resolved_again_iff ha hrollback ht).2 hvalue⟩

/-- The two plans send the same paths back, to the same values. -/
theorem RolledBack.plan_again_perm (hb : b.WellFormed) {next : RollbackPlan}
    (hnext : b.plan id request = .ok next) :
    next.resolved.Perm plan.resolved ∧
      (next.skipped.map Prod.fst).Perm (plan.skipped.map Prod.fst) := by
  have hresolved (x : Path × Value) : x ∈ next.resolved ↔ x ∈ plan.resolved := by
    rw [Archive.mem_resolved_iff hb.trees hnext h.after,
      Archive.mem_resolved_iff ha.trees h.planned h.before,
      h.mem_pathsIn_again_iff ha, h.resolved_again_iff ha hrollback ht]
  have hperm : next.resolved.Perm plan.resolved :=
    (List.perm_ext_iff_of_nodup (paths_of_plan hb.trees hnext).2.of_map
      (paths_of_plan ha.trees h.planned).2.of_map).2 hresolved
  exact ⟨hperm, h.skipped_perm ha hb hnext (hperm.map Prod.fst)⟩

/-- If a rollback is carried out, so is the same rollback behind it, as long as
there is a number for it. -/
theorem RolledBack.exists_rollback_again (hb : b.WellFormed) {later : Instant}
    (hlater : now ≤ later) (hcounter : b.nextRevision < Numeral.maxWord) :
    ∃ report' c, b.rollback id request later = (.ok report', c) := by
  obtain ⟨next, hnext⟩ := h.exists_plan_again ha hrollback ht
  obtain ⟨hperm, -⟩ := h.plan_again_perm ha hrollback ht hb hnext
  exact h.exists_rollback_of_plan ha hb hnext hrollback
    (fun x hx => List.mem_map_of_mem (hperm.mem_iff.1 hx)) hlater hcounter

end Report

end Again

/-! ## The same rollback again -/

/-- What the first location holds is seen. -/
theorem seen_of_own {m : Location} {above : List Location} {x : Path × Value}
    (hm : ∃ e, m.tree.get? x.1 = some e ∧ e.current = x.2) :
    Seen (m :: above) x := by
  obtain ⟨e, he, hvalue⟩ := hm
  refine ⟨e, ?_, hvalue.symm⟩
  rw [entriesAt_cons, he]
  rfl

/-- The same settings are seen behind two rollbacks that write the same values. -/
theorem seen_again_iff {id : String} {request : RollbackRequest} {c : Archive}
    {report report' : RollbackReport} {plan next : RollbackPlan}
    {l m n : Location} {above : List Location}
    (h : RolledBack a b id request report plan l m above)
    (k : RolledBack b c id request report' next m n above)
    (hperm : next.resolved.Perm plan.resolved) {x : Path × Value} :
    Seen (n :: above) x ↔ Seen (m :: above) x := by
  obtain ⟨path, value⟩ := x
  by_cases hpath : path ∈ plan.resolved.map Prod.fst
  · obtain ⟨⟨path, v⟩, hx, rfl⟩ := List.mem_map.1 hpath
    have hm : Seen (m :: above) (path, v) := seen_of_own (h.written _ hx)
    have hn : Seen (n :: above) (path, v) :=
      seen_of_own (k.written _ (hperm.mem_iff.2 hx))
    constructor
    · intro hagain
      exact hagain.unique hn ▸ hm
    · intro hbefore
      exact hbefore.unique hm ▸ hn
  · have hnot : path ∉ next.resolved.map Prod.fst :=
      mt (hperm.map Prod.fst).mem_iff.1 hpath
    unfold Seen
    rw [entriesAt_cons_congr (k.others path hnot)]

/-- A rollback to a date or to a number that is carried out may be repeated at
any later instant.  It applies and skips the same settings again, and the
snapshot of what it was asked for is the same, as long as there is a number for
it. -/
theorem repeated_of_reachable {allowed : Operation → Prop}
    (h : Reachable allowed a) {id : String} {request : RollbackRequest}
    (ht : request.target.IsAbsolute) {now later : Instant}
    {report : RollbackReport}
    (hrollback : a.rollback id request now = (.ok report, b))
    (hlater : now ≤ later) (hcounter : b.nextRevision < Numeral.maxWord) :
    ∃ report' c shown, b.rollback id request later = (.ok report', c) ∧
      report'.applied.Perm report.applied ∧
      report'.skipped.Perm report.skipped ∧
      b.snapshot id request.backend request.recursive = .ok shown ∧
      c.snapshot id request.backend request.recursive = .ok shown := by
  have ha := h.wellFormed
  have hb : Reachable (fun _ => True) b := by
    have hperform : a.perform (.rollback id request now) = b :=
      congrArg Prod.snd hrollback
    exact hperform ▸ (h.mono fun _ _ => trivial).perform trivial
  obtain ⟨plan, l, m, above, hfirst⟩ := of_rollback ha h.isForest hrollback
  obtain ⟨report', c, hagain⟩ :=
    hfirst.exists_rollback_again ha hrollback ht hb.wellFormed hlater hcounter
  obtain ⟨next, m', n, above', hsecond⟩ :=
    of_rollback hb.wellFormed hb.isForest hagain
  obtain ⟨rfl, rfl⟩ :=
    List.cons.inj (Except.ok.inj (hsecond.before.symm.trans hfirst.after))
  obtain ⟨hresolved, hskipped⟩ := hfirst.plan_again_perm ha hrollback ht
    hb.wellFormed hsecond.planned
  obtain ⟨hbackend, -⟩ := of_plan hfirst.planned
  refine ⟨report', c, _, hagain, ?_, ?_, snapshot_eq hfirst.after, ?_⟩
  · rw [hsecond.applied, hfirst.applied]
    exact hresolved.map _
  · have htexts := hskipped.map Path.text
    rw [List.map_map, List.map_map] at htexts
    rw [hsecond.skipped, hfirst.skipped]
    exact htexts
  · rw [snapshot_eq hsecond.after]
    have hmem (x : Path × Value) : x ∈ visible (n :: above') request.backend ↔
        x ∈ visible (m' :: above') request.backend := by
      rw [mem_visible_iff (hsecond.trees hb.wellFormed).2 hbackend,
        mem_visible_iff (hsecond.trees hb.wellFormed).1 hbackend,
        seen_again_iff hfirst hsecond hresolved]
    refine congrArg Except.ok (toElement_visible_congr
      (hsecond.trees hb.wellFormed).1 hbackend fun x => ?_)
    simp only [Snapshot.canonical, List.mem_map, hmem]

/-- A location takes an inherited value back over a later one of its own, and
skips a setting of another kind.  The next rollback passes the value that it now
has and finds the inherited one again. -/
theorem repeated_of_inherited_value :
    let a := fresh.run [.newLocation "desk" (some "default"),
      .storeValue "default" "/app/size" (.int 1) (.ofSecond 5) .keep,
      .storeValue "default" "/app/mode" (.int 2) (.ofSecond 5) .keep,
      .storeValue "desk" "/app/size" (.int 3) (.ofSecond 7) .retire,
      .storeValue "desk" "/app/mode" (.string "wide") (.ofSecond 8) .keep]
    let request : RollbackRequest :=
      { target := .date (.ofSecond 6), recursive := true }
    ∃ b report' c shown, a.rollback "desk" request (.ofSecond 9) =
        (.ok ⟨some 5, ["/app/size"], ["/app/mode"]⟩, b) ∧
      b.rollback "desk" request (.ofSecond 10) = (.ok report', c) ∧
      report'.applied = ["/app/size"] ∧ report'.skipped = ["/app/mode"] ∧
      b.snapshot "desk" none true = .ok shown ∧
      c.snapshot "desk" none true = .ok shown := by
  intro a request
  have h : Reachable (fun _ => True) a := reachable_run .fresh _
  have hreport : (a.rollback "desk" request (.ofSecond 9)).1.toOption =
      some ⟨some 5, ["/app/size"], ["/app/mode"]⟩ := by decide +kernel
  have hfirst := eq_mk_of_toOption hreport
  have htarget : request.target.IsAbsolute := trivial
  obtain ⟨report', c, shown, hagain, happlied, hskipped, hbefore, hbehind⟩ :=
    repeated_of_reachable h htarget hfirst (by decide : _ ≤ Instant.ofSecond 10)
      (by decide +kernel)
  exact ⟨_, report', c, shown, hfirst, hagain, List.perm_singleton.1 happlied,
    List.perm_singleton.1 hskipped, hbefore, hbehind⟩

end Archive

end SettingsArchive
