import SettingsArchive.Proofs.Repeating

/-!
# Undoing an undoing

The last value and one step back both mean the value that was seen before the
current one.  A rollback to it writes that value in front of all others, so the
value that was seen is the next one behind it
(`RolledBack.valuesBack_resolved`), and the same rollback once more brings it
back.

The value before may have been inherited, and then the location begins a setting
of its own with it.  Such a setting takes the value that was seen only if both
are of one kind, so this is asked of the locations that are looked into
(`OneKind`); without those above it is always so.
-/

namespace SettingsArchive

open Directory

/-! ## One value back -/

/-- The values of a chain of entries, newest first.  Those of an entry are in
front of those of the entries that it hides. -/
def Entry.valuesBack (chain : List Entry) : List Value :=
  (chain.flatMap Entry.newestFirst).map Revision.value

open Entry (valuesBack)

namespace Target

/-- A target that means the value before the one that is seen. -/
def IsOneBack : Target → Prop
  | .last => True
  | .steps count => count = 1
  | .date _ | .revision _ => False

variable {t : Target} {chain : List Entry}

/-- The value one back is the second of all values, if there are two. -/
theorem IsOneBack.map_resolveChain_of_cons (ht : t.IsOneBack) {v u : Value}
    {rest : List Value} (h : valuesBack chain = v :: u :: rest) :
    (t.resolveChain chain).map Revision.value = some u := by
  unfold valuesBack at h
  cases t with
  | last =>
    show (chain.flatMap Entry.newestFirst)[1]?.map Revision.value = some u
    rw [← List.getElem?_map, h]
    rfl
  | steps count =>
    obtain rfl : count = 1 := ht
    show ((chain.flatMap Entry.newestFirst).take 2).getLast?.map Revision.value =
      some u
    rw [← List.getLast?_map, List.map_take, h]
    rfl
  | date time => exact ht.elim
  | revision id => exact ht.elim

/-- A target one back means one of the values of a chain. -/
theorem IsOneBack.mem_valuesBack (ht : t.IsOneBack) {v : Value}
    (h : (t.resolveChain chain).map Revision.value = some v) :
    v ∈ valuesBack chain := by
  obtain ⟨r, hr, rfl⟩ := Option.map_eq_some_iff.1 h
  refine List.mem_map_of_mem ?_
  cases t with
  | last => exact List.mem_of_getElem? hr
  | steps count => exact List.mem_of_mem_take (List.mem_of_getLast? hr)
  | date time => exact ht.elim
  | revision id => exact ht.elim

end Target

namespace Archive

variable {a b c : Archive}

/-! ## Values that are seen -/

/-- The value that is seen is the first of all values. -/
theorem seen_iff_head? {scopes : List Location} {x : Path × Value} :
    Seen scopes x ↔ (valuesBack (entriesAt scopes x.1)).head? = some x.2 := by
  unfold Seen
  cases entriesAt scopes x.1 with
  | nil => simp [valuesBack]
  | cons e es => simp [valuesBack, Entry.newestFirst, Entry.current, eq_comm]

/-- A revision that is appended to a setting of the first location puts its value
in front of all others. -/
theorem valuesBack_appended {l m : Location} {above : List Location} {path : Path}
    {name : String} {r : Revision}
    (hm : m.tree.get? path = some (appended name r (l.tree.get? path))) :
    valuesBack (entriesAt (m :: above) path) =
      r.value :: valuesBack (entriesAt (l :: above) path) := by
  rw [entriesAt_cons, entriesAt_cons, hm]
  cases l.tree.get? path with
  | none => simp [valuesBack, appended, Entry.newestFirst, Entry.ofFirst]
  | some e =>
    obtain ⟨-, -, hvalue, -⟩ := Entry.retired_eq r.mask e.head
    simp [valuesBack, appended, Entry.newestFirst, Entry.append, hvalue]

/-- No path has entries of two kinds in these locations. -/
def OneKind (scopes : List Location) : Prop :=
  ∀ path, ∀ d ∈ entriesAt scopes path, ∀ e ∈ entriesAt scopes path,
    d.kind = e.kind

theorem oneKind_singleton (l : Location) : OneKind [l] := by
  intro path d hd e he
  rw [entriesAt_cons] at hd he
  cases hget : l.tree.get? path with
  | none =>
    rw [hget] at hd
    cases hd
  | some own =>
    rw [hget] at hd he
    rw [List.mem_singleton.1 hd, List.mem_singleton.1 he]

/-- A value of a chain is of the kind of one of its entries. -/
theorem exists_kind_of_mem_valuesBack {scopes : List Location}
    (hk : ∀ k ∈ scopes, k.tree.HasKinds) {path : Path} {v : Value}
    (hv : v ∈ valuesBack (entriesAt scopes path)) :
    ∃ e ∈ entriesAt scopes path, v.kind = e.kind := by
  obtain ⟨r, hr, rfl⟩ := List.mem_map.1 hv
  obtain ⟨e, he, hr⟩ := List.mem_flatMap.1 hr
  obtain ⟨k, hmem, hget⟩ := List.mem_filterMap.1 he
  rw [Entry.newestFirst_eq, List.mem_reverse] at hr
  have hrecorded : (r.time, r.value) ∈ k.tree.recorded path :=
    mem_recorded_iff.2 ⟨e, hget, r, hr, rfl⟩
  exact ⟨e, he, (hk k hmem).kind_eq hget hrecorded⟩

/-! ## The plan of the second rollback -/

section Twice

variable {id : String} {request : RollbackRequest} {now : Instant}
  {report : RollbackReport} {plan next : RollbackPlan} {l m n : Location}
  {above : List Location} (ha : a.WellFormed) (hk : a.HasKinds)
  (h : RolledBack a b id request report plan l m above)
  (hrollback : a.rollback id request now = (.ok report, b))
  (ht : request.target.IsOneBack) (hone : OneKind (l :: above))

include ha h in
/-- At a path that goes back a value is seen. -/
theorem RolledBack.exists_seen {x : Path × Value} (hx : x ∈ plan.resolved) :
    ∃ value, Seen (l :: above) (x.1, value) := by
  obtain ⟨hbackend, -⟩ := of_plan h.planned
  obtain ⟨hmem, -⟩ := (Archive.mem_resolved_iff ha.trees h.planned h.before).1 hx
  obtain ⟨hne, -⟩ := (Archive.mem_pathsIn_iff (h.trees ha).1 hbackend).1 hmem
  obtain ⟨e, es, hentries⟩ := List.exists_cons_of_ne_nil hne
  exact ⟨e.current, e, by rw [hentries]; rfl, rfl⟩

include ha hk h hrollback ht hone

/-- A setting that went back goes back to the value that was seen. -/
theorem RolledBack.resolved_of_seen {x : Path × Value} (hx : x ∈ plan.resolved)
    {u : Value} (hu : Seen (l :: above) (x.1, u)) :
    Resolved request.target (m :: above) (x.1, u) := by
  obtain ⟨path, v⟩ := x
  obtain ⟨-, hresolved⟩ :=
    (Archive.mem_resolved_iff ha.trees h.planned h.before).1 hx
  obtain ⟨hvalue, -⟩ := resolved_iff.1 hresolved
  obtain ⟨r, -, rfl, hget⟩ := h.get?_resolved ha hrollback _ hx
  obtain ⟨rest, hrest⟩ := List.head?_eq_some_iff.1 (seen_iff_head?.1 hu)
  have hback : valuesBack (entriesAt (m :: above) path) = r.value :: u :: rest :=
    (valuesBack_appended hget).trans (congrArg _ hrest)
  refine resolved_iff.2 ⟨ht.map_resolveChain_of_cons hback, ?_⟩
  -- The setting has the kind that it had, or that of the value it began with.
  obtain ⟨-, -, -, -, hthere⟩ := of_scopes h.before
  have hkinds (k) (hmem : k ∈ l :: above) := hk k (hthere k hmem)
  have hmem : u ∈ valuesBack (entriesAt (l :: above) path) :=
    hrest ▸ List.mem_cons_self
  obtain ⟨d, hd, hu⟩ := exists_kind_of_mem_valuesBack hkinds hmem
  intro own hown
  have hown : m.tree.get? path = some own := hown
  obtain rfl := Option.some.inj (hget.symm.trans hown)
  cases he : l.tree.get? path with
  | none =>
    obtain ⟨e, he, hv⟩ :=
      exists_kind_of_mem_valuesBack hkinds (ht.mem_valuesBack hvalue)
    exact hv.trans ((hone path e he d hd).trans hu.symm)
  | some e =>
    have he : e ∈ entriesAt (l :: above) path := by
      rw [entriesAt_cons, he]
      exact List.mem_cons_self
    exact (e.kind_append r).trans ((hone path e he d hd).trans hu.symm)

/-- The second plan sends the settings back that the first one did, each to the
value that was seen before. -/
theorem RolledBack.mem_resolved_next_iff (hb : b.WellFormed)
    (hnext : b.plan id request = .ok next) {x : Path × Value} :
    x ∈ next.resolved ↔
      x.1 ∈ plan.resolved.map Prod.fst ∧ Seen (l :: above) x := by
  obtain ⟨path, value⟩ := x
  rw [Archive.mem_resolved_iff hb.trees hnext h.after, h.mem_pathsIn_again_iff ha]
  by_cases hpath : path ∈ plan.resolved.map Prod.fst
  · obtain ⟨y, hy, hyx⟩ := List.mem_map.1 hpath
    obtain ⟨hmem, -⟩ := (Archive.mem_resolved_iff ha.trees h.planned h.before).1 hy
    have hback (u : Value) (hu : Seen (l :: above) (path, u)) :
        Resolved request.target (m :: above) (path, u) :=
      hyx ▸ h.resolved_of_seen ha hk hrollback ht hone hy (hyx.symm ▸ hu)
    rw [and_iff_right hpath, and_iff_right (hyx ▸ hmem)]
    constructor
    · intro hx
      obtain ⟨v, hv⟩ := h.exists_seen ha hy
      rw [hyx] at hv
      exact (hback v hv).unique hx ▸ hv
    · exact hback value
  · -- Where nothing was written, what did not go back does not go back now.
    rw [h.resolved_iff_of_notMem request.target hpath,
      ← Archive.mem_resolved_iff ha.trees h.planned h.before]
    exact iff_of_false (fun hx => hpath (List.mem_map_of_mem hx))
      fun hx => hpath hx.1

/-- The second plan sends the same paths back. -/
theorem RolledBack.paths_next_perm (hb : b.WellFormed)
    (hnext : b.plan id request = .ok next) :
    (next.resolved.map Prod.fst).Perm (plan.resolved.map Prod.fst) := by
  refine (List.perm_ext_iff_of_nodup (paths_of_plan hb.trees hnext).2
    (paths_of_plan ha.trees h.planned).2).2 fun path => ?_
  have hiff {x : Path × Value} :=
    h.mem_resolved_next_iff ha hk hrollback ht hone hb hnext (x := x)
  constructor
  · intro hpath
    obtain ⟨x, hx, rfl⟩ := List.mem_map.1 hpath
    exact (hiff.1 hx).1
  · intro hpath
    obtain ⟨x, hx, rfl⟩ := List.mem_map.1 hpath
    obtain ⟨value, hseen⟩ := h.exists_seen ha hx
    exact List.mem_map.2 ⟨(x.1, value), hiff.2 ⟨hpath, hseen⟩, rfl⟩

/-- Behind both rollbacks all is seen that was seen before them. -/
theorem RolledBack.seen_next_iff (hb : b.WellFormed) {report' : RollbackReport}
    (k : RolledBack b c id request report' next m n above) {x : Path × Value} :
    Seen (n :: above) x ↔ Seen (l :: above) x := by
  obtain ⟨path, value⟩ := x
  have hperm := h.paths_next_perm ha hk hrollback ht hone hb k.planned
  by_cases hpath : path ∈ plan.resolved.map Prod.fst
  · have hnew (v : Value) (hv : Seen (l :: above) (path, v)) :
        Seen (n :: above) (path, v) :=
      seen_of_own (k.written _ ((h.mem_resolved_next_iff ha hk hrollback ht hone hb
        k.planned).2 ⟨hpath, hv⟩))
    obtain ⟨y, hy, hyx⟩ := List.mem_map.1 hpath
    obtain ⟨v, hv⟩ := h.exists_seen ha hy
    rw [hyx] at hv
    constructor
    · intro hx
      exact (hnew v hv).unique hx ▸ hv
    · exact hnew value
  · have hnot : path ∉ next.resolved.map Prod.fst := mt hperm.mem_iff.1 hpath
    unfold Seen
    rw [entriesAt_cons_congr (k.others path hnot),
      entriesAt_cons_congr (h.others path hpath)]

/-- Behind both rollbacks the snapshot is what it was before them. -/
theorem RolledBack.snapshot_next (hb : b.WellFormed) {report' : RollbackReport}
    (k : RolledBack b c id request report' next m n above) :
    c.snapshot id request.backend request.recursive =
      a.snapshot id request.backend request.recursive := by
  obtain ⟨hbackend, -⟩ := of_plan h.planned
  have hmem (x : Path × Value) : x ∈ visible (n :: above) request.backend ↔
      x ∈ visible (l :: above) request.backend := by
    rw [mem_visible_iff (k.trees hb).2 hbackend,
      mem_visible_iff (h.trees ha).1 hbackend,
      h.seen_next_iff ha hk hrollback ht hone hb k]
  rw [snapshot_eq k.after, snapshot_eq h.before]
  refine congrArg Except.ok
    (toElement_visible_congr (h.trees ha).1 hbackend fun x => ?_)
  simp only [Snapshot.canonical, List.mem_map, hmem]

end Twice

/-! ## Two rollbacks -/

/-- The locations that a request looks into hold settings of one kind at each path
if it looks into one only, or if all that are linked do. -/
theorem oneKind_of_scopes {id : String} {recursive : Bool} {scopes : List Location}
    (hscopes : a.scopes id recursive = .ok scopes)
    (hkinds : recursive → ∀ chain, a.ancestors id = .ok chain → OneKind chain) :
    OneKind scopes := by
  cases recursive with
  | true => exact hkinds rfl scopes hscopes
  | false =>
    obtain ⟨l, -, hfind, -⟩ := of_scopes hscopes
    rw [scopes_of_location (location_eq_ok_iff.2 hfind)] at hscopes
    exact Except.ok.inj hscopes ▸ oneKind_singleton l

/-- Two rollbacks to the value before, one after the other, leave the snapshot of
what they were asked for as it was.  The locations that are looked into hold
settings of one kind at each path, which is no condition where none above is
looked into.  The second rollback applies and skips the same settings as the
first one, and it is carried out at any later instant if there is a number for
it. -/
theorem undone_of_reachable {allowed : Operation → Prop}
    (h : Reachable allowed a) (hpolicy : a.policy = .bestEffort) {id : String}
    {request : RollbackRequest} (ht : request.target.IsOneBack)
    (hkinds : request.recursive → ∀ chain, a.ancestors id = .ok chain →
      OneKind chain) {now later : Instant} {report : RollbackReport}
    (hrollback : a.rollback id request now = (.ok report, b))
    (hlater : now ≤ later) :
    (b.nextRevision < Numeral.maxWord →
      ∃ report' c, b.rollback id request later = (.ok report', c)) ∧
    ∀ report' c, b.rollback id request later = (.ok report', c) →
      report'.applied.Perm report.applied ∧
      report'.skipped.Perm report.skipped ∧
      ∃ shown, a.snapshot id request.backend request.recursive = .ok shown ∧
        c.snapshot id request.backend request.recursive = .ok shown := by
  have ha := h.wellFormed
  have hb : Reachable (fun _ => True) b := by
    have hperform : a.perform (.rollback id request now) = b :=
      congrArg Prod.snd hrollback
    exact hperform ▸ (h.mono fun _ _ => trivial).perform trivial
  obtain ⟨plan, l, m, above, hfirst⟩ := of_rollback ha h.isForest hrollback
  obtain ⟨hbackend, -⟩ := of_plan hfirst.planned
  have hone : OneKind (l :: above) := oneKind_of_scopes hfirst.before hkinds
  have hperm (next) (hnext : b.plan id request = .ok next) :=
    hfirst.paths_next_perm ha h.hasKinds hrollback ht hone hb.wellFormed hnext
  constructor
  · intro hcounter
    obtain ⟨next, hnext⟩ := exists_plan_bestEffort
      ((policy_of_rollback ha hfirst hrollback).trans hpolicy) hbackend
      hfirst.after
    exact hfirst.exists_rollback_of_plan ha hb.wellFormed hnext hrollback
      (fun x hx => (hperm next hnext).mem_iff.1 (List.mem_map_of_mem hx)) hlater
      hcounter
  · intro report' c hagain
    obtain ⟨next, m', n, above', hsecond⟩ :=
      of_rollback hb.wellFormed hb.isForest hagain
    obtain ⟨rfl, rfl⟩ :=
      List.cons.inj (Except.ok.inj (hsecond.before.symm.trans hfirst.after))
    have hresolved := (hperm next hsecond.planned).map Path.text
    have hskipped := (hfirst.skipped_perm ha hb.wellFormed hsecond.planned
      (hperm next hsecond.planned)).map Path.text
    rw [List.map_map, List.map_map] at hresolved hskipped
    have hsnapshot := hfirst.snapshot_next ha h.hasKinds hrollback ht hone
      hb.wellFormed hsecond
    have hbefore := @snapshot_eq a id request.backend _ _ hfirst.before
    refine ⟨?_, ?_, _, hbefore, hsnapshot.trans hbefore⟩
    · rw [hsecond.applied, hfirst.applied]
      exact hresolved
    · rw [hsecond.skipped, hfirst.skipped]
      exact hskipped

/-- Going back to the last values, a location takes an inherited value in place of
its only one and begins a setting of its own with the older of two inherited
values.  Going back once more returns from both, and a setting without an earlier
value is skipped twice. -/
theorem undone_of_crossed_scope :
    let a := fresh.run [.newLocation "desk" (some "default"),
      .storeValue "default" "/app/size" (.int 1) (.ofSecond 5) .keep,
      .storeValue "default" "/app/mode" (.int 2) (.ofSecond 5) .keep,
      .storeValue "default" "/app/mode" (.int 3) (.ofSecond 6) .retire,
      .storeValue "desk" "/app/size" (.int 4) (.ofSecond 7) .retire,
      .storeValue "desk" "/web/home" (.int 5) (.ofSecond 8) .keep]
    let request : RollbackRequest := { target := .last, recursive := true }
    ∃ b report' c shown, a.rollback "desk" request (.ofSecond 9) =
        (.ok ⟨some 6, ["/app/size", "/app/mode"], ["/web/home"]⟩, b) ∧
      (b.get "desk" "/app/size").toOption == some (some (.int 1)) ∧
      (b.get "desk" "/app/mode").toOption == some (some (.int 2)) ∧
      b.rollback "desk" request (.ofSecond 9) = (.ok report', c) ∧
      report'.applied.Perm ["/app/size", "/app/mode"] ∧
      report'.skipped = ["/web/home"] ∧
      a.snapshot "desk" none true = .ok shown ∧
      c.snapshot "desk" none true = .ok shown := by
  intro a request
  have h : Reachable (fun _ => True) a := reachable_run .fresh _
  have hlisted : ∀ l ∈ a.locations, ∀ x ∈ l.tree.allEntries,
      x.2.kind = .int := by decide +kernel
  have hkinds : request.recursive → ∀ chain, a.ancestors "desk" = .ok chain →
      OneKind chain := by
    intro _ chain hchain path d hd e he
    have hscopes : a.scopes "desk" true = .ok chain := hchain
    obtain ⟨-, -, -, -, hthere⟩ := of_scopes hscopes
    have hint : ∀ e ∈ entriesAt chain path, e.kind = .int := by
      intro e he
      obtain ⟨k, hk, hget⟩ := List.mem_filterMap.1 he
      have hmem := hthere k hk
      exact hlisted k hmem (path, e)
        ((h.wellFormed.trees k hmem).mem_allEntries_iff.2 hget)
    rw [hint d hd, hint e he]
  have hreport : (a.rollback "desk" request (.ofSecond 9)).1.toOption =
      some ⟨some 6, ["/app/size", "/app/mode"], ["/web/home"]⟩ := by
    decide +kernel
  have hfirst := eq_mk_of_toOption hreport
  have htarget : request.target.IsOneBack := trivial
  obtain ⟨hcarried, hundone⟩ := undone_of_reachable h rfl htarget hkinds hfirst
    (by decide : _ ≤ Instant.ofSecond 9)
  obtain ⟨report', c, hsecond⟩ := hcarried (by decide +kernel)
  obtain ⟨happlied, hskipped, shown, hbefore, hbehind⟩ := hundone report' c hsecond
  exact ⟨_, report', c, shown, hfirst, by decide +kernel, by decide +kernel,
    hsecond, happlied, List.perm_singleton.1 hskipped, hbefore, hbehind⟩

end Archive

end SettingsArchive
