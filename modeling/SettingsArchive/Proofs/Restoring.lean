import SettingsArchive.Proofs.Counting
import SettingsArchive.Proofs.Growth
import SettingsArchive.Proofs.Proper
import SettingsArchive.Proofs.Rollback

/-!
# Going back to an instant

A rollback to an instant brings back what was there at that instant, however
many writes and rollbacks came behind it (`restored_of_run`).

Later writes only grow an archive, so the latest value by the instant is the
one that was current then, in each location that is looked into
(`resolveChain_date_eq`).  A value can come back where the location has none or
one of the same kind, and a later setting of another kind is left alone.
-/

namespace SettingsArchive.Archive

open Directory

variable {a b : Archive}

/-! ## Best effort -/

theorem scopes_of_ancestors {id : String} {l : Location} {above : List Location}
    (h : a.ancestors id = .ok (l :: above)) (recursive : Bool) :
    a.scopes id recursive = .ok (l :: if recursive then above else []) := by
  have hscopes : a.scopes id true = .ok (l :: above) := h
  cases recursive with
  | true => exact hscopes
  | false => exact scopes_of_location (location_of_scopes hscopes).1

/-- Best effort carries a rollback out, unless there is no number for it, if the
location has nothing later and every setting lies below a backend. -/
theorem rollback_bestEffort (ha : a.WellFormed) (hf : a.IsForest)
    (hdeep : ∀ l ∈ a.locations, l.tree.IsDeep) (hpolicy : a.policy = .bestEffort)
    {id : String} {request : RollbackRequest} {now : Instant}
    (hbackend : ∀ backend, request.backend = some backend →
      Location.isValidBackend backend) {l : Location} {above : List Location}
    (hscopes : a.scopes id request.recursive = .ok (l :: above))
    (hnow : ∀ path e, l.tree.get? path = some e → e.head.time ≤ now) :
    (a.rollback id request now = (.error .counterExhausted, a) ∧
        ¬ a.nextRevision < Numeral.maxWord) ∨
      ∃ report b plan m, a.rollback id request now = (.ok report, b) ∧
        RolledBack a b id request report plan l m above := by
  have hs := ha.trees
  obtain ⟨plan, hplan⟩ := exists_plan_bestEffort hpolicy hbackend hscopes
  have hl := location_eq_ok_iff.1 (location_of_scopes hscopes).1
  have hfits : ∀ x ∈ plan.resolved,
      2 ≤ x.1.length ∧ l.tree.Fits x.1 x.2 now := by
    intro x hx
    obtain ⟨-, m, hm, e, he⟩ := (paths_of_plan hs hplan).1 x hx
    refine ⟨hdeep m hm x.1 e he, fun own hown => ⟨?_, hnow x.1 own hown⟩⟩
    obtain ⟨-, hresolved⟩ := (mem_resolved_iff hs hplan hscopes).1 hx
    exact (resolved_iff.1 hresolved).2 own hown
  rcases rollback_of_fits ha hplan hl hfits with ⟨report, b, hb⟩ | herror
  · obtain ⟨plan, l', m, above', hrolled⟩ := of_rollback ha hf hb
    obtain ⟨rfl, rfl⟩ :=
      List.cons.inj (Except.ok.inj (hscopes.symm.trans hrolled.before))
    exact Or.inr ⟨report, b, plan, m, hb, hrolled⟩
  · exact Or.inl herror

/-! ## What goes back -/

/-- In an archive that has grown, the locations that are looked into have
grown. -/
theorem Grown.scopes {t : Instant} (h : a.Grown t b) {id : String}
    {recursive : Bool} {l : Location} {above : List Location}
    (hscopes : a.scopes id recursive = .ok (l :: above)) :
    ∃ g : Location → Location,
      b.scopes id recursive = .ok (g l :: above.map g) ∧
        ∀ m ∈ l :: above, m.Grown t (g m) := by
  obtain ⟨g, hlocations, hg⟩ := h
  obtain ⟨-, -, -, -, hmem⟩ := of_scopes hscopes
  refine ⟨g, ?_, fun m hm => hg m (hmem m hm)⟩
  exact scopes_map (fun m hm => (hg m hm).id) (fun m hm => (hg m hm).parent)
    hlocations hscopes

section Grown

variable {t : Instant} {g : Location → Location} {l : Location}
  {above scopes : List Location} {path : Path}

/-- In locations that have grown, the target is what was seen at the instant. -/
theorem resolveChain_date_eq (hg : ∀ m ∈ scopes, m.Grown t (g m))
    (hold : ∀ m ∈ scopes, ∀ x ∈ m.tree.recorded path, x.1 ≤ t) :
    ((Target.date t).resolveChain (entriesAt (scopes.map g) path)).map
        Revision.value =
      (entriesAt scopes path).head?.map Entry.current := by
  show ((entriesAt (scopes.map g) path).findSome? (·.latestBy? t)).map
    Revision.value = _
  induction scopes with
  | nil => rfl
  | cons l ls ih =>
    obtain ⟨hgl, hgls⟩ := List.forall_mem_cons.1 hg
    obtain ⟨holdl, holdls⟩ := List.forall_mem_cons.1 hold
    have hrest := ih hgls holdls
    unfold entriesAt at hrest ⊢
    rw [List.map_cons, List.filterMap_cons, List.filterMap_cons]
    cases he : (g l).tree.get? path with
    | none =>
      have hl : l.tree.get? path = none := by
        cases hl : l.tree.get? path with
        | none => rfl
        | some e =>
          obtain ⟨e', he'⟩ := hgl.exists_get? hl
          rw [he] at he'
          cases he'
      rw [hl]
      exact hrest
    | some e =>
      have hlatest := hgl.latestBy?_eq holdl he
      rw [List.findSome?_cons]
      cases hl : l.tree.get? path with
      | none =>
        rw [hl] at hlatest
        rw [Option.map_eq_none_iff.1 hlatest]
        exact hrest
      | some old =>
        rw [hl] at hlatest
        obtain ⟨r, hr, hvalue⟩ := Option.map_eq_some_iff.1 hlatest
        rw [hr]
        exact congrArg some hvalue

/-- A path goes back to what was seen at the instant, if the location has no
setting of another kind there. -/
theorem resolved_date_iff (hg : ∀ m ∈ l :: above, m.Grown t (g m))
    (hold : ∀ m ∈ l :: above, ∀ x ∈ m.tree.recorded path, x.1 ≤ t)
    (value : Value) :
    Resolved (.date t) (g l :: above.map g) (path, value) ↔
      (entriesAt (l :: above) path).head?.map Entry.current = some value ∧
        ∀ own, (g l).tree.get? path = some own → own.kind = value.kind := by
  have hchain := resolveChain_date_eq hg hold
  rw [List.map_cons] at hchain
  rw [resolved_iff, hchain]
  rfl

/-- A setting that was there has the kind of the value that was current. -/
theorem kind_eq_of_grown {m : Location} (h : l.Grown t m)
    (hk : m.tree.HasKinds) {e own : Entry} (he : l.tree.get? path = some e)
    (hown : m.tree.get? path = some own) : own.kind = e.current.kind := by
  obtain ⟨new, hnew, -⟩ := h.recorded path
  have hmem : (e.head.time, e.current) ∈ m.tree.recorded path := by
    rw [hnew, recorded_of_get? he]
    exact List.mem_append_left _ (List.mem_of_getLast? e.getLast?_recorded)
  exact (hk.kind_eq hown hmem).symm

end Grown

/-! ## The rollback -/

/-- What a rollback of one location alone brings back.  The location was `l` at
the instant, `m` before the rollback and is `n` behind it. -/
structure RestoredAlone (l m n : Location) (applied skipped : List Path) :
    Prop where
  applied : ∀ path, path ∈ applied ↔ ∃ e, l.tree.get? path = some e
  restored : ∀ path e, l.tree.get? path = some e →
    ∃ e', n.tree.get? path = some e' ∧ e'.current = e.current
  skipped : ∀ path, path ∈ skipped ↔
    (∃ e, m.tree.get? path = some e) ∧ l.tree.get? path = none

/-- What a rollback of a location brings back with what it inherits.  The
archive was `a` at the instant, `b` before the rollback and is `c` behind it,
and the location was `l`, `m` and is `n`. -/
structure RestoredBelow (a b c : Archive) (id : String) (l m n : Location)
    (applied skipped : List Path) : Prop where
  restored : ∀ path value, path.IsValid →
    a.get id path.text = .ok (some value) →
    (∀ own, m.tree.get? path = some own → own.kind = value.kind) →
      path ∈ applied ∧ c.get id path.text = .ok (some value)
  kept : ∀ path value own, path.IsValid →
    a.get id path.text = .ok (some value) →
    m.tree.get? path = some own → own.kind ≠ value.kind →
      l.tree.get? path = none ∧ path ∈ skipped ∧ n.tree.get? path = some own
  skipped : ∀ path value, path.IsValid →
    b.get id path.text = .ok (some value) →
    a.get id path.text = .ok none → path ∈ skipped

section RolledBack

variable {t : Instant} {g : Location → Location} {a b c : Archive}
  {id : String} {recursive : Bool} {report : RollbackReport}
  {plan : RollbackPlan} {l n : Location} {above : List Location}
  (hb : b.WellFormed)
  (h : RolledBack b c id ⟨.date t, none, recursive⟩ report plan (g l) n
    (above.map g))
  (hg : ∀ m ∈ l :: above, m.Grown t (g m))
  (hold : ∀ m ∈ l :: above, ∀ path, ∀ x ∈ m.tree.recorded path, x.1 ≤ t)

include hb h

/-- A path is looked at if it is seen. -/
theorem RolledBack.mem_pathsIn_iff {path : Path} :
    path ∈ pathsIn (g l :: above.map g) none ↔
      entriesAt (g l :: above.map g) path ≠ [] := by
  obtain ⟨-, -, -, -, hmem⟩ := of_scopes h.before
  rw [Archive.mem_pathsIn_iff (fun m hm => (hb.sound m (hmem m hm)).tree)
    (by simp)]
  exact and_iff_left (Path.isBelow_none path)

/-- What is skipped is what is seen now and does not go back. -/
theorem RolledBack.mem_skipped_iff {path : Path} :
    path ∈ plan.skipped.map Prod.fst ↔
      entriesAt (g l :: above.map g) path ≠ [] ∧
        ∀ value, (path, value) ∉ plan.resolved := by
  rw [Archive.mem_skipped_iff hb.trees h.planned
    h.before, ← h.mem_pathsIn_iff hb]
  refine and_congr_right fun _ => ?_
  simp

include hg hold

/-- What goes back is what was seen at the instant, where the location has no
setting of another kind. -/
theorem RolledBack.mem_resolved_iff {path : Path} {value : Value} :
    (path, value) ∈ plan.resolved ↔
      (entriesAt (l :: above) path).head?.map Entry.current = some value ∧
        ∀ own, (g l).tree.get? path = some own → own.kind = value.kind := by
  have hiff := resolved_date_iff hg (fun m hm => hold m hm path) value
  rw [Archive.mem_resolved_iff hb.trees h.planned
    h.before, ← hiff]
  refine and_iff_right_of_imp fun hresolved => (h.mem_pathsIn_iff hb).2 ?_
  intro hnil
  obtain ⟨hvalue, -⟩ := resolved_iff.1 hresolved
  rw [hnil] at hvalue
  cases hvalue

/-- A value that was there goes back if the location has none or one of the same
kind. -/
theorem RolledBack.mem_resolved_of_get? (hk : b.HasKinds)
    (hmem : g l ∈ b.locations) {path : Path} {e : Entry}
    (he : l.tree.get? path = some e) : (path, e.current) ∈ plan.resolved := by
  refine (h.mem_resolved_iff hb hg hold).2 ⟨?_, ?_⟩
  · rw [entriesAt, List.filterMap_cons, he]
    rfl
  · intro own hown
    exact kind_eq_of_grown (hg l List.mem_cons_self) (hk _ hmem) he hown

end RolledBack

section Restored

variable {t : Instant} {g : Location → Location} {a b c : Archive}
  {id : String} {report : RollbackReport} {plan : RollbackPlan}
  {l n : Location} {above : List Location}

/-- Behind a rollback to an instant a location has its settings of that
instant. -/
theorem RolledBack.restoredAlone (hb : b.WellFormed) (hk : b.HasKinds)
    (h : RolledBack b c id ⟨.date t, none, false⟩ report plan (g l) n [])
    (hg : l.Grown t (g l))
    (hold : ∀ path, ∀ x ∈ l.tree.recorded path, x.1 ≤ t)
    (hmem : g l ∈ b.locations) :
    RestoredAlone l (g l) n (plan.resolved.map Prod.fst)
      (plan.skipped.map Prod.fst) := by
  have h : RolledBack b c id ⟨.date t, none, false⟩ report plan (g l) n
    (List.map g []) := h
  have hg : ∀ m ∈ [l], m.Grown t (g m) := List.forall_mem_singleton.2 hg
  have hold : ∀ m ∈ [l], ∀ path, ∀ x ∈ m.tree.recorded path, x.1 ≤ t :=
    List.forall_mem_singleton.2 hold
  have hresolved {path : Path} {e : Entry} (he : l.tree.get? path = some e) :
      (path, e.current) ∈ plan.resolved :=
    h.mem_resolved_of_get? hb hg hold hk hmem he
  have hseen {path : Path} {value : Value} (hv : (path, value) ∈ plan.resolved) :
      ∃ e, l.tree.get? path = some e := by
    obtain ⟨hv, -⟩ := (h.mem_resolved_iff hb hg hold).1 hv
    cases he : l.tree.get? path with
    | none => simp [entriesAt, he] at hv
    | some e => exact ⟨e, rfl⟩
  refine ⟨fun path => ⟨?_, ?_⟩, ?_, fun path => ?_⟩
  · intro hpath
    obtain ⟨⟨path, value⟩, hv, rfl⟩ := List.mem_map.1 hpath
    exact hseen hv
  · rintro ⟨e, he⟩
    exact List.mem_map.2 ⟨_, hresolved he, rfl⟩
  · intro path e he
    exact h.written _ (hresolved he)
  · rw [h.mem_skipped_iff hb]
    refine and_congr ?_ ⟨?_, ?_⟩
    · simp [entriesAt, Option.ne_none_iff_exists']
    · intro hnot
      cases he : l.tree.get? path with
      | none => rfl
      | some e => exact absurd (hresolved he) (hnot e.current)
    · intro hnone value hv
      obtain ⟨e, he⟩ := hseen hv
      rw [hnone] at he
      cases he

/-- Behind a rollback to an instant a location sees again what it saw at that
instant, but for later settings of its own that are of another kind. -/
theorem RolledBack.restoredBelow (hb : b.WellFormed) (hk : b.HasKinds)
    (h : RolledBack b c id ⟨.date t, none, true⟩ report plan (g l) n
      (above.map g))
    (ha : a.ancestors id = .ok (l :: above))
    (hg : ∀ m ∈ l :: above, m.Grown t (g m))
    (hold : ∀ m ∈ l :: above, ∀ path, ∀ x ∈ m.tree.recorded path, x.1 ≤ t)
    (hmem : g l ∈ b.locations) :
    RestoredBelow a b c id l (g l) n (plan.resolved.map Prod.fst)
      (plan.skipped.map Prod.fst) := by
  have hget {path : Path} {found : Option Value} (hv : path.IsValid)
      (hfound : a.get id path.text = .ok found) :
      (entriesAt (l :: above) path).head?.map Entry.current = found :=
    Except.ok.inj ((get_eq ha hv).symm.trans hfound)
  refine ⟨?_, ?_, ?_⟩
  · intro path value hv hvalue hown
    have hresolved : (path, value) ∈ plan.resolved :=
      (h.mem_resolved_iff hb hg hold).2 ⟨hget hv hvalue, hown⟩
    refine ⟨List.mem_map.2 ⟨_, hresolved, rfl⟩, ?_⟩
    obtain ⟨e, he, hcurrent⟩ := h.written _ hresolved
    have hc : c.ancestors id = .ok (n :: above.map g) := h.after
    rw [get_eq hc hv, entriesAt, List.filterMap_cons, he]
    exact congrArg (fun v => Except.ok (some v)) hcurrent
  · intro path value own hv hvalue hown hkind
    have hseen := hget hv hvalue
    have hnot : ∀ v, (path, v) ∉ plan.resolved := by
      intro v hresolved
      obtain ⟨hv, hkinds⟩ := (h.mem_resolved_iff hb hg hold).1 hresolved
      obtain rfl := Option.some.inj (hseen.symm.trans hv)
      exact hkind (hkinds own hown)
    refine ⟨?_, (h.mem_skipped_iff hb).2 ⟨?_, hnot⟩, ?_⟩
    · cases he : l.tree.get? path with
      | none => rfl
      | some e =>
        exact absurd (h.mem_resolved_of_get? hb hg hold hk hmem he) (hnot _)
    · rw [entriesAt, List.filterMap_cons, hown]
      exact List.cons_ne_nil _ _
    · rw [h.others path, hown]
      intro hpath
      obtain ⟨⟨path, v⟩, hresolved, rfl⟩ := List.mem_map.1 hpath
      exact hnot v hresolved
  · intro path value hv hvalue hnone
    refine (h.mem_skipped_iff hb).2 ⟨?_, ?_⟩
    · have hbs : b.ancestors id = .ok (g l :: above.map g) := h.before
      rw [get_eq hbs hv] at hvalue
      intro hnil
      rw [hnil] at hvalue
      cases hvalue
    · intro v hresolved
      obtain ⟨hv', -⟩ := (h.mem_resolved_iff hb hg hold).1 hresolved
      rw [hget hv hnone] at hv'
      cases hv'

end Restored

/-! ## Any run -/

/-- A rollback to an instant brings back what a location had at that instant,
whatever was written behind it.  Only when all numbers are used up, which takes
as many operations, it is refused. -/
theorem restored_of_run (earlier later : List Operation) {id : String}
    {l : Location} {above : List Location} {t now : Instant} {recursive : Bool}
    (hchain : (fresh.run earlier).ancestors id = .ok (l :: above))
    (hold : ∀ m ∈ l :: above, ∀ path e, m.tree.get? path = some e →
      ∀ r ∈ e.revisions, r.time ≤ t)
    (hlater : ∀ op ∈ later, op.WritesAfter t)
    (hnow : ∀ m, ((fresh.run earlier).run later).location id = .ok m →
      ∀ path e, m.tree.get? path = some e → e.head.time ≤ now) :
    let a := fresh.run earlier
    let b := { a.run later with policy := .bestEffort }
    let request : RollbackRequest := { target := .date t, recursive }
    (b.rollback id request now = (.error .counterExhausted, b) ∧
        Numeral.maxWord ≤ earlier.length + later.length + 1) ∨
      ∃ report c applied skipped m n,
        b.rollback id request now = (.ok report, c) ∧
        report.applied = applied.map Path.text ∧
        report.skipped = skipped.map Path.text ∧
        b.location id = .ok m ∧ c.location id = .ok n ∧
        (recursive = false → RestoredAlone l m n applied skipped) ∧
        (recursive = true → RestoredBelow a b c id l m n applied skipped) := by
  intro a b request
  have hrun : fresh.run (earlier ++ later ++ [.setPolicy .bestEffort]) = b := by
    rw [run_append, run_append]
    rfl
  have hreach : Reachable (fun _ => True) b := hrun ▸ reachable_run .fresh _
  have hb := hreach.wellFormed
  have hdeep : ∀ l ∈ b.locations, l.tree.IsDeep :=
    hrun ▸ (isProper_run IsStart.fresh.wellFormed isProper_fresh _).2.deep
  have hrecorded : ∀ m ∈ l :: above, ∀ path, ∀ x ∈ m.tree.recorded path,
      x.1 ≤ t := by
    intro m hm path x hx
    obtain ⟨e, he, r, hr, rfl⟩ := mem_recorded_iff.1 hx
    exact hold m hm path e he r hr
  have hgrown : a.Grown t b :=
    grown_run (reachable_run .fresh earlier).wellFormed hlater
  obtain ⟨g, hscopes, hg⟩ :=
    hgrown.scopes (scopes_of_ancestors hchain recursive)
  obtain ⟨hlocation, hmem⟩ := location_of_scopes hscopes
  have hscopes : b.scopes id request.recursive = .ok (g l :: _) := hscopes
  have hbackend : ∀ backend, request.backend = some backend →
      Location.isValidBackend backend := nofun
  rcases rollback_bestEffort hb hreach.isForest hdeep rfl hbackend hscopes
    (hnow (g l) hlocation) with
    ⟨herror, hexhausted⟩ | ⟨report, c, plan, n, hrollback, hrolled⟩
  · have hnumbers : b.nextRevision ≤ (earlier ++ later).length + 1 := by
      have hle := nextRevision_run_fresh_le (earlier ++ later)
      rwa [run_append] at hle
    rw [List.length_append] at hnumbers
    exact Or.inl ⟨herror, by omega⟩
  · refine Or.inr ⟨report, c, plan.resolved.map Prod.fst,
      plan.skipped.map Prod.fst, g l, n, hrollback, ?_, ?_, hlocation,
      (location_of_scopes hrolled.after).1, ?_, ?_⟩
    · rw [hrolled.applied, List.map_map]
      rfl
    · rw [hrolled.skipped, List.map_map]
      rfl
    · rintro rfl
      exact hrolled.restoredAlone hb hreach.hasKinds (hg l List.mem_cons_self)
        (hrecorded l List.mem_cons_self) hmem
    · rintro rfl
      exact hrolled.restoredBelow hb hreach.hasKinds hchain hg hrecorded hmem

/-- What a location inherits comes back, behind an override of its own and
another value above. -/
theorem restored_of_override :
    let earlier : List Operation := [.newLocation "desk" (some "default"),
      .storeValue "default" "/app/size" (.int 1) (.ofSecond 5) .keep]
    let later : List Operation := [
      .storeValue "desk" "/app/size" (.int 2) (.ofSecond 7) .retire,
      .storeValue "default" "/app/size" (.int 3) (.ofSecond 8) .retire]
    let b := { (fresh.run earlier).run later with policy := .bestEffort }
    let request : RollbackRequest :=
      { target := .date (.ofSecond 6), recursive := true }
    b.get "desk" "/app/size" = .ok (some (.int 2)) ∧
      ∃ report c, b.rollback "desk" request (.ofSecond 9) = (.ok report, c) ∧
        "/app/size" ∈ report.applied ∧
        c.get "desk" "/app/size" = .ok (some (.int 1)) := by
  intro earlier later b request
  have ha : Reachable (fun _ => True) (fresh.run earlier) :=
    reachable_run .fresh earlier
  have hrun : fresh.run (earlier ++ later ++ [.setPolicy .bestEffort]) = b := rfl
  have hb : Reachable (fun _ => True) b := hrun ▸ reachable_run .fresh _
  have hmem {c : Archive} (h : Reachable (fun _ => True) c) {m : Location}
      (hm : m ∈ c.locations) {path : Path} {e : Entry}
      (he : m.tree.get? path = some e) : (path, e) ∈ m.tree.allEntries :=
    (h.wellFormed.sound m hm).tree.mem_allEntries_iff.2 he
  have htimes : ∀ m ∈ (fresh.run earlier).locations, ∀ x ∈ m.tree.allEntries,
      ∀ r ∈ x.2.revisions, r.time ≤ .ofSecond 6 := by decide +kernel
  have hheads : ∀ m ∈ b.locations, ∀ x ∈ m.tree.allEntries,
      x.2.head.time ≤ .ofSecond 9 ∧ x.2.kind = .int := by decide +kernel
  have hdesk : "desk" ∈ (fresh.run earlier).locations.map Location.id := by
    decide +kernel
  obtain ⟨l, hl, hid⟩ := List.mem_map.1 hdesk
  obtain ⟨above, hchain, -⟩ := ha.isForest.ancestors_eq_ok ha.wellFormed hl
  rw [hid] at hchain
  have hscopes : (fresh.run earlier).scopes "desk" true = .ok (l :: above) :=
    hchain
  obtain ⟨-, -, -, -, hthere⟩ := of_scopes hscopes
  have hold : ∀ m ∈ l :: above, ∀ path e, m.tree.get? path = some e →
      ∀ r ∈ e.revisions, r.time ≤ .ofSecond 6 := by
    intro m hm path e he
    exact htimes m (hthere m hm) _ (hmem ha (hthere m hm) he)
  have hlater : ∀ op ∈ later, op.WritesAfter (.ofSecond 6) := by
    simp only [later, List.forall_mem_cons, Operation.WritesAfter]
    exact ⟨⟨_, rfl, by decide⟩, ⟨_, rfl, by decide⟩, by simp⟩
  have hown : ∀ m, b.location "desk" = .ok m → ∀ path e,
      m.tree.get? path = some e →
      e.head.time ≤ .ofSecond 9 ∧ e.kind = .int := by
    intro m hm path e he
    have hm := (mem_of_findLocation? (location_eq_ok_iff.1 hm)).1
    exact hheads m hm _ (hmem hb hm he)
  refine ⟨rfl, ?_⟩
  rcases restored_of_run earlier later hchain hold hlater
    (fun m hm path e he => (hown m hm path e he).1) with
    ⟨-, hexhausted⟩ | ⟨report, c, applied, skipped, m, n, hc, hreport, -, hm, -,
      -, hbelow⟩
  · exact absurd hexhausted (by decide)
  · obtain ⟨happlied, hvalue⟩ := (hbelow rfl).restored ["app", "size"] (.int 1)
      ⟨by decide, by decide⟩ rfl fun own ho => (hown m hm _ own ho).2
    refine ⟨report, c, hc, ?_, hvalue⟩
    rw [hreport]
    exact List.mem_map.2 ⟨_, happlied, rfl⟩

end SettingsArchive.Archive
