import SettingsArchive.Proofs.Rollback
import SettingsArchive.Proofs.Snapshot

/-!
# Previews

A preview shows the plan of a rollback, and a snapshot reads the archive behind
it through all locations above.  `preview_eq_snapshot` says that both are one
document.

`visible` lists what is seen in some locations.  The plan sends each path of it
back or skips it, and carrying the plan out changes what is seen at the paths
that go back and nowhere else.  So behind the rollback the plan lists what is
seen, in some order, and a snapshot does not depend on the order.
-/

namespace SettingsArchive

open Directory

namespace Archive

/-! ## What is seen -/

/-- The settings that are seen in some locations with their values. -/
def visible (scopes : List Location) (backend : Option String) :
    List (Path × Value) :=
  (pathsIn scopes backend).filterMap fun path =>
    (entriesAt scopes path).head?.map fun e => (path, e.current)

section Visible

variable {scopes : List Location} (hs : ∀ l ∈ scopes, l.tree.Sound)
  {backend : Option String}
  (hb : ∀ b, backend = some b → Location.isValidBackend b)

include hs hb

theorem mem_visible_iff {x : Path × Value} :
    x ∈ visible scopes backend ↔ Seen scopes x ∧ x.1.IsBelow backend := by
  rw [visible, List.mem_filterMap]
  constructor
  · rintro ⟨path, hpath, h⟩
    obtain ⟨e, he, rfl⟩ := Option.map_eq_some_iff.1 h
    exact ⟨⟨e, he, rfl⟩, ((mem_pathsIn_iff hs hb).1 hpath).2⟩
  · rintro ⟨⟨e, he, hx⟩, hbelow⟩
    refine ⟨x.1, (mem_pathsIn_iff hs hb).2 ⟨?_, hbelow⟩, ?_⟩
    · intro hnil
      rw [hnil] at he
      cases he
    · rw [he, Option.map_some, ← hx]

/-- A list of what is seen, each setting once, is a rearrangement of it. -/
theorem visible_perm {items : List (Path × Value)}
    (hn : (items.map Prod.fst).Nodup)
    (hmem : ∀ x, x ∈ items ↔ Seen scopes x ∧ x.1.IsBelow backend) :
    (visible scopes backend).Perm items := by
  have hvisible : (visible scopes backend).Nodup := by
    apply (nodup_pathsIn scopes backend).filterMap
    intro p q x hp hq
    obtain ⟨d, -, rfl⟩ := Option.map_eq_some_iff.1 hp
    obtain ⟨e, -, h⟩ := Option.map_eq_some_iff.1 hq
    exact (congrArg Prod.fst h).symm
  refine (List.perm_ext_iff_of_nodup hvisible hn.of_map).2 fun x => ?_
  rw [mem_visible_iff hs hb, hmem]

end Visible

variable {a b : Archive}

theorem snapshot_eq {id : String} {backend : Option String} {recursive : Bool}
    {scopes : List Location} (h : a.scopes id recursive = .ok scopes) :
    a.snapshot id backend recursive =
      .ok (Snapshot.toElement backend
        (Snapshot.named (visible scopes backend))) := by
  unfold snapshot
  rw [h, Snapshot.named, visible, List.map_filterMap]
  simp only [Option.map_map]
  rfl

theorem preview_eq {id : String} {request : RollbackRequest}
    {plan : RollbackPlan} (h : a.plan id request = .ok plan) :
    a.preview id request =
      .ok (Snapshot.toElement request.backend
        (Snapshot.named (plan.resolved ++ plan.skipped))) := by
  unfold preview
  rw [h]
  rfl

/-! ## The preview and the archive behind the rollback -/

theorem entriesAt_cons_congr {l m : Location} {q : Path}
    (h : m.tree.get? q = l.tree.get? q) (above : List Location) :
    entriesAt (m :: above) q = entriesAt (l :: above) q := by
  rw [entriesAt, entriesAt, List.filterMap_cons, List.filterMap_cons, h]

/-- Behind the writes of a plan the plan lists what is seen. -/
theorem visible_perm_of_plan {l m : Location} {above : List Location}
    {backend : Option String} {resolved skipped : List (Path × Value)}
    (hs : ∀ x ∈ l :: above, x.tree.Sound) (hm : m.tree.Sound)
    (hb : ∀ b, backend = some b → Location.isValidBackend b)
    (hperm : ((resolved ++ skipped).map Prod.fst).Perm
      (pathsIn (l :: above) backend))
    (hskipped : ∀ x ∈ skipped, Seen (l :: above) x)
    (hwritten : ∀ x ∈ resolved, ∃ e, m.tree.get? x.1 = some e ∧ e.current = x.2)
    (hothers : ∀ q ∉ resolved.map Prod.fst, m.tree.get? q = l.tree.get? q) :
    (visible (m :: above) backend).Perm (resolved ++ skipped) := by
  have hs' : ∀ x ∈ m :: above, x.tree.Sound :=
    List.forall_mem_cons.2 ⟨hm, (List.forall_mem_cons.1 hs).2⟩
  have hn := hperm.nodup_iff.2 (nodup_pathsIn (l :: above) backend)
  have hpath : ∀ x ∈ resolved ++ skipped, x.1.IsBelow backend :=
    fun x hx => ((mem_pathsIn_iff hs hb).1
      (hperm.mem_iff.1 (List.mem_map_of_mem hx))).2
  have hseen : ∀ x ∈ resolved ++ skipped, Seen (m :: above) x := by
    intro x hx
    rcases List.mem_append.1 hx with hx | hx
    · obtain ⟨e, he, hcurrent⟩ := hwritten x hx
      refine ⟨e, ?_, hcurrent.symm⟩
      rw [entriesAt, List.filterMap_cons, he]
      rfl
    · -- The path is skipped, so it is not written.
      have hnot : x.1 ∉ resolved.map Prod.fst := by
        intro hmem
        rw [List.map_append] at hn
        exact List.disjoint_of_nodup_append hn hmem (List.mem_map_of_mem hx)
      obtain ⟨e, he, hcurrent⟩ := hskipped x hx
      refine ⟨e, ?_, hcurrent⟩
      rw [entriesAt_cons_congr (hothers x.1 hnot), he]
  refine visible_perm hs' hb hn fun x => ⟨fun hx => ⟨hseen x hx, hpath x hx⟩, ?_⟩
  rintro ⟨hx, hbelow⟩
  have hmem : x.1 ∈ (resolved ++ skipped).map Prod.fst := by
    by_cases hr : x.1 ∈ resolved.map Prod.fst
    · rw [List.map_append]
      exact List.mem_append_left _ hr
    · rw [hperm.mem_iff, mem_pathsIn_iff hs hb]
      refine ⟨?_, hbelow⟩
      obtain ⟨e, he, -⟩ := hx
      rw [entriesAt_cons_congr (hothers x.1 hr)] at he
      intro hnil
      rw [hnil] at he
      cases he
  obtain ⟨⟨path, value⟩, hy, hyx⟩ := List.mem_map.1 hmem
  obtain ⟨p, v⟩ := x
  obtain rfl : path = p := hyx
  rw [hx.unique (hseen _ hy)]
  exact hy

/-- The preview of a rollback is the snapshot behind it. -/
theorem preview_eq_snapshot (ha : a.WellFormed) (hf : a.IsForest) {id : String}
    {request : RollbackRequest} {now : Instant} {report : RollbackReport}
    (h : a.rollback id request now = (.ok report, b)) :
    ∃ shown, a.preview id request = .ok shown ∧
      b.snapshot id request.backend request.recursive = .ok shown := by
  obtain ⟨plan, l, m, above, hrolled⟩ := of_rollback ha hf h
  obtain ⟨hb, -⟩ := of_plan hrolled.planned
  obtain ⟨-, -, -, -, hmem⟩ := of_scopes hrolled.before
  have hs : ∀ x ∈ l :: above, x.tree.Sound :=
    fun x hx => (ha.sound x (hmem x hx)).tree
  obtain ⟨hperm, -, hskipped⟩ := perm_of_plan
    (fun m hm => (ha.sound m hm).tree) hrolled.planned hrolled.before
  have hpaths : ∀ x ∈ plan.resolved ++ plan.skipped,
      x.1 ∈ pathsIn (l :: above) request.backend :=
    fun x hx => hperm.mem_iff.1 (List.mem_map_of_mem hx)
  have hvalid : ∀ x ∈ plan.resolved ++ plan.skipped, x.1.IsValid :=
    fun x hx => isValid_of_mem_pathsIn hs hb (hpaths x hx)
  have hbelow : ∀ x ∈ plan.resolved ++ plan.skipped,
      x.1.IsBelow request.backend :=
    fun x hx => ((mem_pathsIn_iff hs hb).1 (hpaths x hx)).2
  -- All that is seen behind the rollback is in the plan.
  have hvisible : (visible (m :: above) request.backend).Perm
      (plan.resolved ++ plan.skipped) :=
    visible_perm_of_plan hs hrolled.sound hb hperm
      (fun x hx => (hskipped x hx).seen) hrolled.written hrolled.others
  refine ⟨_, preview_eq hrolled.planned, ?_⟩
  rw [snapshot_eq hrolled.after]
  have hn := hperm.nodup_iff.2 (nodup_pathsIn (l :: above) request.backend)
  have hnamed := hvisible.symm.map fun (x : Path × Value) => (x.1.text, x.2)
  exact congrArg _ (Snapshot.toElement_congr hnamed
    (Snapshot.nodup_placed hvalid hbelow hn)).symm

/-- Previews equal rollbacks.  If a rollback of a reachable archive is carried
out, the preview before it is the document of the snapshot behind it, and if
the preview is refused, the rollback is refused for the same reason and changes
nothing. -/
theorem preview_of_reachable {allowed : Operation → Prop}
    (h : Reachable allowed a) (id : String) (request : RollbackRequest)
    (now : Instant) :
    (∀ report b, a.rollback id request now = (.ok report, b) →
      ∃ shown after, a.preview id request = .ok shown ∧
        b.snapshot id request.backend request.recursive = .ok after ∧
        shown.document = after.document) ∧
      ∀ e, a.preview id request = .error e →
        a.rollback id request now = (.error e, a) := by
  constructor
  · intro report b hr
    obtain ⟨shown, hpreview, hsnapshot⟩ :=
      preview_eq_snapshot h.wellFormed h.isForest hr
    exact ⟨shown, shown, hpreview, hsnapshot, rfl⟩
  · intro e he
    have hplan : a.plan id request = .error e := by
      cases hp : a.plan id request with
      | error f =>
        unfold preview at he
        rw [hp] at he
        injection he with he
        rw [he]
      | ok plan =>
        rw [preview_eq hp] at he
        cases he
    unfold rollback prepareRollback
    rw [hplan]
    rfl

/-- The preview at a location that inherits what goes back. -/
theorem preview_of_inherited_setting :
    let a := fresh.run [
      .newLocation "desk" (some "default"),
      .storeValue "default" "/app/size" (.int 1) (.ofSecond 5) .keep,
      .storeValue "default" "/app/size" (.int 2) (.ofSecond 6) .retire]
    let request : RollbackRequest :=
      { target := .last, backend := some "app", recursive := true }
    (a.rollback "desk" request (.ofSecond 7)).1.toOption =
        some ⟨some 3, ["/app/size"], []⟩ ∧
      ∀ report b, a.rollback "desk" request (.ofSecond 7) = (.ok report, b) →
        ∃ shown after, a.preview "desk" request = .ok shown ∧
          b.snapshot "desk" request.backend request.recursive = .ok after ∧
          shown.document = after.document := by
  intro a request
  have h : Reachable (fun _ => True) a :=
    ⟨fresh, _, .fresh, fun _ _ => trivial, rfl⟩
  exact ⟨by decide +kernel,
    (preview_of_reachable h "desk" request (.ofSecond 7)).1⟩

end Archive

end SettingsArchive
