import SettingsArchive.Proofs.Restoring

/-!
# Best effort adds

A rollback under best effort is carried out whenever the location can take a
revision at that instant, and then it only adds (`additive_of_reachable`).

What it adds is `Location.Extended`: each setting of the plan has its old history
with one more revision, and the backends that were missing are registered.
-/

namespace SettingsArchive

open Directory

namespace Archive

variable {a b : Archive}

/-! ## What is added -/

/-- A rollback that is carried out changes nothing if no setting goes back.
Otherwise it takes the next number and extends the location by the settings that
go back. -/
theorem extended_of_rollback (ha : a.WellFormed) {id : String}
    {request : RollbackRequest} {now : Instant} {report : RollbackReport}
    {plan : RollbackPlan} (hplan : a.plan id request = .ok plan) {l : Location}
    (hl : a.location id = .ok l)
    (h : a.rollback id request now = (.ok report, b)) :
    plan.resolved = [] ∧ report.revision = none ∧ b = a ∨
      plan.resolved ≠ [] ∧ report.revision = some a.nextRevision ∧
        ∃ m, l.Extended now a.nextRevision plan.resolved m ∧
          b = { a.put m with
            nextRevision := a.nextRevision + 1, dirty := true } := by
  obtain ⟨plan', l', number, c, hp, rfl, hdone⟩ := prepared_of_rollback h
  obtain ⟨hplan', hl', hcount⟩ := of_prepareRollback hp
  obtain rfl := Except.ok.inj (hplan'.symm.trans hplan)
  obtain rfl := Except.ok.inj ((location_eq_ok_iff.2 hl').symm.trans hl)
  rcases hcount with ⟨hnil, rfl, rfl⟩ | ⟨hne, rfl, -, rfl⟩
  · exact Or.inl ⟨hnil, rfl, by simpa using hdone⟩
  · obtain ⟨n, m, hn, hr, rfl⟩ := hdone.resolve_left (by simp)
    obtain rfl := Option.some.inj hn
    obtain ⟨hpaths, hdistinct⟩ := paths_of_plan ha.trees hplan
    have hextended := extended_applyAll
      (ha.sound l' (mem_of_findLocation? hl').1).backends hdistinct
      (fun x hx => (hpaths x hx).1) (congrArg Prod.fst hr)
    rw [hr] at hextended
    exact Or.inr ⟨hne, rfl, m, hextended, rfl⟩

/-! ## Best effort -/

/-- Best effort carries every rollback out, as long as the location has nothing
later, every setting lies below a backend and there is a number left.  The
report has each setting that is looked at once.  Applied are those for which the
target means a revision of a kind that the location can take, and the location
is extended by their values.  All else is as before. -/
theorem additive_of_reachable {allowed : Operation → Prop}
    (h : Reachable allowed a)
    (hdeep : ∀ l ∈ a.locations, ∀ path e,
      l.tree.get? path = some e → 2 ≤ path.length)
    (hpolicy : a.policy = .bestEffort)
    (hcounter : a.nextRevision < Numeral.maxWord) {id : String} {l : Location}
    (hl : a.location id = .ok l) {request : RollbackRequest}
    (hbackend : ∀ backend, request.backend = some backend →
      Location.isValidBackend backend) {now : Instant}
    (hnow : ∀ path e, l.tree.get? path = some e → e.head.time ≤ now) :
    ∃ scopes report b, ∃ applied : List (Path × Value),
      a.scopes id request.recursive = .ok scopes ∧
      a.rollback id request now = (.ok report, b) ∧
      report.applied = applied.map (·.1.text) ∧
      (report.applied ++ report.skipped).Nodup ∧
      (∀ t, t ∈ report.applied ++ report.skipped ↔
        ∃ path, t = path.text ∧ path.IsBelow request.backend ∧
          ∃ m ∈ scopes, ∃ e, m.tree.get? path = some e) ∧
      (∀ path value, (path, value) ∈ applied ↔
        path.IsBelow request.backend ∧
        ∃ r, request.target.resolveChain (entriesAt scopes path) = some r ∧
          r.value = value ∧
          ∀ own, l.tree.get? path = some own → own.kind = value.kind) ∧
      (applied = [] ∧ report.revision = none ∧ b = a ∨
        applied ≠ [] ∧ report.revision = some a.nextRevision ∧
          ∃ m, l.Extended now a.nextRevision applied m ∧
            b = { a.put m with
              nextRevision := a.nextRevision + 1, dirty := true }) := by
  have ha := h.wellFormed
  have hs := ha.trees
  obtain ⟨hmem, rfl⟩ := mem_of_findLocation? (location_eq_ok_iff.1 hl)
  obtain ⟨above, hchain, -⟩ := h.isForest.ancestors_eq_ok ha hmem
  have hscopes := scopes_of_ancestors hchain request.recursive
  rcases rollback_bestEffort ha h.isForest hdeep hpolicy hbackend hscopes hnow
    with ⟨-, hexhausted⟩ | ⟨report, b, plan, n, hrollback, hrolled⟩
  · exact absurd hcounter hexhausted
  obtain ⟨-, -, -, -, hthere⟩ := of_scopes hscopes
  have hsound := fun m hm => hs m (hthere m hm)
  obtain ⟨hdistinct, hlisted⟩ := hrolled.listed ha
  refine ⟨_, report, b, plan.resolved, hscopes, hrollback, hrolled.applied,
    hdistinct, hlisted, fun path value => ?_,
    extended_of_rollback ha hrolled.planned hl hrollback⟩
  rw [mem_resolved_iff hs hrolled.planned hscopes, resolved_iff,
    mem_pathsIn_iff hsound hbackend, Option.map_eq_some_iff]
  constructor
  · rintro ⟨⟨-, hbelow⟩, ⟨r, hr, hvalue⟩, hkind⟩
    exact ⟨hbelow, r, hr, hvalue, hkind⟩
  · rintro ⟨hbelow, r, hr, hvalue, hkind⟩
    refine ⟨⟨?_, hbelow⟩, ⟨r, hr, hvalue⟩, hkind⟩
    intro hnil
    rw [hnil, resolveChain_nil] at hr
    cases hr

/-- Going one step back brings an inherited value to the location, and skips a
setting that has one revision only. -/
theorem additive_of_inherited_value :
    let a := fresh.run [.newLocation "desk" (some "default"),
      .storeValue "default" "/app/size" (.int 1) (.ofSecond 5) .keep,
      .storeValue "default" "/app/size" (.int 2) (.ofSecond 6) .retire,
      .storeValue "desk" "/web/home" (.int 3) (.ofSecond 7) .retire]
    let request : RollbackRequest := { target := .last, recursive := true }
    ∃ report b l m applied, a.location "desk" = .ok l ∧
      a.rollback "desk" request (.ofSecond 9) = (.ok report, b) ∧
      report = ⟨some 4, ["/app/size"], ["/web/home"]⟩ ∧
      applied.map (fun x => Path.text x.1) = report.applied ∧
      l.Extended (.ofSecond 9) 4 applied m ∧
      b = { a.put m with nextRevision := 5, dirty := true } := by
  intro a request
  have h : Reachable (fun _ => True) a := reachable_run .fresh _
  have hdeep : ∀ l ∈ a.locations, l.tree.IsDeep :=
    (isProper_run IsStart.fresh.wellFormed isProper_fresh _).2.deep
  have hheads : ∀ m ∈ a.locations, ∀ x ∈ m.tree.allEntries,
      x.2.head.time ≤ .ofSecond 9 := by decide +kernel
  obtain ⟨l, hl⟩ : ∃ l, a.location "desk" = .ok l := ⟨_, rfl⟩
  have hnow : ∀ path e, l.tree.get? path = some e →
      e.head.time ≤ .ofSecond 9 := h.wellFormed.of_listed hheads hl
  have hbackend : ∀ backend, request.backend = some backend →
      Location.isValidBackend backend := nofun
  obtain ⟨-, report, b, applied, -, hrollback, happlied, -, -, -, hb⟩ :=
    additive_of_reachable h hdeep rfl (by decide +kernel) hl hbackend hnow
  have hreport : (a.rollback "desk" request (.ofSecond 9)).1.toOption =
      some ⟨some 4, ["/app/size"], ["/web/home"]⟩ := by decide +kernel
  rw [hrollback] at hreport
  obtain rfl := Option.some.inj hreport
  rcases hb with ⟨-, hnone, -⟩ | ⟨-, hnumber, m, hm, hb⟩
  · cases hnone
  · exact ⟨_, b, l, m, applied, hl, hrollback, rfl, happlied.symm, hm, hb⟩

end Archive

end SettingsArchive
