import SettingsArchive.Proofs.Preview

/-!
# Two policies

A rollback goes through the same paths under both policies, in the same order.
Best effort skips a path that has nothing to go back to, and the strict policy
refuses the rollback there.

`planPaths_strict` compares the two plans path by path.  As long as nothing is
skipped they are one, and the first path that is skipped is where the strict plan
ends, for the reason of that path (`resolveAt_eq_error_iff`).  The rest of a
rollback does not look at the policy (`rollback_of_same_plan`), so two rollbacks
under the two policies differ in this alone (`policies_of_reachable`).
-/

namespace SettingsArchive.Archive

open Directory

variable {a b : Archive}

/-! ## Why a path is skipped -/

/-- A path has nothing to go back to if the target means no revision there, or
one of another kind than the location has. -/
theorem resolveAt_eq_error_iff {target : Target} {own : Option Entry}
    {entries : List Entry} {path : Path} {reason : ArchiveError} :
    resolveAt target own entries path = .error reason ↔
      (target.resolveChain entries = none ∧ reason = .unresolved path.text) ∨
        ∃ r e, target.resolveChain entries = some r ∧ own = some e ∧
          e.kind ≠ r.value.kind ∧
          reason = .typeMismatch path.text e.kind r.value.kind := by
  unfold resolveAt
  cases target.resolveChain entries with
  | none => simp [eq_comm]
  | some r =>
    cases own with
    | none => simp
    | some e =>
      by_cases hkind : e.kind = r.value.kind
      · simp [hkind]
      · simp [hkind, eq_comm]

/-! ## Two plans -/

section Plans

variable {target : Target} {scopes : List Location} {plan new : RollbackPlan}

theorem planPath_of_resolved {policy : Policy} {path : Path} {r : Revision}
    (h : resolveAt target (scopes.head?.bind (·.tree.get? path))
      (entriesAt scopes path) path = .ok r) :
    planPath policy target scopes plan path =
      .ok { plan with resolved := plan.resolved ++ [(path, r.value)] } := by
  unfold planPath
  simp only [h]

theorem planPath_strict {path : Path} {reason : ArchiveError}
    (h : resolveAt target (scopes.head?.bind (·.tree.get? path))
      (entriesAt scopes path) path = .error reason) :
    planPath .strict target scopes plan path = .error reason := by
  unfold planPath
  simp only [h]

/-- Best effort has a plan for all paths, and the strict policy has one where
each of them goes back. -/
theorem exists_planPaths_iff {policy : Policy} {paths : List Path} :
    (∃ new, paths.foldlM (planPath policy target scopes) plan = .ok new) ↔
      policy = .bestEffort ∨
        ∀ path ∈ paths, ∃ value, Resolved target scopes (path, value) := by
  cases policy with
  | bestEffort =>
    simp [exists_planPaths_bestEffort target scopes paths plan]
  | strict =>
    induction paths generalizing plan with
    | nil => simpa using ⟨plan, rfl⟩
    | cons path paths ih =>
      rw [List.foldlM_cons, List.forall_mem_cons]
      cases hr : resolveAt target (scopes.head?.bind (·.tree.get? path))
          (entriesAt scopes path) path with
      | ok r =>
        have hpath : ∃ value, Resolved target scopes (path, value) :=
          ⟨r.value, r, hr, rfl⟩
        rw [planPath_of_resolved hr, and_iff_right hpath]
        exact ih
      | error reason =>
        have hpath : ¬ ∃ value, Resolved target scopes (path, value) := by
          rintro ⟨value, r, hok, -⟩
          rw [hr] at hok
          cases hok
        rw [planPath_strict hr]
        simp [hpath, bind, Except.bind]

/-- Where best effort skips nothing, the strict plan is the same.  Otherwise the
strict plan is refused at the first path that is skipped, and all paths before it
go back. -/
theorem planPaths_strict {paths : List Path}
    (hpaths : ∀ path ∈ paths, entriesAt scopes path ≠ [])
    (h : paths.foldlM (planPath .bestEffort target scopes) plan = .ok new) :
    (new.skipped = plan.skipped ∧
        paths.foldlM (planPath .strict target scopes) plan = .ok new) ∨
      ∃ before path after reason, paths = before ++ path :: after ∧
        resolveAt target (scopes.head?.bind (·.tree.get? path))
          (entriesAt scopes path) path = .error reason ∧
        paths.foldlM (planPath .strict target scopes) plan = .error reason ∧
        (∃ value rest, new.skipped = plan.skipped ++ (path, value) :: rest) ∧
        plan.resolved.map Prod.fst ++ before <+: new.resolved.map Prod.fst := by
  induction paths generalizing plan with
  | nil =>
    injection h with h
    exact Or.inl ⟨by rw [h], congrArg Except.ok h⟩
  | cons path paths ih =>
    obtain ⟨hpath, hrest⟩ := List.forall_mem_cons.1 hpaths
    rw [List.foldlM_cons] at h
    obtain ⟨next, hnext, h⟩ := bind_eq_ok h
    cases hr : resolveAt target (scopes.head?.bind (·.tree.get? path))
        (entriesAt scopes path) path with
    | ok r =>
      -- The path goes back, and the plans are one so far.
      rw [planPath_of_resolved hr] at hnext
      obtain rfl := Except.ok.inj hnext
      have hstrict : (path :: paths).foldlM (planPath .strict target scopes)
          plan = paths.foldlM (planPath .strict target scopes)
            { plan with resolved := plan.resolved ++ [(path, r.value)] } := by
        rw [List.foldlM_cons, planPath_of_resolved hr]
        rfl
      rw [hstrict]
      rcases ih hrest h with hsame | ⟨before, p, after, reason, rfl, hreason,
        hrefused, hskipped, hprefix⟩
      · exact Or.inl hsame
      · refine Or.inr ⟨path :: before, p, after, reason, rfl, hreason, hrefused,
          hskipped, ?_⟩
        simpa using hprefix
    | error reason =>
      have hstrict : (path :: paths).foldlM (planPath .strict target scopes)
          plan = .error reason := by
        rw [List.foldlM_cons, planPath_strict hr]
        rfl
      rcases of_planPath hpath hnext with ⟨value, ⟨r, hok, -⟩, -⟩ |
        ⟨value, -, rfl⟩
      · rw [hr] at hok
        cases hok
      · obtain ⟨resolved, skipped, rfl, -⟩ := of_planPaths hrest h
        exact Or.inr ⟨[], path, paths, reason, rfl, hr, hstrict,
          ⟨value, skipped, by simp⟩, by simp⟩

end Plans

/-! ## Two rollbacks -/

/-- The archive under another policy. -/
def under (a : Archive) (policy : Policy) : Archive :=
  { a with policy }

section Under

variable {p q : Policy} {id : String} {request : RollbackRequest}
  {now : Instant} {plan : RollbackPlan}

theorem prepareRollback_of_same_plan
    (hp : (a.under p).plan id request = .ok plan)
    (hq : (a.under q).plan id request = .ok plan) :
    (a.under q).prepareRollback id request now =
      ((a.under p).prepareRollback id request now).map
        fun (plan, l, number, c) => (plan, l, number, c.under q) := by
  have hlocation : (a.under q).location id = (a.under p).location id := rfl
  unfold prepareRollback
  rw [hp, hq, hlocation]
  cases (a.under p).location id with
  | error e => rfl
  | ok l =>
    simp only [bind, Except.bind]
    cases plan.resolved.forM fun x => l.tree.checkWrite x.1.text x.2 now with
    | error e => rfl
    | ok =>
      have hnext : (a.under q).nextRevision = (a.under p).nextRevision := rfl
      unfold allocate
      rw [hnext]
      by_cases hempty : plan.resolved.isEmpty
      · simp only [hempty]
        rfl
      · by_cases hlt : (a.under p).nextRevision < Numeral.maxWord
        · simp only [hempty, if_pos hlt]
          rfl
        · simp only [hempty, if_neg hlt]
          rfl

/-- Behind the plan a rollback does not look at the policy. -/
theorem rollback_of_same_plan (hp : (a.under p).plan id request = .ok plan)
    (hq : (a.under q).plan id request = .ok plan) :
    (a.under q).rollback id request now =
      (((a.under p).rollback id request now).1,
        ((a.under p).rollback id request now).2.under q) := by
  unfold rollback
  rw [prepareRollback_of_same_plan hp hq]
  cases (a.under p).prepareRollback id request now with
  | error e => rfl
  | ok prepared =>
    obtain ⟨plan, l, number, c⟩ := prepared
    cases number with
    | none => rfl
    | some n =>
      simp only [Except.map]
      cases applyAll l now n plan.resolved with
      | mk answer m =>
        cases answer with
        | error e => rfl
        | ok => rfl

/-- A plan that is refused refuses the rollback and the preview. -/
theorem refused_of_plan (now : Instant) {reason : ArchiveError}
    (h : a.plan id request = .error reason) :
    a.rollback id request now = (.error reason, a) ∧
      a.preview id request = .error reason := by
  unfold rollback prepareRollback preview
  rw [h]
  exact ⟨rfl, rfl⟩

end Under

/-! ## What is skipped first -/

/-- Why the strict policy refuses a rollback: the first path that has nothing to
go back to.  The paths before it all do. -/
structure StopsAt (request : RollbackRequest) (l : Location)
    (scopes : List Location) (applied : List String) (path : Path)
    (reason : ArchiveError) : Prop where
  first : ∃ before after, pathsIn scopes request.backend = before ++ path :: after ∧
    before.map Path.text <+: applied
  reason : (request.target.resolveChain (entriesAt scopes path) = none ∧
      reason = .unresolved path.text) ∨
    ∃ r own, request.target.resolveChain (entriesAt scopes path) = some r ∧
      l.tree.get? path = some own ∧ own.kind ≠ r.value.kind ∧
      reason = .typeMismatch path.text own.kind r.value.kind

/-- The two policies differ in what they do about paths that have nothing to go
back to.  If a rollback under best effort skips nothing, it is the same under the
strict policy.  Otherwise the strict policy refuses it, and its preview, for the
reason of the first path that is skipped, and nothing is changed. -/
theorem policies_of_reachable {allowed : Operation → Prop}
    (h : Reachable allowed a) {id : String} {request : RollbackRequest}
    {now : Instant} {report : RollbackReport}
    (hrollback : (a.under .bestEffort).rollback id request now =
      (.ok report, b)) :
    (report.skipped = [] →
      (a.under .strict).rollback id request now =
        (.ok report, b.under .strict)) ∧
    ∀ t rest, report.skipped = t :: rest →
      ∃ l scopes path reason, a.location id = .ok l ∧
        a.scopes id request.recursive = .ok scopes ∧ t = path.text ∧
        StopsAt request l scopes report.applied path reason ∧
        (a.under .strict).rollback id request now =
          (.error reason, a.under .strict) ∧
        (a.under .strict).preview id request = .error reason := by
  obtain ⟨plan, k, number, c, hp, rfl, -⟩ := prepared_of_rollback hrollback
  obtain ⟨hplan, -, -⟩ := of_prepareRollback hp
  obtain ⟨hbackend, scopes, hscopes, hfold⟩ := of_plan hplan
  have hscopes : a.scopes id request.recursive = .ok scopes := hscopes
  obtain ⟨l, above, hl, rfl, hthere⟩ := of_scopes hscopes
  have hfold : (pathsIn (l :: above) request.backend).foldlM
      (planPath .bestEffort request.target (l :: above)) {} = .ok plan := hfold
  have hpaths : ∀ path ∈ pathsIn (l :: above) request.backend,
      entriesAt (l :: above) path ≠ [] := fun path hpath =>
    ((mem_pathsIn_iff (fun m hm => h.wellFormed.trees m (hthere m hm))
      hbackend).1 hpath).1
  have hstrict : (a.under .strict).plan id request =
      (pathsIn (l :: above) request.backend).foldlM
        (planPath .strict request.target (l :: above)) {} :=
    plan_of_scopes hbackend hscopes
  rcases planPaths_strict hpaths hfold with ⟨hnone, hsame⟩ |
    ⟨before, path, after, reason, hsplit, hreason, hrefused,
      ⟨value, rest, hskipped⟩, hbefore⟩
  · have hnone : plan.skipped = [] := hnone
    refine ⟨fun _ => ?_, fun t rest hskipped => ?_⟩
    · rw [rollback_of_same_plan hplan (hstrict.trans hsame), hrollback]
    · simp [hnone] at hskipped
  · have hskipped : plan.skipped = (path, value) :: rest := hskipped
    refine ⟨fun hnone => ?_, fun t others ht => ?_⟩
    · simp [hskipped] at hnone
    · obtain ⟨hr, hpreview⟩ := refused_of_plan now (hstrict.trans hrefused)
      have ht : path.text = t := by
        simpa [hskipped] using (List.cons.inj (hskipped ▸ ht)).1
      refine ⟨l, l :: above, path, reason, location_eq_ok_iff.2 hl, hscopes,
        ht.symm, ⟨⟨before, after, hsplit, ?_⟩, ?_⟩, hr, hpreview⟩
      · simpa [Function.comp_def] using hbefore.map Path.text
      · exact resolveAt_eq_error_iff.1 hreason

/-- A location hides an inherited setting by one of another kind.  Best effort
goes on with the next setting, and the strict policy ends there. -/
theorem policies_of_hidden_kind :
    let a := fresh.run [.newLocation "desk" (some "default"),
      .storeValue "default" "/app/mode" (.int 1) (.ofSecond 5) .keep,
      .storeValue "default" "/app/size" (.int 2) (.ofSecond 6) .keep,
      .storeValue "default" "/app/size" (.int 3) (.ofSecond 7) .keep,
      .storeValue "desk" "/app/mode" (.string "wide") (.ofSecond 8) .keep]
    let request : RollbackRequest := { target := .last, recursive := true }
    ∃ b reason, (a.under .bestEffort).rollback "desk" request (.ofSecond 9) =
        (.ok ⟨some 5, ["/app/size"], ["/app/mode"]⟩, b) ∧
      reason.message =
        "Type mismatch at '/app/mode': entry holds string, got int" ∧
      (a.under .strict).rollback "desk" request (.ofSecond 9) =
        (.error reason, a.under .strict) ∧
      (a.under .strict).preview "desk" request = .error reason := by
  intro a request
  have h : Reachable (fun _ => True) a := reachable_run .fresh _
  have hreport : ((a.under .bestEffort).rollback "desk" request
      (.ofSecond 9)).1.toOption =
        some ⟨some 5, ["/app/size"], ["/app/mode"]⟩ := by decide +kernel
  have hmessage : (match (a.under .strict).preview "desk" request with
      | .ok _ => ""
      | .error e => e.message) =
        "Type mismatch at '/app/mode': entry holds string, got int" := by
    decide +kernel
  obtain ⟨-, hskipped⟩ := policies_of_reachable h (eq_mk_of_toOption hreport)
  obtain ⟨l, scopes, path, reason, -, -, -, hstop, hrefused, hpreview⟩ :=
    hskipped _ _ rfl
  rw [hpreview] at hmessage
  exact ⟨_, reason, eq_mk_of_toOption hreport, hmessage, hrefused, hpreview⟩

end SettingsArchive.Archive
