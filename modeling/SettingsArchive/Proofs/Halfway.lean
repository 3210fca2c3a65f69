import SettingsArchive.Proofs.Proper
import SettingsArchive.Proofs.Rollback

/-!
# Rollbacks that end halfway

A rollback checks all values before it writes the first one, so one that is
refused should have changed nothing.  There is one exception.  The backend of a
path is asked for behind the write of its value, and a path of one segment has
none: there the rollback ends, with all values written up to that one.

`HalfDone` is what such a rollback leaves, and `halfDone_of_rollback` says that
there is no third way to be refused.  Only reading can bring settings outside all
backends into an archive, so no rollback ends halfway where every setting of the
archive in the beginning lies below a backend (`halfway_of_run`).
-/

namespace SettingsArchive.Archive

open Directory

variable {a b : Archive} {id : String} {request : RollbackRequest} {now : Instant}

/-- What a rollback leaves that ends at a path of one segment.  The values in front
of it are written as a whole rollback writes them, with their backends, and its
own is written under the same number.  The archive does not count as changed. -/
def HalfDone (a : Archive) (id : String) (request : RollbackRequest)
    (now : Instant) (reason : ArchiveError) (b : Archive) : Prop :=
  ∃ plan l k done x rest, a.plan id request = .ok plan ∧
    a.location id = .ok l ∧ plan.resolved = done ++ x :: rest ∧
    (∀ y ∈ done, 2 ≤ y.1.length) ∧ x.1.length = 1 ∧
    reason = .invalidPath x.1.text ∧ l.Extended now a.nextRevision done k ∧
    b = (a.put { k with
      tree := k.tree.write x.1
        ⟨a.nextRevision, now, x.2, .retire, false⟩ }).counted

/-- A rollback that ends halfway has used up a number. -/
theorem HalfDone.ne {reason : ArchiveError}
    (h : a.HalfDone id request now reason b) : b ≠ a := by
  obtain ⟨plan, l, k, done, x, rest, -, -, -, -, -, -, -, rfl⟩ := h
  intro heq
  have hnext : a.nextRevision + 1 = a.nextRevision := congrArg nextRevision heq
  omega

/-- The values of a plan that is prepared can be taken. -/
theorem fits_of_prepareRollback {plan : RollbackPlan} {l : Location}
    {n : Option Nat} (hs : ∀ l ∈ a.locations, l.tree.Sound)
    (h : a.prepareRollback id request now = .ok (plan, l, n, b)) :
    ∀ x ∈ plan.resolved, l.tree.Fits x.1 x.2 now := by
  obtain ⟨hplan, hl, -⟩ := of_prepareRollback h
  obtain ⟨p, hp, h⟩ := bind_eq_ok h
  obtain ⟨m, hm, h⟩ := bind_eq_ok h
  obtain ⟨⟨⟩, hchecks, -⟩ := bind_eq_ok h
  obtain rfl := Except.ok.inj (hplan.symm.trans hp)
  obtain rfl := Except.ok.inj (hm.symm.trans (location_eq_ok_iff.2 hl))
  obtain ⟨hpaths, -⟩ := paths_of_plan hs hplan
  intro x hx
  obtain ⟨path, hpath, hfits⟩ :=
    checkWrite_eq_ok_iff.1 (forM_eq_ok hchecks x hx)
  rw [Path.ofText?_text_of_isValid (hpaths x hx).1] at hpath
  obtain rfl := Option.some.inj hpath
  exact hfits

/-- A rollback that is prepared is carried out if all its paths lie below
backends, and ends halfway if one of them does not. -/
theorem rollback_of_prepared (ha : a.WellFormed) {plan : RollbackPlan}
    {l : Location} {n : Option Nat} {c : Archive}
    (h : a.prepareRollback id request now = .ok (plan, l, n, c)) :
    ((∀ x ∈ plan.resolved, 2 ≤ x.1.length) ∧
      ∃ report b, a.rollback id request now = (.ok report, b)) ∨
    ((∃ x ∈ plan.resolved, x.1.length = 1) ∧
      ∃ reason b, a.rollback id request now = (.error reason, b) ∧
        a.HalfDone id request now reason b) := by
  obtain ⟨hplan, hl, hcount⟩ := of_prepareRollback h
  have hfits := fits_of_prepareRollback ha.trees h
  obtain ⟨hpaths, hn⟩ := paths_of_plan ha.trees hplan
  unfold rollback
  rw [h]
  rcases hcount with ⟨hnil, rfl, rfl⟩ | ⟨-, rfl, -, rfl⟩
  · exact Or.inl ⟨by simp [hnil], _, _, rfl⟩
  · rcases applyAll_cases (n := a.nextRevision) hn
        (fun x hx => ⟨(hpaths x hx).1, hfits x hx⟩) with
      ⟨hdeep, hok⟩ | ⟨done, x, rest, k, hsplit, hdone, hx, hk, herror⟩
    · cases hr : applyAll l now a.nextRevision plan.resolved with
      | mk answer m =>
        rw [hr] at hok
        obtain rfl : answer = .ok () := hok
        simp only [hr]
        exact Or.inl ⟨hdeep, _, _, rfl⟩
    · have hextended : l.Extended now a.nextRevision done k := by
        rw [hsplit, List.map_append] at hn
        have hwhole := extended_applyAll
          (ha.sound l (mem_of_findLocation? hl).1).backends (List.nodup_append.1 hn).1
          (fun y hy => (hpaths y (by simp [hsplit, hy])).1) (congrArg Prod.fst hk)
        rwa [hk] at hwhole
      simp only [herror]
      exact Or.inr ⟨⟨x, by simp [hsplit], hx⟩, _, _, rfl, plan, l, k, done, x,
        rest, hplan, location_eq_ok_iff.2 hl, hsplit, hdone, hx, rfl, hextended,
        rfl⟩

/-- A rollback that is refused has changed nothing or ended halfway. -/
theorem halfDone_of_rollback (ha : a.WellFormed) {reason : ArchiveError}
    (h : a.rollback id request now = (.error reason, b)) :
    b = a ∨ a.HalfDone id request now reason b := by
  cases hp : a.prepareRollback id request now with
  | error e =>
    unfold rollback at h
    rw [hp] at h
    exact Or.inl (Prod.mk.inj h).2.symm
  | ok prepared =>
    obtain ⟨plan, l, n, c⟩ := prepared
    rcases rollback_of_prepared ha hp with
      ⟨-, report, d, hok⟩ | ⟨-, reason', d, herror, hhalf⟩
    · rw [h] at hok
      cases (Prod.mk.inj hok).1
    · rw [h] at herror
      obtain ⟨hreason, rfl⟩ := Prod.mk.inj herror
      obtain rfl := Except.error.inj hreason
      exact Or.inr hhalf

/-- Where all settings lie below backends, a rollback is carried out as a whole
or changes nothing. -/
theorem rollback_of_error {reason : ArchiveError} (ha : a.WellFormed)
    (hdeep : ∀ l ∈ a.locations, l.tree.IsDeep)
    (h : a.rollback id request now = (.error reason, b)) : b = a := by
  rcases halfDone_of_rollback ha h with heq | hhalf
  · exact heq
  · obtain ⟨plan, l, k, done, x, rest, hplan, -, hsplit, -, hlength, -⟩ := hhalf
    obtain ⟨hpaths, -⟩ := paths_of_plan ha.trees hplan
    obtain ⟨-, k, hk, own, hown⟩ := hpaths x (by simp [hsplit])
    have hlong := hdeep k hk x.1 own hown
    omega

/-- Runs keep every setting below a backend. -/
theorem deep_run (ha : a.WellFormed) (hdeep : ∀ l ∈ a.locations, l.tree.IsDeep)
    (ops : List Operation) :
    ∀ l ∈ (a.run ops).locations, l.tree.IsDeep :=
  (run_induction_step (P := fun a => ∀ l ∈ a.locations, l.tree.IsDeep) ha hdeep
    fun _ _ _ ha hdeep hstep => hstep.deep ha hdeep).2

/-- A rollback that is refused has changed nothing or ended halfway, behind any
run.  It ends halfway exactly if all its checks have passed and one of the paths
that go back has one segment.  That never happens where every setting of the
archive in the beginning lies below a backend. -/
theorem halfway_of_run (h : IsStart a) (ops : List Operation) (id : String)
    (request : RollbackRequest) (now : Instant) :
    (∀ reason b, (a.run ops).rollback id request now = (.error reason, b) →
      b = a.run ops ∨ (a.run ops).HalfDone id request now reason b) ∧
    ((∃ reason b, (a.run ops).rollback id request now = (.error reason, b) ∧
        b ≠ a.run ops) ↔
      ∃ plan l n c, (a.run ops).prepareRollback id request now =
          .ok (plan, l, n, c) ∧ ∃ x ∈ plan.resolved, x.1.length = 1) ∧
    ((∀ l ∈ a.locations, l.tree.IsDeep) → ∀ reason b,
      (a.run ops).rollback id request now = (.error reason, b) →
        b = a.run ops) := by
  have hwf : (a.run ops).WellFormed := (reachable_run h ops).wellFormed
  refine ⟨fun reason b hr => halfDone_of_rollback hwf hr, ⟨?_, ?_⟩, ?_⟩
  · rintro ⟨reason, b, hr, hne⟩
    cases hp : (a.run ops).prepareRollback id request now with
    | error e =>
      unfold rollback at hr
      rw [hp] at hr
      exact absurd (Prod.mk.inj hr).2.symm hne
    | ok prepared =>
      obtain ⟨plan, l, n, c⟩ := prepared
      rcases rollback_of_prepared hwf hp with ⟨-, report, d, hok⟩ | ⟨hx, -⟩
      · rw [hr] at hok
        cases (Prod.mk.inj hok).1
      · exact ⟨plan, l, n, c, rfl, hx⟩
  · rintro ⟨plan, l, n, c, hp, x, hx, hlength⟩
    rcases rollback_of_prepared hwf hp with
      ⟨hdeep, -⟩ | ⟨-, reason, b, hr, hhalf⟩
    · have := hdeep x hx
      omega
    · exact ⟨reason, b, hr, hhalf.ne⟩
  · intro hdeep reason b hr
    exact rollback_of_error hwf (deep_run h.wellFormed hdeep ops) hr

/-- A setting of one revision refuses a strict rollback, and the other setting
is not written. -/
theorem halfway_of_single_revision :
    let ops : List Operation := [
      .storeValue "default" "/app/size" (.int 1) (.ofSecond 5) .keep,
      .storeValue "default" "/app/size" (.int 2) (.ofSecond 6) .keep,
      .storeValue "default" "/app/mode" (.int 3) (.ofSecond 7) .keep,
      .setPolicy .strict]
    ∃ reason, (fresh.run ops).rollback "default" { target := .last }
      (.ofSecond 9) = (.error reason, fresh.run ops) := by
  intro ops
  have hdeep : ∀ l ∈ fresh.locations, l.tree.IsDeep := isProper_fresh.deep
  have hrefused : ((fresh.run ops).rollback "default" { target := .last }
      (.ofSecond 9)).1.toOption = none := by decide +kernel
  obtain ⟨-, -, hunchanged⟩ := halfway_of_run .fresh ops "default"
    { target := .last } (.ofSecond 9)
  cases hr : (fresh.run ops).rollback "default" { target := .last }
      (.ofSecond 9) with
  | mk answer b =>
    rw [hr] at hrefused
    cases answer with
    | ok report => cases hrefused
    | error reason => exact ⟨reason, by rw [hunchanged hdeep reason b hr]⟩

/-- Contents with a setting outside all backends. -/
def shallow : Contents :=
  let revision (n : Nat) : Revision :=
    ⟨n, .ofSecond n, .bool (n == 2), .keep, false⟩
  { fresh.contents with
    locations := [{
      id := defaultId
      tree := (Directory.empty.write ["key"] (revision 1)).write ["key"]
        (revision 2) }]
    nextRevision := 3 }

/-- A setting outside all backends is read, and a rollback that is refused has
written its earlier value. -/
theorem halfDone_of_shallow_setting :
    let numbers (a : Archive) : List (Option (List Nat)) :=
      a.locations.map fun l =>
        (l.lookup "/key").map (·.revisions.map Revision.id)
    ∃ a, ofText shallow.toElement.document = .ok a ∧
      numbers a = [some [1, 2]] ∧
      ∃ reason b, a.rollback "default" { target := .last } (.ofSecond 9) =
          (.error reason, b) ∧
        reason.message = "Invalid key path: \"/key\"" ∧
        numbers b = [some [1, 2, 3]] ∧ b ≠ a := by
  intro numbers
  have hread : (Contents.ofElement shallow.toElement).toOption.map (fun c =>
      let answer := (ofContents c).rollback "default" { target := .last }
        (.ofSecond 9)
      (numbers (ofContents c), (answer.1.mapError ArchiveError.message),
        numbers answer.2)) =
      some ([some [1, 2]], .error "Invalid key path: \"/key\"",
        [some [1, 2, 3]]) := by
    decide +kernel
  obtain ⟨c, hc, hfacts⟩ := exists_ok_of_map_toOption hread
  simp only [Prod.mk.injEq] at hfacts
  obtain ⟨hbefore, hanswer, hafter⟩ := hfacts
  refine ⟨ofContents c, ?_, hbefore, ?_⟩
  · rw [ofText_document (Contents.isPlain_toElement _), hc]
    rfl
  · cases hr : (ofContents c).rollback "default" { target := .last }
        (.ofSecond 9) with
    | mk answer b =>
      rw [hr] at hanswer hafter
      cases answer with
      | ok report => cases hanswer
      | error reason =>
        refine ⟨reason, b, rfl, Except.error.inj hanswer, hafter, ?_⟩
        rintro rfl
        rw [hbefore] at hafter
        cases hafter

end SettingsArchive.Archive
