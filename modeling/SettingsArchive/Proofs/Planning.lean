import SettingsArchive.Proofs.Links
import SettingsArchive.Proofs.Storing

/-!
# Plans of rollbacks

A plan goes through the paths that are seen in some locations.  In locations
with sound trees these are the paths under which one of the trees has a
setting, each once (`mem_pathsIn_iff`), and a plan sends every one of them back
to an earlier value or skips it with the value it has (`of_planPaths`).
-/

namespace SettingsArchive

open Directory

/-- A list with every element once repeats none. -/
theorem nodup_eraseDups {α : Type} [BEq α] [LawfulBEq α] (xs : List α) :
    xs.eraseDups.Nodup := by
  induction hn : xs.length using Nat.strongRecOn generalizing xs with
  | ind n ih =>
    cases xs with
    | nil => simp
    | cons x xs =>
      rw [List.eraseDups_cons, List.nodup_cons, List.mem_eraseDups]
      refine ⟨by simp, ih _ ?_ _ rfl⟩
      have hle := List.length_filter_le (fun y => !y == x) xs
      rw [List.length_cons] at hn
      omega

/-! ## The paths of a location -/

namespace Location

/-- The paths of a location are those under which its tree has a setting. -/
theorem mem_paths_iff {l : Location} (hl : l.tree.Sound)
    {backend : Option String} (hb : ∀ b, backend = some b → isValidBackend b)
    {path : Path} :
    path ∈ l.paths backend ↔
      (∃ e, l.tree.get? path = some e) ∧ path.IsBelow backend := by
  cases backend with
  | none =>
    simp only [paths, Path.isBelow_none, and_true, List.mem_map]
    constructor
    · rintro ⟨⟨p, e⟩, hmem, rfl⟩
      exact ⟨e, hl.mem_allEntries_iff.1 hmem⟩
    · rintro ⟨e, he⟩
      exact ⟨(path, e), hl.mem_allEntries_iff.2 he, rfl⟩
  | some b =>
    have hfind : l.tree.find? [b] = l.tree.child? b := by
      rw [Directory.find?]
      cases l.tree.child? b with
      | none => rfl
      | some d => rfl
    simp only [paths, Path.ofText?_backend (hb b rfl), hfind]
    constructor
    · intro h
      split at h
      · simp at h
      · rename_i d hd
        obtain ⟨⟨p, e⟩, hmem, rfl⟩ := List.mem_map.1 h
        obtain ⟨rest, hp, he⟩ := (hl.child hd).mem_entriesBelow_iff.1 hmem
        have hne : rest ≠ [] := by
          rintro rfl
          simp at he
        simp only [List.singleton_append] at hp he
        subst hp
        refine ⟨⟨e, ?_⟩, ?_⟩
        · rw [get?_cons hne, hd]
          exact he
        · rintro c ⟨⟩
          exact ⟨rest, hne, rfl⟩
    · rintro ⟨⟨e, he⟩, hbelow⟩
      obtain ⟨rest, hne, rfl⟩ := hbelow b rfl
      rw [get?_cons hne] at he
      obtain ⟨d, hd, he⟩ := Option.bind_eq_some_iff.1 he
      rw [hd]
      refine List.mem_map.2 ⟨(b :: rest, e), ?_, rfl⟩
      exact (hl.child hd).mem_entriesBelow_iff.2 ⟨rest, rfl, he⟩

end Location

namespace Archive

/-! ## The paths in several locations -/

/-- There are entries at a path if one of the trees has a setting there. -/
theorem entriesAt_ne_nil_iff {scopes : List Location} {path : Path} :
    entriesAt scopes path ≠ [] ↔
      ∃ l ∈ scopes, ∃ e, l.tree.get? path = some e := by
  simp [entriesAt, List.filterMap_eq_nil_iff, Option.ne_none_iff_exists']

/-- The paths in some locations are those under which one of the trees has a
setting. -/
theorem mem_pathsIn_iff {scopes : List Location}
    (hs : ∀ l ∈ scopes, l.tree.Sound) {backend : Option String}
    (hb : ∀ b, backend = some b → Location.isValidBackend b) {path : Path} :
    path ∈ pathsIn scopes backend ↔
      entriesAt scopes path ≠ [] ∧ path.IsBelow backend := by
  rw [pathsIn, List.mem_eraseDups, List.mem_flatMap, entriesAt_ne_nil_iff]
  constructor
  · rintro ⟨l, hl, hmem⟩
    obtain ⟨he, hbelow⟩ := (Location.mem_paths_iff (hs l hl) hb).1 hmem
    exact ⟨⟨l, hl, he⟩, hbelow⟩
  · rintro ⟨⟨l, hl, he⟩, hbelow⟩
    exact ⟨l, hl, (Location.mem_paths_iff (hs l hl) hb).2 ⟨he, hbelow⟩⟩

theorem nodup_pathsIn (scopes : List Location) (backend : Option String) :
    (pathsIn scopes backend).Nodup :=
  nodup_eraseDups _

theorem isValid_of_mem_pathsIn {scopes : List Location}
    (hs : ∀ l ∈ scopes, l.tree.Sound) {backend : Option String}
    (hb : ∀ b, backend = some b → Location.isValidBackend b) {path : Path}
    (h : path ∈ pathsIn scopes backend) : path.IsValid := by
  obtain ⟨hne, -⟩ := (mem_pathsIn_iff hs hb).1 h
  obtain ⟨e, he⟩ := List.exists_mem_of_ne_nil _ hne
  obtain ⟨l, hl, hget⟩ := List.mem_filterMap.1 he
  exact (hs l hl).isValid_of_get? hget

/-- The value that is seen at a path is that of the nearest entry. -/
theorem get_eq {a : Archive} {id : String} {chain : List Location}
    (h : a.ancestors id = .ok chain) {path : Path} (hv : path.IsValid) :
    a.get id path.text =
      .ok ((entriesAt chain path).head?.map Entry.current) := by
  have hseen (ls : List Location) :
      (ls.findSome? fun l => (l.tree.get? path).map (l.id, ·)).map
        (fun x => x.2.current) = (entriesAt ls path).head?.map Entry.current := by
    induction ls with
    | nil => rfl
    | cons l ls ih =>
      rw [List.findSome?_cons, entriesAt, List.filterMap_cons]
      cases l.tree.get? path with
      | none => exact ih
      | some e => rfl
  unfold get history
  rw [Path.ofText?_text_of_isValid hv]
  simp only [h, bind, Except.bind]
  exact congrArg Except.ok (hseen chain)

/-! ## Plans -/

/-- What a path is sent back to. -/
def Resolved (target : Target) (scopes : List Location) (x : Path × Value) :
    Prop :=
  ∃ r, resolveAt target (scopes.head?.bind (·.tree.get? x.1))
      (entriesAt scopes x.1) x.1 = .ok r ∧ x.2 = r.value

/-- A setting with the value that is seen. -/
def Seen (scopes : List Location) (x : Path × Value) : Prop :=
  ∃ e, (entriesAt scopes x.1).head? = some e ∧ x.2 = e.current

theorem Seen.unique {scopes : List Location} {path : Path} {v w : Value}
    (hv : Seen scopes (path, v)) (hw : Seen scopes (path, w)) : v = w := by
  obtain ⟨d, hd, hv⟩ := hv
  obtain ⟨e, he, hw⟩ := hw
  have hde : d = e := Option.some.inj (hd.symm.trans he)
  exact hv.trans (hde ▸ hw.symm)

/-- A target means nothing where there is no setting. -/
theorem resolveChain_nil (target : Target) : target.resolveChain [] = none := by
  cases target with
  | steps count => rw [Target.resolveChain, List.flatMap_nil, List.take_nil]; rfl
  | _ => rfl

/-- A path is sent back to the value that the target means in the chain of its
entries, if the location that was asked for has that kind there. -/
theorem resolved_iff {target : Target} {scopes : List Location} {path : Path}
    {value : Value} :
    Resolved target scopes (path, value) ↔
      (target.resolveChain (entriesAt scopes path)).map Revision.value =
          some value ∧
        ∀ e, scopes.head?.bind (·.tree.get? path) = some e →
          e.kind = value.kind := by
  unfold Resolved resolveAt
  cases target.resolveChain (entriesAt scopes path) with
  | none => simp
  | some r =>
    cases scopes.head?.bind (·.tree.get? path) with
    | none => simp [eq_comm]
    | some own =>
      constructor
      · rintro ⟨found, hfound, hvalue⟩
        dsimp only at hfound
        split at hfound
        · cases hfound
        · rename_i hkind
          obtain rfl := Except.ok.inj hfound
          refine ⟨congrArg some hvalue.symm, ?_⟩
          rintro e ⟨⟩
          exact (not_not.1 hkind).trans (congrArg Value.kind hvalue.symm)
      · rintro ⟨hvalue, hkind⟩
        obtain rfl : r.value = value := Option.some.inj hvalue
        exact ⟨r, if_neg (not_not.2 (hkind own rfl)), rfl⟩

theorem Resolved.unique {target : Target} {scopes : List Location}
    {path : Path} {v w : Value} (hv : Resolved target scopes (path, v))
    (hw : Resolved target scopes (path, w)) : v = w := by
  obtain ⟨r, hr, hv⟩ := hv
  obtain ⟨s, hs, hw⟩ := hw
  have hrs : r = s := Except.ok.inj (hr.symm.trans hs)
  exact hv.trans (hrs ▸ hw.symm)

/-- A setting that a plan leaves with the value that is seen, because there is
nothing to send it back to. -/
structure Skipped (target : Target) (scopes : List Location)
    (x : Path × Value) : Prop where
  seen : Seen scopes x
  unresolved : ∀ value, ¬ Resolved target scopes (x.1, value)

/-- Planning a path that is seen sends it back or skips it. -/
theorem of_planPath {policy : Policy} {target : Target}
    {scopes : List Location} {plan new : RollbackPlan} {path : Path}
    (hpath : entriesAt scopes path ≠ [])
    (h : planPath policy target scopes plan path = .ok new) :
    (∃ value, Resolved target scopes (path, value) ∧
      new = { plan with resolved := plan.resolved ++ [(path, value)] }) ∨
      ∃ value, Skipped target scopes (path, value) ∧
        new = { plan with skipped := plan.skipped ++ [(path, value)] } := by
  unfold planPath at h
  simp only at h
  split at h
  · rename_i r hr
    injection h with h
    exact Or.inl ⟨r.value, ⟨r, hr, rfl⟩, h.symm⟩
  · rename_i reason hreason
    split at h
    · cases h
    · rename_i hnil
      exact absurd hnil hpath
    · rename_i e es hentries
      injection h with h
      refine Or.inr ⟨e.current, ⟨⟨e, ?_, rfl⟩, ?_⟩, h.symm⟩
      · rw [hentries]
        rfl
      · rintro value ⟨r, hr, -⟩
        rw [hreason] at hr
        cases hr

/-- Planning paths that are seen sends each of them back or skips it. -/
theorem of_planPaths {policy : Policy} {target : Target}
    {scopes : List Location} {plan new : RollbackPlan} {paths : List Path}
    (hpaths : ∀ path ∈ paths, entriesAt scopes path ≠ [])
    (h : paths.foldlM (planPath policy target scopes) plan = .ok new) :
    ∃ resolved skipped,
      new = ⟨plan.resolved ++ resolved, plan.skipped ++ skipped⟩ ∧
      ((resolved ++ skipped).map Prod.fst).Perm paths ∧
      (∀ x ∈ resolved, Resolved target scopes x) ∧
      ∀ x ∈ skipped, Skipped target scopes x := by
  induction paths generalizing plan with
  | nil =>
    injection h with h
    exact ⟨[], [], by simp [← h], by simp, by simp, by simp⟩
  | cons path paths ih =>
    rw [List.foldlM_cons] at h
    obtain ⟨next, hnext, h⟩ := bind_eq_ok h
    obtain ⟨rs, ss, rfl, hperm, hrs, hss⟩ :=
      ih (fun p hp => hpaths p (List.mem_cons_of_mem _ hp)) h
    rcases of_planPath (hpaths path List.mem_cons_self) hnext with
      ⟨value, hvalue, rfl⟩ | ⟨value, hvalue, rfl⟩
    · refine ⟨(path, value) :: rs, ss, by simp, hperm.cons path, ?_, hss⟩
      intro x hx
      rcases List.mem_cons.1 hx with rfl | hx
      · exact hvalue
      · exact hrs x hx
    · refine ⟨rs, (path, value) :: ss, by simp, ?_, hrs, ?_⟩
      · rw [List.map_append, List.map_cons]
        rw [List.map_append] at hperm
        exact List.perm_middle.trans (hperm.cons path)
      · intro x hx
        rcases List.mem_cons.1 hx with rfl | hx
        · exact hvalue
        · exact hss x hx

/-- Best effort refuses no path. -/
theorem exists_planPaths_bestEffort (target : Target)
    (scopes : List Location) (paths : List Path) (plan : RollbackPlan) :
    ∃ new, paths.foldlM (planPath .bestEffort target scopes) plan = .ok new := by
  induction paths generalizing plan with
  | nil => exact ⟨plan, rfl⟩
  | cons path paths ih =>
    have hpath : ∃ next,
        planPath .bestEffort target scopes plan path = .ok next := by
      unfold planPath
      simp only
      split
      · exact ⟨_, rfl⟩
      · split
        · contradiction
        · exact ⟨_, rfl⟩
        · exact ⟨_, rfl⟩
    obtain ⟨next, hnext⟩ := hpath
    obtain ⟨new, hnew⟩ := ih next
    exact ⟨new, by rw [List.foldlM_cons, hnext]; exact hnew⟩

/-! ## Scopes -/

variable {a b : Archive}

/-- The locations that are looked into begin with the one that is asked for,
and all of them are there. -/
theorem of_scopes {id : String} {recursive : Bool} {scopes : List Location}
    (h : a.scopes id recursive = .ok scopes) :
    ∃ l above, findLocation? a.locations id = some l ∧ scopes = l :: above ∧
      ∀ m ∈ scopes, m ∈ a.locations := by
  unfold Archive.scopes at h
  split at h
  · unfold ancestors chain at h
    split at h
    · cases h
    · rename_i l hl
      obtain ⟨above, habove, hmem⟩ :=
        of_chainFrom (List.mem_of_find?_eq_some hl) h
      exact ⟨l, above, hl, habove, hmem⟩
  · obtain ⟨l, hl, h⟩ := bind_eq_ok h
    injection h with h
    have hl := location_eq_ok_iff.1 hl
    refine ⟨l, [], hl, h.symm, ?_⟩
    intro m hm
    rw [← h, List.mem_singleton] at hm
    exact hm ▸ List.mem_of_find?_eq_some hl

/-- Without those above, the location that is asked for is looked into. -/
theorem scopes_of_location {id : String} {l : Location}
    (h : a.location id = .ok l) : a.scopes id false = .ok [l] := by
  show (a.location id >>= fun l => pure [l]) = _
  rw [h]
  rfl

/-- The first location that is looked into is the one asked for. -/
theorem location_of_scopes {id : String} {recursive : Bool} {l : Location}
    {above : List Location} (h : a.scopes id recursive = .ok (l :: above)) :
    a.location id = .ok l ∧ l ∈ a.locations := by
  obtain ⟨l', above', hl, heq, hmem⟩ := of_scopes h
  obtain ⟨rfl, -⟩ := List.cons.inj heq
  exact ⟨location_eq_ok_iff.2 hl, hmem l List.mem_cons_self⟩

/-! ## Operations -/

theorem of_plan {id : String} {request : RollbackRequest} {plan : RollbackPlan}
    (h : a.plan id request = .ok plan) :
    (∀ backend, request.backend = some backend →
        Location.isValidBackend backend) ∧
      ∃ scopes, a.scopes id request.recursive = .ok scopes ∧
        (pathsIn scopes request.backend).foldlM
          (planPath a.policy request.target scopes) {} = .ok plan := by
  unfold Archive.plan at h
  cases hb : request.backend with
  | none =>
    rw [hb] at h
    obtain ⟨scopes, hscopes, h⟩ := bind_eq_ok h
    exact ⟨by simp, scopes, hscopes, h⟩
  | some backend =>
    rw [hb] at h
    obtain ⟨⟨⟩, hcheck, h⟩ := bind_eq_ok h
    obtain ⟨scopes, hscopes, h⟩ := bind_eq_ok h
    refine ⟨?_, scopes, hscopes, h⟩
    rintro c ⟨⟩
    exact Location.checkBackend_eq_ok_iff.1 hcheck

/-- The plan for the locations that are looked into goes through the paths in
them. -/
theorem plan_of_scopes {id : String} {request : RollbackRequest}
    (hb : ∀ backend, request.backend = some backend →
      Location.isValidBackend backend) {scopes : List Location}
    (hscopes : a.scopes id request.recursive = .ok scopes) :
    a.plan id request = (pathsIn scopes request.backend).foldlM
      (planPath a.policy request.target scopes) {} := by
  unfold Archive.plan
  cases hbackend : request.backend with
  | none => simp only [hscopes, bind, Except.bind]
  | some backend =>
    simp only [hscopes, bind, Except.bind,
      Location.checkBackend_eq_ok_iff.2 (hb backend hbackend)]

/-- Best effort has a plan for the locations that are looked into. -/
theorem exists_plan_bestEffort (hpolicy : a.policy = .bestEffort) {id : String}
    {request : RollbackRequest}
    (hb : ∀ backend, request.backend = some backend →
      Location.isValidBackend backend) {scopes : List Location}
    (hscopes : a.scopes id request.recursive = .ok scopes) :
    ∃ plan, a.plan id request = .ok plan := by
  rw [plan_of_scopes hb hscopes, hpolicy]
  exact exists_planPaths_bestEffort request.target scopes _ {}

/-- A plan sends each path that is seen back or skips it. -/
theorem perm_of_plan (hs : ∀ l ∈ a.locations, l.tree.Sound) {id : String}
    {request : RollbackRequest} {plan : RollbackPlan}
    (h : a.plan id request = .ok plan) {scopes : List Location}
    (hscopes : a.scopes id request.recursive = .ok scopes) :
    ((plan.resolved ++ plan.skipped).map Prod.fst).Perm
        (pathsIn scopes request.backend) ∧
      (∀ x ∈ plan.resolved, Resolved request.target scopes x) ∧
      ∀ x ∈ plan.skipped, Skipped request.target scopes x := by
  obtain ⟨hb, scopes', hscopes', hfold⟩ := of_plan h
  obtain rfl : scopes' = scopes := Except.ok.inj (hscopes'.symm.trans hscopes)
  obtain ⟨-, -, -, -, hmem⟩ := of_scopes hscopes
  obtain ⟨resolved, skipped, rfl, hperm, hresolved, hskipped⟩ := of_planPaths
    (fun p hp => ((mem_pathsIn_iff (fun l hl => hs l (hmem l hl)) hb).1 hp).1)
    hfold
  exact ⟨by simpa using hperm, by simpa using hresolved, by simpa using hskipped⟩

/-- The settings of a plan that go back are those that are seen and have
something to go back to. -/
theorem mem_resolved_iff (hs : ∀ l ∈ a.locations, l.tree.Sound) {id : String}
    {request : RollbackRequest} {plan : RollbackPlan}
    (h : a.plan id request = .ok plan) {scopes : List Location}
    (hscopes : a.scopes id request.recursive = .ok scopes)
    {x : Path × Value} :
    x ∈ plan.resolved ↔ x.1 ∈ pathsIn scopes request.backend ∧
      Resolved request.target scopes x := by
  obtain ⟨hperm, hresolved, hskipped⟩ := perm_of_plan hs h hscopes
  rw [List.map_append] at hperm
  constructor
  · intro hx
    exact ⟨hperm.mem_iff.1 (List.mem_append_left _ (List.mem_map_of_mem hx)),
      hresolved x hx⟩
  · rintro ⟨hpath, hx⟩
    rcases List.mem_append.1 (hperm.mem_iff.2 hpath) with hmem | hmem
    · obtain ⟨⟨path, value⟩, hy, rfl⟩ := List.mem_map.1 hmem
      rwa [(hresolved _ hy).unique hx] at hy
    · obtain ⟨y, hy, hyx⟩ := List.mem_map.1 hmem
      exact absurd (hyx ▸ hx) ((hskipped y hy).unresolved x.2)

/-- The paths that a plan skips are those that are seen and do not go back. -/
theorem mem_skipped_iff (hs : ∀ l ∈ a.locations, l.tree.Sound) {id : String}
    {request : RollbackRequest} {plan : RollbackPlan}
    (h : a.plan id request = .ok plan) {scopes : List Location}
    (hscopes : a.scopes id request.recursive = .ok scopes) {path : Path} :
    path ∈ plan.skipped.map Prod.fst ↔
      path ∈ pathsIn scopes request.backend ∧
        path ∉ plan.resolved.map Prod.fst := by
  obtain ⟨hperm, -, -⟩ := perm_of_plan hs h hscopes
  have hn := hperm.nodup_iff.2 (nodup_pathsIn scopes request.backend)
  rw [List.map_append] at hperm hn
  rw [← hperm.mem_iff, List.mem_append]
  constructor
  · intro hmem
    exact ⟨Or.inr hmem, fun hmem' => List.disjoint_of_nodup_append hn hmem' hmem⟩
  · rintro ⟨hmem, hnot⟩
    exact hmem.resolve_left hnot

/-- The settings that go back have valid paths, each once, and each of them is
there in some location. -/
theorem paths_of_plan (hs : ∀ l ∈ a.locations, l.tree.Sound) {id : String}
    {request : RollbackRequest} {plan : RollbackPlan}
    (h : a.plan id request = .ok plan) :
    (∀ x ∈ plan.resolved, x.1.IsValid ∧
      ∃ l ∈ a.locations, ∃ e, l.tree.get? x.1 = some e) ∧
      (plan.resolved.map Prod.fst).Nodup := by
  obtain ⟨hb, scopes, hscopes, -⟩ := of_plan h
  obtain ⟨-, -, -, -, hmem⟩ := of_scopes hscopes
  have hsound : ∀ l ∈ scopes, l.tree.Sound := fun l hl => hs l (hmem l hl)
  obtain ⟨hperm, -, -⟩ := perm_of_plan hs h hscopes
  rw [List.map_append] at hperm
  constructor
  · intro x hx
    have hpath : x.1 ∈ pathsIn scopes request.backend :=
      hperm.mem_iff.1 (List.mem_append_left _ (List.mem_map_of_mem hx))
    obtain ⟨hne, -⟩ := (mem_pathsIn_iff hsound hb).1 hpath
    obtain ⟨e, he⟩ := List.exists_mem_of_ne_nil _ hne
    obtain ⟨l, hl, hget⟩ := List.mem_filterMap.1 he
    exact ⟨isValid_of_mem_pathsIn hsound hb hpath, l, hmem l hl, e, hget⟩
  · have hn := hperm.nodup_iff.2 (nodup_pathsIn scopes request.backend)
    exact hn.of_append_left

theorem of_prepareRollback {id : String} {request : RollbackRequest}
    {now : Instant} {plan : RollbackPlan} {l : Location} {n : Option Nat}
    (h : a.prepareRollback id request now = .ok (plan, l, n, b)) :
    a.plan id request = .ok plan ∧ findLocation? a.locations id = some l ∧
      (plan.resolved = [] ∧ n = none ∧ b = a ∨
        plan.resolved ≠ [] ∧ n = some a.nextRevision ∧
          a.nextRevision < Numeral.maxWord ∧ b = a.counted) := by
  obtain ⟨p, hp, h⟩ := bind_eq_ok h
  obtain ⟨m, hm, h⟩ := bind_eq_ok h
  obtain ⟨⟨⟩, -, h⟩ := bind_eq_ok h
  split at h
  · rename_i hempty
    injection h with h
    simp only [Prod.mk.injEq] at h
    obtain ⟨rfl, rfl, rfl, rfl⟩ := h
    exact ⟨hp, location_eq_ok_iff.1 hm, Or.inl ⟨by simpa using hempty, rfl, rfl⟩⟩
  · rename_i hne
    obtain ⟨⟨n', a'⟩, ha, h⟩ := bind_eq_ok h
    obtain ⟨rfl, hlt, rfl⟩ := of_allocate ha
    injection h with h
    simp only [Prod.mk.injEq] at h
    obtain ⟨rfl, rfl, rfl, rfl⟩ := h
    exact ⟨hp, location_eq_ok_iff.1 hm,
      Or.inr ⟨by simpa using hne, rfl, hlt, rfl⟩⟩

/-- A rollback that was carried out was prepared, and if it had a number all the
values that go back were written. -/
theorem prepared_of_rollback {id : String} {request : RollbackRequest}
    {now : Instant} {report : RollbackReport}
    (h : a.rollback id request now = (.ok report, b)) :
    ∃ plan l number c,
      a.prepareRollback id request now = .ok (plan, l, number, c) ∧
      report = ⟨number, plan.resolved.map (·.1.text),
        plan.skipped.map (·.1.text)⟩ ∧
      (number = none ∧ b = c ∨ ∃ n m, number = some n ∧
        applyAll l now n plan.resolved = (.ok (), m) ∧ b = (c.put m).changed) := by
  unfold rollback at h
  cases hp : a.prepareRollback id request now with
  | error e =>
    rw [hp] at h
    cases h
  | ok prepared =>
    obtain ⟨plan, l, number, c⟩ := prepared
    rw [hp] at h
    cases number with
    | none =>
      obtain ⟨hreport, rfl⟩ := Prod.mk.inj h
      exact ⟨plan, l, none, c, rfl, (Except.ok.inj hreport).symm,
        Or.inl ⟨rfl, rfl⟩⟩
    | some n =>
      cases hr : applyAll l now n plan.resolved with
      | mk answer m =>
        simp only [hr] at h
        cases answer with
        | error e => cases (Prod.mk.inj h).1
        | ok =>
          obtain ⟨hreport, rfl⟩ := Prod.mk.inj h
          exact ⟨plan, l, some n, c, rfl, (Except.ok.inj hreport).symm,
            Or.inr ⟨n, m, rfl, hr, rfl⟩⟩

end Archive

end SettingsArchive
