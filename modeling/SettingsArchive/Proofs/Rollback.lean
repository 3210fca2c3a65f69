import SettingsArchive.Proofs.Forest

/-!
# Carrying plans out

A rollback carries a plan out: the values that go back are written to the
location that was asked for, and nothing else changes there or above it.
`RolledBack` says so of the locations that are looked into, before and behind
the rollback.

`Location.Extended` is what carrying a plan out does to a location: each setting
of the plan has its old history with one more revision, and the backends that
were missing are registered.  Different settings do not get in each other's
way, so the location behind the plan is known from the one before it
(`extended_applyAll`).

`rollback_of_fits` is about the other way: a plan whose values the location can
take, each below a backend, is carried out, unless there is no number for it.
-/

namespace SettingsArchive

open Directory

/-- A location with one more revision of each of these settings, all of one
number and instant.  The old history of a setting stays in front, with its head
superseded, and a setting that was not there begins. -/
structure Location.Extended (now : Instant) (n : Nat)
    (items : List (Path × Value)) (l m : Location) : Prop where
  id : m.id = l.id
  parent : m.parent = l.parent
  begun : ∀ x ∈ items, l.tree.get? x.1 = none →
    m.tree.get? x.1 =
      some ⟨x.1.getLastD "", [], ⟨n, now, x.2, .retire, false⟩⟩
  continued : ∀ x ∈ items, ∀ e, l.tree.get? x.1 = some e →
    m.tree.get? x.1 = some ⟨e.name, e.past ++ [{ e.head with superseded := true }],
      ⟨n, now, x.2, .retire, false⟩⟩
  others : ∀ path ∉ items.map Prod.fst, m.tree.get? path = l.tree.get? path
  backends : ∃ new, m.backends = l.backends ++ new ∧ new.Nodup ∧
    ∀ b, b ∈ new ↔ b ∉ l.backends ∧ ∃ x ∈ items, x.1.head? = some b

namespace Archive

variable {a b : Archive}

/-! ## The locations behind a rollback -/

/-- In a forest no location is looked into twice. -/
theorem nodup_scopes (hf : a.IsForest) (ha : a.WellFormed) {id : String}
    {recursive : Bool} {scopes : List Location}
    (h : a.scopes id recursive = .ok scopes) :
    (scopes.map Location.id).Nodup := by
  obtain ⟨l, above, hl, rfl, -⟩ := of_scopes h
  obtain ⟨hmem, rfl⟩ := mem_of_findLocation? hl
  cases recursive with
  | true =>
    obtain ⟨others, hancestors, hn, -⟩ := hf.ancestors_eq_ok ha hmem
    have h : a.ancestors l.id = .ok (l :: above) := h
    rw [hancestors] at h
    injection h with h
    exact h ▸ hn
  | false =>
    obtain ⟨k, -, h⟩ := bind_eq_ok h
    injection h with h
    rw [← h]
    exact List.nodup_singleton _

/-- Where ids and links stay, the changed locations are looked into. -/
theorem scopes_map {g : Location → Location}
    (hid : ∀ l ∈ a.locations, (g l).id = l.id)
    (hparent : ∀ l ∈ a.locations, (g l).parent = l.parent)
    (hb : b.locations = a.locations.map g) {id : String} {recursive : Bool}
    {scopes : List Location} (h : a.scopes id recursive = .ok scopes) :
    b.scopes id recursive = .ok (scopes.map g) := by
  cases recursive with
  | false =>
    obtain ⟨l, hl, h⟩ := bind_eq_ok h
    injection h with h
    have hfind : findLocation? b.locations id = some (g l) := by
      rw [hb, findLocation?_map hid, location_eq_ok_iff.1 hl]
      rfl
    rw [← h]
    exact scopes_of_location (location_eq_ok_iff.2 hfind)
  | true =>
    have h : chain a.locations id = .ok scopes := h
    show chain b.locations id = _
    rw [hb, chain_map hid hparent, h]
    rfl

/-- Changing a location but its links changes it among the locations that are
looked into. -/
theorem scopes_put (hf : a.IsForest) (ha : a.WellFormed) {l m : Location}
    (hl : l ∈ a.locations) (hid : m.id = l.id) (hparent : m.parent = l.parent)
    (hb : b.locations = (a.put m).locations) {recursive : Bool}
    {above : List Location} (h : a.scopes l.id recursive = .ok (l :: above)) :
    b.scopes l.id recursive = .ok (m :: above) := by
  let g : Location → Location := fun x => if x.id = m.id then m else x
  have hgid : ∀ x ∈ a.locations, (g x).id = x.id := by
    intro x _
    by_cases hx : x.id = m.id
    · rw [show g x = m from if_pos hx, hx]
    · rw [show g x = x from if_neg hx]
  have hgparent : ∀ x ∈ a.locations, (g x).parent = x.parent := by
    intro x hxa
    by_cases hx : x.id = m.id
    · obtain rfl := List.inj_on_of_nodup_map ha.ids hxa hl (hx.trans hid)
      rw [show g x = m from if_pos hx, hparent]
    · rw [show g x = x from if_neg hx]
  have hn := nodup_scopes hf ha h
  rw [List.map_cons, List.nodup_cons] at hn
  have habove : above.map g = above := by
    refine List.map_congr_left (fun x hx => ?_) |>.trans (List.map_id above)
    refine if_neg fun hxm => hn.1 ?_
    rw [← hid, ← hxm]
    exact List.mem_map_of_mem hx
  have hgl : g l = m := if_pos hid.symm
  rw [scopes_map hgid hgparent hb h, List.map_cons, hgl, habove]

/-! ## What a rollback leaves -/

/-- A plan that was carried out.  The locations `l :: above` were looked into,
and now they are `m :: above`: `m` has the values that go back, and its other
settings are those of `l`. -/
structure RolledBack (a b : Archive) (id : String) (request : RollbackRequest)
    (report : RollbackReport) (plan : RollbackPlan) (l m : Location)
    (above : List Location) : Prop where
  planned : a.plan id request = .ok plan
  applied : report.applied = plan.resolved.map (·.1.text)
  skipped : report.skipped = plan.skipped.map (·.1.text)
  before : a.scopes id request.recursive = .ok (l :: above)
  after : b.scopes id request.recursive = .ok (m :: above)
  sound : m.tree.Sound
  written : ∀ x ∈ plan.resolved,
    ∃ e, m.tree.get? x.1 = some e ∧ e.current = x.2
  others : ∀ q ∉ plan.resolved.map Prod.fst, m.tree.get? q = l.tree.get? q

/-- A rollback that was not refused carried a plan out. -/
theorem of_rollback (ha : a.WellFormed) (hf : a.IsForest) {id : String}
    {request : RollbackRequest} {now : Instant} {report : RollbackReport}
    (h : a.rollback id request now = (.ok report, b)) :
    ∃ plan l m above, RolledBack a b id request report plan l m above := by
  obtain ⟨plan, l, number, c, hp, rfl, hdone⟩ := prepared_of_rollback h
  obtain ⟨hplan, hl, hcount⟩ := of_prepareRollback hp
  obtain ⟨-, scopes, hscopes, -⟩ := of_plan hplan
  obtain ⟨l', above, hl', rfl, -⟩ := of_scopes hscopes
  obtain rfl : l' = l := Option.some.inj (hl'.symm.trans hl)
  obtain ⟨hmem, rfl⟩ := mem_of_findLocation? hl
  have hsound := ha.sound l' hmem
  rcases hcount with ⟨hnil, rfl, rfl⟩ | ⟨-, rfl, -, rfl⟩
  · obtain rfl : b = c := by simpa using hdone
    refine ⟨plan, l', l', above, hplan, rfl, rfl, hscopes, hscopes,
      hsound.tree, ?_, fun _ _ => rfl⟩
    rw [hnil]
    simp
  · obtain ⟨n, m, hn, hr, rfl⟩ := hdone.resolve_left (by simp)
    obtain rfl := Option.some.inj hn
    obtain ⟨hvalid, hdistinct⟩ := paths_of_plan ha.trees hplan
    obtain ⟨done, rest, tree, m', hsplit, hw, hm, hid, hparent, rfl, -, hok⟩ :=
      applyAll_written l' hsound.backends now a.nextRevision plan.resolved
        fun x hx => (hvalid x hx).1
    rw [hr] at hm hok
    subst hm
    obtain rfl := hok rfl
    rw [List.append_nil] at hsplit
    rw [← hsplit] at hw
    obtain ⟨hwritten, hothers⟩ := hw.get? hdistinct
    exact ⟨plan, l', m, above, hplan, rfl, rfl, hscopes,
      scopes_put hf ha hmem hid hparent rfl hscopes, hw.sound hsound.tree,
      hwritten, hothers⟩

/-- The report of a rollback lists every path that is looked at, each once. -/
theorem RolledBack.listed (ha : a.WellFormed) {id : String}
    {request : RollbackRequest} {report : RollbackReport} {plan : RollbackPlan}
    {l m : Location} {above : List Location}
    (h : RolledBack a b id request report plan l m above) :
    (report.applied ++ report.skipped).Nodup ∧
      ∀ t, t ∈ report.applied ++ report.skipped ↔
        ∃ path, t = path.text ∧ path.IsBelow request.backend ∧
          ∃ k ∈ l :: above, ∃ e, k.tree.get? path = some e := by
  have hs := ha.trees
  obtain ⟨hbackend, -⟩ := of_plan h.planned
  obtain ⟨-, -, -, -, hthere⟩ := of_scopes h.before
  have hsound := fun k hk => hs k (hthere k hk)
  obtain ⟨hperm, -, -⟩ := perm_of_plan hs h.planned h.before
  have hlisted : (report.applied ++ report.skipped).Perm
      ((pathsIn (l :: above) request.backend).map Path.text) := by
    have htexts := hperm.map Path.text
    rw [List.map_append, List.map_append, List.map_map, List.map_map] at htexts
    rw [h.applied, h.skipped]
    exact htexts
  constructor
  · refine hlisted.nodup_iff.2 ((nodup_pathsIn _ _).map_on ?_)
    intro p hp q hq heq
    exact Path.text_injective (isValid_of_mem_pathsIn hsound hbackend hp)
      (isValid_of_mem_pathsIn hsound hbackend hq) heq
  · intro t
    rw [hlisted.mem_iff, List.mem_map]
    constructor
    · rintro ⟨path, hpath, rfl⟩
      obtain ⟨hne, hbelow⟩ := (mem_pathsIn_iff hsound hbackend).1 hpath
      exact ⟨path, rfl, hbelow, entriesAt_ne_nil_iff.1 hne⟩
    · rintro ⟨path, rfl, hbelow, hseen⟩
      exact ⟨path, (mem_pathsIn_iff hsound hbackend).2
        ⟨entriesAt_ne_nil_iff.2 hseen, hbelow⟩, rfl⟩

/-! ## What is added -/

/-- The backend of a valid path is its first segment. -/
theorem head?_of_backendOf {path : Path} (hv : path.IsValid) {backend : String}
    (h : Path.backendOf path.text = .ok backend) : path.head? = some backend := by
  obtain ⟨name, rest, hpath⟩ := Path.backendOf_eq_ok_iff.1 h
  rw [Path.ofText?_text_of_isValid hv] at hpath
  rw [Option.some.inj hpath]
  rfl

/-- Registering a backend adds it if it is missing. -/
theorem exists_backends_ensureBackend (l : Location) (backend : String) :
    ∃ new, (l.ensureBackend backend).backends = l.backends ++ new ∧ new.Nodup ∧
      ∀ b, b ∈ new ↔ b ∉ l.backends ∧ b = backend := by
  unfold Location.ensureBackend
  split
  · rename_i hmem
    refine ⟨[], (List.append_nil _).symm, List.nodup_nil, fun b => ?_⟩
    constructor
    · intro hb
      cases hb
    · rintro ⟨hnot, rfl⟩
      exact absurd hmem hnot
  · rename_i hnot
    refine ⟨[backend], rfl, List.nodup_singleton backend, fun b => ?_⟩
    rw [List.mem_singleton]
    constructor
    · rintro rfl
      exact ⟨hnot, rfl⟩
    · exact And.right

/-- Carrying a plan out registers the backends of its paths that are missing. -/
theorem backends_applyAll {time : Instant} {n : Nat}
    {items : List (Path × Value)} {l : Location}
    (hv : ∀ x ∈ items, x.1.IsValid)
    (hok : (applyAll l time n items).1 = .ok ()) :
    ∃ new, (applyAll l time n items).2.backends = l.backends ++ new ∧
      new.Nodup ∧
      ∀ b, b ∈ new ↔ b ∉ l.backends ∧ ∃ x ∈ items, x.1.head? = some b := by
  fun_induction applyAll l time n items with
  | case1 => exact ⟨[], (List.append_nil _).symm, List.nodup_nil, by simp⟩
  | case2 => cases hok
  | case3 => cases hok
  | case4 l path value items tree hstore l' backend hbackend ih =>
    obtain ⟨hpath, hrest⟩ := List.forall_mem_cons.1 hv
    have hhead := head?_of_backendOf hpath hbackend
    obtain ⟨first, hfirst, hn, hmem⟩ := exists_backends_ensureBackend l' backend
    obtain ⟨new, hnew, hn', hmem'⟩ := ih hrest hok
    rw [hfirst, List.append_assoc] at hnew
    refine ⟨first ++ new, hnew, ?_, fun b => ?_⟩
    · refine List.nodup_append'.2 ⟨hn, hn', fun b hb hb' => ?_⟩
      have hnot := ((hmem' b).1 hb').1
      rw [hfirst, List.mem_append, not_or] at hnot
      exact hnot.2 hb
    · have hl : l'.backends = l.backends := rfl
      have hstep : (∃ x ∈ (path, value) :: items, x.1.head? = some b) ↔
          b = backend ∨ ∃ x ∈ items, x.1.head? = some b := by
        rw [List.exists_mem_cons_iff, hhead, Option.some.injEq, eq_comm]
      rw [List.mem_append, hmem, hmem', hfirst, List.mem_append, hmem, hl, hstep]
      by_cases hthere : b ∈ l.backends
      · simp [hthere]
      · by_cases heq : b = backend
        · simp [heq]
        · simp [hthere, heq]

/-- Carrying a plan of different settings out extends the location by them. -/
theorem extended_applyAll {time : Instant} {n : Nat}
    {items : List (Path × Value)} {l : Location} (hl : l.HasSoundBackends)
    (hn : (items.map Prod.fst).Nodup) (hv : ∀ x ∈ items, x.1.IsValid)
    (hok : (applyAll l time n items).1 = .ok ()) :
    l.Extended time n items (applyAll l time n items).2 := by
  obtain ⟨done, rest, tree, m, hsplit, hw, hm, hid, hparent, rfl, -, hdone⟩ :=
    applyAll_written l hl time n items hv
  obtain rfl := hdone hok
  rw [List.append_nil] at hsplit
  subst hsplit
  obtain ⟨hitems, hothers⟩ := hw.get?_eq hn
  have hbackends := backends_applyAll hv hok
  rw [hm] at hbackends ⊢
  refine ⟨hid, hparent, ?_, ?_, hothers, hbackends⟩
  · intro x hx hnone
    rw [hitems x hx, hnone]
    rfl
  · intro x hx e he
    rw [hitems x hx, he]
    rfl

/-! ## Rollbacks that are carried out -/

/-- What the writes of a plan end with that a location can take.  All values are
written if their paths lie below backends.  Otherwise the writes end behind the
first one that does not, and the backends are those of the paths in front. -/
theorem applyAll_cases {time : Instant} {n : Nat} {items : List (Path × Value)}
    {l : Location} (hn : (items.map Prod.fst).Nodup)
    (hitems : ∀ x ∈ items, x.1.IsValid ∧ l.tree.Fits x.1 x.2 time) :
    (∀ x ∈ items, 2 ≤ x.1.length) ∧ (applyAll l time n items).1 = .ok () ∨
      ∃ done x rest k, items = done ++ x :: rest ∧
        (∀ y ∈ done, 2 ≤ y.1.length) ∧ x.1.length = 1 ∧
        applyAll l time n done = (.ok (), k) ∧
        applyAll l time n items = (.error (.invalidPath x.1.text), { k with
          tree := k.tree.write x.1 ⟨n, time, x.2, .retire, false⟩ }) := by
  induction items generalizing l with
  | nil => exact Or.inl ⟨by simp, rfl⟩
  | cons item items ih =>
    obtain ⟨path, value⟩ := item
    obtain ⟨⟨hvalid, hfits⟩, hrest⟩ := List.forall_mem_cons.1 hitems
    rw [List.map_cons, List.nodup_cons] at hn
    have htext := Path.ofText?_text_of_isValid hvalid
    have hstore : l.tree.store path.text value time n .retire =
        .ok (l.tree.write path ⟨n, time, value, .retire, false⟩) :=
      store_eq_ok_iff.2 ⟨path, htext, hfits, rfl⟩
    by_cases hdeep : 2 ≤ path.length
    · obtain ⟨backend, hbackend⟩ := Path.exists_backendOf hvalid hdeep
      have hstep (items : List (Path × Value)) :
          applyAll l time n ((path, value) :: items) =
            applyAll (Location.ensureBackend { l with
              tree := l.tree.write path ⟨n, time, value, .retire, false⟩ } backend)
              time n items := by
        rw [applyAll]
        simp only [hstore, hbackend]
      have hitems : ∀ x ∈ items, x.1.IsValid ∧ Fits
          (l.tree.write path ⟨n, time, value, .retire, false⟩) x.1 x.2 time := by
        intro x hx
        obtain ⟨hvalidx, hfitsx⟩ := hrest x hx
        have hmem : x.1 ∈ items.map Prod.fst := List.mem_map_of_mem hx
        have hne : x.1 ≠ path := fun heq => hn.1 (heq ▸ hmem)
        refine ⟨hvalidx, ?_⟩
        intro e he
        rw [get?_write hvalid.1, if_neg hne] at he
        exact hfitsx e he
      rw [hstep]
      rcases ih (l := Location.ensureBackend { l with
          tree := l.tree.write path ⟨n, time, value, .retire, false⟩ } backend)
          hn.2 (by simpa using hitems) with
        ⟨hall, hok⟩ | ⟨done, x, rest, k, rfl, hdone, hx, hk, herror⟩
      · exact Or.inl ⟨List.forall_mem_cons.2 ⟨hdeep, hall⟩, hok⟩
      · exact Or.inr ⟨(path, value) :: done, x, rest, k, rfl,
          List.forall_mem_cons.2 ⟨hdeep, hdone⟩, hx, (hstep done).trans hk, herror⟩
    · -- The write before the refusal stays.
      have hpos : 0 < path.length := List.length_pos_iff.2 hvalid.1
      obtain ⟨s, rfl⟩ := List.length_eq_one_iff.1
        (show path.length = 1 by omega)
      have herror : applyAll l time n (([s], value) :: items) =
          (.error (.invalidPath (Path.text [s])), { l with
            tree := l.tree.write [s] ⟨n, time, value, .retire, false⟩ }) := by
        rw [applyAll]
        simp only [hstore, Path.backendOf_singleton hvalid]
      exact Or.inr ⟨[], ([s], value), items, l, rfl, by simp, rfl, rfl, herror⟩

/-- Values that a location can take, at different paths below backends, are all
written. -/
theorem applyAll_of_fits {time : Instant} {n : Nat}
    {items : List (Path × Value)} {l : Location}
    (hn : (items.map Prod.fst).Nodup)
    (hitems : ∀ x ∈ items, x.1.IsValid ∧ 2 ≤ x.1.length ∧
      l.tree.Fits x.1 x.2 time) : (applyAll l time n items).1 = .ok () := by
  rcases applyAll_cases (n := n) hn fun x hx =>
      ⟨(hitems x hx).1, (hitems x hx).2.2⟩ with
    ⟨-, hok⟩ | ⟨done, x, rest, -, hsplit, -, hx, -⟩
  · exact hok
  · have hdeep := (hitems x (by simp [hsplit])).2.1
    omega

/-- A plan whose values the location can take waits for a number only. -/
theorem prepareRollback_of_fits {id : String} {request : RollbackRequest}
    {plan : RollbackPlan} {l : Location} {now : Instant}
    (hplan : a.plan id request = .ok plan)
    (hl : findLocation? a.locations id = some l)
    (hitems : ∀ x ∈ plan.resolved, x.1.IsValid ∧ l.tree.Fits x.1 x.2 now) :
    a.prepareRollback id request now =
      if plan.resolved.isEmpty then .ok (plan, l, none, a)
      else if a.nextRevision < Numeral.maxWord then
        .ok (plan, l, some a.nextRevision, a.counted)
      else .error .counterExhausted := by
  have hchecks : plan.resolved.forM (fun x =>
      l.tree.checkWrite x.1.text x.2 now) = .ok () := by
    refine forM_of_forall fun x hx => ?_
    obtain ⟨hvalid, hfits⟩ := hitems x hx
    exact checkWrite_eq_ok_iff.2 ⟨x.1, Path.ofText?_text_of_isValid hvalid, hfits⟩
  unfold prepareRollback allocate
  simp only [hplan, location_eq_ok_iff.2 hl, hchecks, bind, Except.bind]
  by_cases hlt : a.nextRevision < Numeral.maxWord
  · simp only [if_pos hlt]
    rfl
  · simp only [if_neg hlt]
    rfl

/-- A plan whose values the location can take is carried out, unless there is no
number for it. -/
theorem rollback_of_fits (ha : a.WellFormed) {id : String}
    {request : RollbackRequest} {plan : RollbackPlan} {l : Location}
    {now : Instant} (hplan : a.plan id request = .ok plan)
    (hl : findLocation? a.locations id = some l)
    (hitems : ∀ x ∈ plan.resolved, 2 ≤ x.1.length ∧ l.tree.Fits x.1 x.2 now) :
    (∃ report b, a.rollback id request now = (.ok report, b)) ∨
      a.rollback id request now = (.error .counterExhausted, a) ∧
        ¬ a.nextRevision < Numeral.maxWord := by
  obtain ⟨hpaths, hn⟩ := paths_of_plan ha.trees hplan
  have hvalid : ∀ x ∈ plan.resolved, x.1.IsValid := fun x hx => (hpaths x hx).1
  unfold rollback
  rw [prepareRollback_of_fits hplan hl
    fun x hx => ⟨hvalid x hx, (hitems x hx).2⟩]
  by_cases hempty : plan.resolved.isEmpty
  · rw [if_pos hempty]
    exact Or.inl ⟨_, _, rfl⟩
  · rw [if_neg hempty]
    by_cases hlt : a.nextRevision < Numeral.maxWord
    · have hok : (applyAll l now a.nextRevision plan.resolved).1 = .ok () :=
        applyAll_of_fits hn fun x hx => ⟨hvalid x hx, hitems x hx⟩
      rw [if_pos hlt]
      cases hr : applyAll l now a.nextRevision plan.resolved with
      | mk answer m =>
        rw [hr] at hok
        obtain rfl : answer = .ok () := hok
        simp only [hr]
        exact Or.inl ⟨_, _, rfl⟩
    · rw [if_neg hlt]
      exact Or.inr ⟨rfl, hlt⟩

end Archive

end SettingsArchive
