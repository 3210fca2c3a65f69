import SettingsArchive.Proofs.Isolation

/-!
# Renaming a location

Locations are linked by their ids, and every inherited value is found by following
links.  A location that is renamed keeps its place among the others if its new id
is in use nowhere and every link leads to a location that is there.  Both are so in
a reachable archive, and then all that can be read is as before, under the new id.

The first lemmas are about any change of ids that keeps different ones apart.
`renamed_of_reachable` is about renaming.
-/

namespace SettingsArchive

/-! ## Chains of locations with other ids -/

section Relabel

variable {locations : List Location} {f : String → String}
  {g : Location → Location} (hid : ∀ l ∈ locations, (g l).id = f l.id)

include hid

/-- Under its new id the location is found that was found under the old one. -/
theorem findLocation?_relabel {id : String}
    (hinj : ∀ l ∈ locations, f l.id = f id → l.id = id) :
    findLocation? (locations.map g) (f id) =
      (findLocation? locations id).map g := by
  induction locations with
  | nil => rfl
  | cons l ls ih =>
    obtain ⟨hl, hls⟩ := List.forall_mem_cons.1 hid
    obtain ⟨hfirst, hrest⟩ := List.forall_mem_cons.1 hinj
    have hiff : (f l.id == f id) = (l.id == id) := by
      rw [Bool.eq_iff_iff, beq_iff_eq, beq_iff_eq]
      exact ⟨hfirst, congrArg f⟩
    unfold findLocation? at ih ⊢
    rw [List.map_cons, List.find?_cons, List.find?_cons, hl, hiff]
    split
    · rfl
    · exact ih hls hrest

/-- Where the links follow the ids, a chain goes through the same locations. -/
theorem chainFrom_relabel
    (hparent : ∀ l ∈ locations, (g l).parent = l.parent.map f)
    (hinj : ∀ l ∈ locations, ∀ m ∈ locations, f l.id = f m.id → l.id = m.id)
    {start start' : String} {steps : Nat} {l : Location} {chain : List Location}
    (hl : l ∈ locations) (h : chainFrom locations start steps l = .ok chain) :
    chainFrom (locations.map g) start' steps (g l) = .ok (chain.map g) := by
  induction steps generalizing l chain with
  | zero =>
    cases hp : l.parent with
    | none =>
      rw [chainFrom_of_none hp] at h
      obtain rfl := Except.ok.inj h
      exact chainFrom_of_none (by rw [hparent l hl, hp]; rfl) _
    | some parent =>
      rw [chainFrom_zero hp] at h
      cases h
  | succ steps ih =>
    cases hp : l.parent with
    | none =>
      rw [chainFrom_of_none hp] at h
      obtain rfl := Except.ok.inj h
      exact chainFrom_of_none (by rw [hparent l hl, hp]; rfl) _
    | some parent =>
      rw [chainFrom_succ hp] at h
      split at h
      · cases h
      · rename_i p hfind
        obtain ⟨above, habove, rfl⟩ := map_eq_ok h
        obtain ⟨hpl, rfl⟩ := mem_of_findLocation? hfind
        have hp' : (g l).parent = some (f p.id) := by
          rw [hparent l hl, hp]
          rfl
        rw [chainFrom_succ hp',
          findLocation?_relabel hid fun m hm => hinj m hm p hpl, hfind]
        simp only [Option.map_some]
        rw [ih hpl habove]
        rfl

end Relabel

namespace Archive

variable {a b : Archive} {id newId : String}

/-! ## Reads of renamed locations -/

theorem pathsIn_relinked (scopes : List Location) (backend : Option String) :
    pathsIn (scopes.map (relinked id newId)) backend =
      pathsIn scopes backend := by
  unfold pathsIn
  rw [List.flatMap_map]
  rfl

theorem entriesAt_relinked (scopes : List Location) (path : Path) :
    entriesAt (scopes.map (relinked id newId)) path = entriesAt scopes path := by
  unfold entriesAt
  rw [List.filterMap_map]
  rfl

/-- An entry that is seen is seen in the same location, under its new id. -/
theorem history_relinked {x : String} {chain : List Location}
    (ha : a.ancestors x = .ok chain)
    (hb : b.ancestors (renamed id newId x) =
      .ok (chain.map (relinked id newId))) (path : String) :
    b.history (renamed id newId x) path =
      (a.history x path).map
        (Option.map fun found => (renamed id newId found.1, found.2)) := by
  unfold history
  cases Path.ofText? path with
  | none => rfl
  | some segments =>
    have hseen : (chain.map (relinked id newId)).findSome?
          (fun l => (l.tree.get? segments).map (l.id, ·)) =
        (chain.findSome? fun l => (l.tree.get? segments).map (l.id, ·)).map
          fun found => (renamed id newId found.1, found.2) := by
      rw [List.findSome?_map, List.map_findSome?]
      congr 1
      funext l
      simp [relinked, Function.comp_def]
    simp only [ha, hb, bind, Except.bind, pure, Except.pure, hseen]
    rfl

theorem get_relinked {x path : String}
    (h : b.history (renamed id newId x) path = (a.history x path).map
      (Option.map fun found => (renamed id newId found.1, found.2))) :
    b.get (renamed id newId x) path = a.get x path := by
  unfold get
  rw [h]
  cases a.history x path with
  | error e => rfl
  | ok found => cases found <;> rfl

theorem snapshot_relinked {x : String} {l : Location} {chain : List Location}
    (ha : a.ancestors x = .ok chain)
    (hb : b.ancestors (renamed id newId x) =
      .ok (chain.map (relinked id newId)))
    (hl : a.location x = .ok l)
    (hm : b.location (renamed id newId x) = .ok (relinked id newId l))
    (backend : Option String) (recursive : Bool) :
    b.snapshot (renamed id newId x) backend recursive =
      a.snapshot x backend recursive := by
  obtain ⟨scopes, hscopes, hrenamed⟩ : ∃ scopes,
      a.scopes x recursive = .ok scopes ∧
      b.scopes (renamed id newId x) recursive =
        .ok (scopes.map (relinked id newId)) := by
    cases recursive with
    | true => exact ⟨chain, ha, hb⟩
    | false => exact ⟨[l], scopes_of_location hl, scopes_of_location hm⟩
  unfold snapshot
  simp only [hscopes, hrenamed, bind, Except.bind, pathsIn_relinked,
    entriesAt_relinked]

/-! ## Renaming -/

/-- What renaming does where it is not refused. -/
theorem rename_eq_ok (proper : id ≠ defaultId) (valid : Location.isValidId newId)
    (there : a.hasLocation id) (new : ¬ a.hasLocation newId) :
    a.rename id newId = .ok { a with
      locations := a.locations.map (relinked id newId)
      current := renamed id newId a.current }.changed := by
  obtain ⟨l, hl⟩ := hasLocation_iff.1 there
  simp only [rename, if_neg proper, valid, location_eq_ok_iff.2 hl, new, bind,
    Except.bind, pure, Except.pure]
  rfl

section Renamed

variable (ha : a.WellFormed) (hf : a.IsForest) (hnew : ¬ a.hasLocation newId)

include hnew

theorem ne_of_hasLocation {x : String} (hx : a.hasLocation x) : x ≠ newId :=
  fun heq => hnew (heq ▸ hx)

theorem id_ne_of_mem {l : Location} (hl : l ∈ a.locations) : l.id ≠ newId :=
  ne_of_hasLocation hnew (hasLocation_iff_mem.2 (List.mem_map_of_mem hl))

section Reads

variable (hb : b.locations = a.locations.map (relinked id newId))

include hb

theorem location_relinked {x : String} (hx : a.hasLocation x) {l : Location}
    (hl : a.location x = .ok l) :
    b.location (renamed id newId x) = .ok (relinked id newId l) := by
  have hid : ∀ l ∈ a.locations,
      (relinked id newId l).id = renamed id newId l.id := fun _ _ => rfl
  rw [location_eq_ok_iff, hb, findLocation?_relabel hid fun m hm =>
    renamed_inj (id_ne_of_mem hnew hm) (ne_of_hasLocation hnew hx),
    location_eq_ok_iff.1 hl, Option.map_some]

theorem ancestors_relinked {x : String} {chain : List Location}
    (hchain : a.ancestors x = .ok chain) :
    b.ancestors (renamed id newId x) = .ok (chain.map (relinked id newId)) := by
  unfold ancestors SettingsArchive.chain at hchain
  split at hchain
  · cases hchain
  · rename_i l hfind
    have hl := (mem_of_findLocation? hfind).1
    have hm := location_relinked hnew hb (hasLocation_iff.2 ⟨l, hfind⟩)
      (location_eq_ok_iff.2 hfind)
    unfold ancestors SettingsArchive.chain
    rw [location_eq_ok_iff.1 hm, hb, List.length_map]
    exact chainFrom_relabel (fun _ _ => rfl) (fun _ _ => rfl)
      (fun k hk m hm =>
        renamed_inj (id_ne_of_mem hnew hk) (id_ne_of_mem hnew hm)) hl hchain

include ha hf in
theorem children_relinked {x : String} (hx : a.hasLocation x) :
    b.children (renamed id newId x) =
      (a.children x).map (relinked id newId) := by
  unfold children
  rw [hb, List.filter_map]
  refine congrArg (List.map _) (List.filter_congr fun l hl => ?_)
  show (l.parent.map (renamed id newId) == some (renamed id newId x)) =
    (l.parent == some x)
  cases hp : l.parent with
  | none => rfl
  | some parent =>
    have hparent := ne_of_hasLocation hnew (hf.hasLocation_parent ha hl hp)
    rw [Option.map_some, Bool.eq_iff_iff, beq_iff_eq, beq_iff_eq,
      Option.some_inj, Option.some_inj]
    exact ⟨renamed_inj hparent (ne_of_hasLocation hnew hx), congrArg _⟩

end Reads

theorem renamed_renamed {x : String} (hx : a.hasLocation x) :
    renamed newId id (renamed id newId x) = x := by
  have hne := ne_of_hasLocation hnew hx
  unfold renamed
  by_cases h : x = id
  · simp [h]
  · simp [h, hne]

include ha hf in
/-- Renaming back restores every location with its link. -/
theorem map_relinked_relinked :
    (a.locations.map (relinked id newId)).map (relinked newId id) =
      a.locations := by
  rw [List.map_map]
  refine (List.map_congr_left fun l hl => ?_).trans (List.map_id a.locations)
  have hid : renamed newId id (renamed id newId l.id) = l.id :=
    renamed_renamed hnew (hasLocation_iff_mem.2 (List.mem_map_of_mem hl))
  have hparent : (l.parent.map (renamed id newId)).map (renamed newId id) =
      l.parent := by
    cases hp : l.parent with
    | none => rfl
    | some parent =>
      rw [Option.map_some, Option.map_some,
        renamed_renamed hnew (hf.hasLocation_parent ha hl hp)]
  show Location.mk (renamed newId id (renamed id newId l.id))
    ((l.parent.map (renamed id newId)).map (renamed newId id)) l.tree l.backends =
    l
  rw [hid, hparent]

include ha hf in
/-- Renaming back restores the archive. -/
theorem rename_back (there : a.hasLocation id) (valid : Location.isValidId id) :
    Archive.rename { a with
        locations := a.locations.map (relinked id newId)
        current := renamed id newId a.current }.changed newId id =
      .ok a.changed := by
  have hdefault : a.hasLocation defaultId :=
    hasLocation_iff_link.2 ⟨none, hf.default⟩
  generalize hb : Archive.changed { a with
    locations := a.locations.map (relinked id newId)
    current := renamed id newId a.current } = b
  have hlocations : b.locations = a.locations.map (relinked id newId) := hb ▸ rfl
  have hthere : b.hasLocation newId := by
    obtain ⟨l, hfind⟩ := hasLocation_iff.1 there
    have hm := location_relinked hnew hlocations there (location_eq_ok_iff.2 hfind)
    rw [renamed, if_pos rfl] at hm
    exact hasLocation_iff.2 ⟨_, location_eq_ok_iff.1 hm⟩
  have hfree : ¬ b.hasLocation id := by
    intro hid
    rw [hasLocation_iff_mem, hlocations, List.map_map] at hid
    obtain ⟨l, hl, heq⟩ := List.mem_map.1 hid
    have heq : renamed id newId l.id = id := heq
    unfold renamed at heq
    split at heq
    · exact ne_of_hasLocation hnew there heq.symm
    · rename_i hne
      exact hne heq
  rw [rename_eq_ok (Ne.symm (ne_of_hasLocation hnew hdefault)) valid hthere hfree,
    hlocations, map_relinked_relinked ha hf hnew, ← hb]
  show Except.ok (Archive.changed { a with
    current := renamed newId id (renamed id newId a.current) }) = _
  rw [renamed_renamed hnew hf.current]

end Renamed

/-- A location that was renamed can be read as before, under its new id, and so
can all others: what is found at a path, and in which location, the snapshots, the
locations above and the locations below.  Renaming it back, if its old id is one
that a location may be given, restores the archive.  Where renaming is refused,
nothing has changed. -/
theorem renamed_of_reachable {allowed : Operation → Prop}
    (h : Reachable allowed a) (id newId : String) :
    (∀ b, a.rename id newId = .ok b →
      b.current = renamed id newId a.current ∧
      (∀ x, a.hasLocation x →
        (∀ path, b.get (renamed id newId x) path = a.get x path ∧
          b.history (renamed id newId x) path = (a.history x path).map
            (Option.map fun found => (renamed id newId found.1, found.2))) ∧
        (∀ backend recursive,
          b.snapshot (renamed id newId x) backend recursive =
            a.snapshot x backend recursive) ∧
        b.ancestors (renamed id newId x) =
          (a.ancestors x).map (List.map (relinked id newId)) ∧
        b.children (renamed id newId x) =
          (a.children x).map (relinked id newId)) ∧
      (Location.isValidId id → b.rename newId id = .ok a.changed)) ∧
    ∀ e, a.rename id newId = .error e → a.perform (.rename id newId) = a := by
  have ha := h.wellFormed
  have hf := h.isForest
  constructor
  · intro b hrename
    obtain ⟨-, -, there, hnew, rfl⟩ := of_rename hrename
    refine ⟨rfl, ?_, rename_back ha hf hnew there⟩
    intro x hx
    obtain ⟨l, hfind⟩ := hasLocation_iff.1 hx
    obtain ⟨hmem, rfl⟩ := mem_of_findLocation? hfind
    obtain ⟨above, hchain, -⟩ := hf.ancestors_eq_ok ha hmem
    have hl := location_eq_ok_iff.2 hfind
    generalize hb : Archive.changed _ = b
    have hlocations : b.locations = a.locations.map (relinked id newId) :=
      hb ▸ rfl
    have hchain' := ancestors_relinked hnew hlocations hchain
    have hhistory := history_relinked hchain hchain'
    refine ⟨fun path => ⟨get_relinked (hhistory path), hhistory path⟩,
      snapshot_relinked hchain hchain' hl (location_relinked hnew hlocations hx hl),
      ?_, children_relinked ha hf hnew hlocations hx⟩
    rw [hchain, hchain']
    rfl
  · intro e he
    show a.orElse (a.rename id newId) = a
    rw [he]
    rfl

/-- The current location is renamed between the one that it inherits from and one
that inherits from it, and then renamed back. -/
theorem renamed_of_inherited_setting :
    let a := fresh.run [.newLocation "team" (some "default"),
      .newLocation "desk" (some "team"),
      .storeValue "team" "/app/size" (.int 1) (.ofSecond 5) .keep,
      .storeValue "default" "/app/mode" (.int 2) (.ofSecond 5) .keep,
      .setCurrent "team"]
    ∃ b, a.rename "team" "lab" = .ok b ∧ b.current = "lab" ∧
      (b.get "desk" "/app/size").toOption == some (some (.int 1)) ∧
      (b.history "desk" "/app/size").toOption.bind (·.map Prod.fst) =
        some "lab" ∧
      (b.ancestors "desk").toOption.map (·.map Location.id) =
        some ["desk", "lab", "default"] ∧
      (b.children "lab").map (fun l => (l.id, l.parent)) =
        [("desk", some "lab")] ∧
      b.rename "lab" "team" = .ok a.changed := by
  intro a
  have h : Reachable (fun _ => True) a := reachable_run .fresh _
  have hrename : a.rename "team" "lab" = .ok _ :=
    rename_eq_ok (by decide) (by decide) (by decide +kernel) (by decide +kernel)
  obtain ⟨hrenamed, -⟩ := renamed_of_reachable h "team" "lab"
  obtain ⟨hcurrent, hreads, hback⟩ := hrenamed _ hrename
  obtain ⟨hpaths, -, hancestors, -⟩ := hreads "desk" (by decide +kernel)
  obtain ⟨hget, hhistory⟩ := hpaths "/app/size"
  obtain ⟨-, -, -, hchildren⟩ := hreads "team" (by decide +kernel)
  have hdesk : renamed "team" "lab" "desk" = "desk" := by decide
  have hteam : renamed "team" "lab" "team" = "lab" := by decide
  rw [hdesk] at hget hhistory hancestors
  rw [hteam] at hchildren
  refine ⟨_, hrename, hcurrent.trans (by decide +kernel), ?_, ?_, ?_, ?_,
    hback (by decide)⟩
  · rw [hget]
    decide +kernel
  · rw [hhistory]
    decide +kernel
  · rw [hancestors]
    decide +kernel
  · rw [hchildren]
    decide +kernel

end Archive

end SettingsArchive
