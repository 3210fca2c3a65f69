import SettingsArchive.Proofs.Preview
import SettingsArchive.Proofs.Snapshot.Reading

/-!
# What a snapshot shows

A snapshot is made of what is seen in the locations that are looked into, and
`Archive.Shows` says the same by single reads: a snapshot with the locations
above shows what is read at the location, and one without them shows what the
location holds (`shows_iff`).

`snapshot_of_reachable` has both directions.  The settings that are read off a
snapshot are those that it shows, each once, and archives that show the same
settings have the same snapshot.
-/

namespace SettingsArchive.Archive

open Directory

/-- The snapshot of a location shows a setting, if it is below the backend and
is read at the location, or if the location itself holds it.  The value is the
one that documents have in its place. -/
def Shows (a : Archive) (id : String) (backend : Option String)
    (recursive : Bool) (path : Path) (value : Value) : Prop :=
  path.IsValid ∧ path.IsBelow backend ∧ ∃ v, v.canonical = value ∧
    if recursive then a.get id path.text = .ok (some v)
    else ∃ l e, a.location id = .ok l ∧ l.lookup path.text = some e ∧
      e.current = v

variable {a b : Archive}

/-- What is seen in one location is what it holds. -/
theorem seen_singleton_iff {l : Location} {x : Path × Value} :
    Seen [l] x ↔ ∃ e, l.tree.get? x.1 = some e ∧ e.current = x.2 := by
  have hhead : (entriesAt [l] x.1).head? = l.tree.get? x.1 := by
    rw [entriesAt, List.filterMap_cons]
    cases l.tree.get? x.1 with
    | none => rfl
    | some e => rfl
  constructor
  · rintro ⟨e, he, hvalue⟩
    exact ⟨e, hhead ▸ he, hvalue.symm⟩
  · rintro ⟨e, he, hvalue⟩
    exact ⟨e, hhead.trans he, hvalue.symm⟩

/-- What is seen in the locations that are looked into is what single reads
give. -/
theorem seen_iff {id : String} {recursive : Bool} {scopes : List Location}
    (h : a.scopes id recursive = .ok scopes) {path : Path} (hv : path.IsValid)
    {value : Value} :
    Seen scopes (path, value) ↔
      if recursive then a.get id path.text = .ok (some value)
      else ∃ l e, a.location id = .ok l ∧ l.lookup path.text = some e ∧
        e.current = value := by
  cases recursive with
  | true =>
    have h : a.ancestors id = .ok scopes := h
    rw [if_pos rfl, get_eq h hv, Except.ok.injEq, Option.map_eq_some_iff]
    constructor
    · rintro ⟨e, he, hvalue⟩
      exact ⟨e, he, hvalue.symm⟩
    · rintro ⟨e, he, hvalue⟩
      exact ⟨e, he, hvalue.symm⟩
  | false =>
    obtain ⟨l, hl, h⟩ := bind_eq_ok h
    obtain rfl := Except.ok.inj h
    have hlookup : l.lookup path.text = l.tree.get? path := by
      rw [Location.lookup, Path.ofText?_text_of_isValid hv, Option.bind_some]
    rw [if_neg Bool.false_ne_true, seen_singleton_iff]
    constructor
    · rintro ⟨e, he, hvalue⟩
      exact ⟨l, e, hl, hlookup.trans he, hvalue⟩
    · rintro ⟨m, e, hm, he, hvalue⟩
      obtain rfl := Except.ok.inj (hm.symm.trans hl)
      exact ⟨e, hlookup.symm.trans he, hvalue⟩

/-- No path is seen twice. -/
theorem nodup_paths_visible (scopes : List Location) (backend : Option String) :
    ((visible scopes backend).map Prod.fst).Nodup := by
  rw [visible, List.map_filterMap]
  apply (nodup_pathsIn scopes backend).filterMap
  have heq : ∀ p x, x ∈ ((entriesAt scopes p).head?.map
      fun e => (p, e.current)).map Prod.fst → p = x := by
    intro p x hx
    obtain ⟨y, hy, rfl⟩ := Option.map_eq_some_iff.1 hx
    obtain ⟨e, -, rfl⟩ := Option.map_eq_some_iff.1 hy
    rfl
  intro p q x hp hq
  rw [heq p x hp, heq q x hq]

section Shows

variable {scopes : List Location} (hs : ∀ l ∈ scopes, l.tree.Sound)
  {backend : Option String}
  (hb : ∀ b, backend = some b → Location.isValidBackend b)

include hs

theorem isValid_of_seen {x : Path × Value} (h : Seen scopes x) :
    x.1.IsValid := by
  obtain ⟨e, he, -⟩ := h
  obtain ⟨l, hl, hget⟩ := List.mem_filterMap.1 (List.mem_of_mem_head? he)
  exact (hs l hl).isValid_of_get? hget

include hb

/-- A snapshot shows the settings that it is made of. -/
theorem shows_iff {id : String} {recursive : Bool}
    (h : a.scopes id recursive = .ok scopes) {path : Path} {value : Value} :
    a.Shows id backend recursive path value ↔
      (path, value) ∈ Snapshot.canonical (visible scopes backend) := by
  rw [Snapshot.canonical, List.mem_map]
  constructor
  · rintro ⟨hv, hbelow, v, rfl, hread⟩
    have hseen : Seen scopes (path, v) := (seen_iff h hv).2 hread
    exact ⟨(path, v), (mem_visible_iff hs hb).2 ⟨hseen, hbelow⟩, rfl⟩
  · rintro ⟨⟨p, v⟩, hmem, heq⟩
    obtain ⟨rfl, rfl⟩ := Prod.mk.inj heq
    obtain ⟨hseen, hbelow⟩ := (mem_visible_iff hs hb).1 hmem
    have hv : p.IsValid := isValid_of_seen hs hseen
    exact ⟨hv, hbelow, v, rfl, (seen_iff h hv).1 hseen⟩

end Shows

/-- The snapshot of a location of a reachable archive is read off what is seen
in sound trees. -/
theorem Reachable.exists_scopes {allowed : Operation → Prop}
    (h : Reachable allowed a) {id : String} (hl : a.hasLocation id)
    (recursive : Bool) :
    ∃ scopes, a.scopes id recursive = .ok scopes ∧
      ∀ l ∈ scopes, l.tree.Sound := by
  obtain ⟨l, hl⟩ := hasLocation_iff.1 hl
  obtain ⟨hmem, rfl⟩ := mem_of_findLocation? hl
  have hscopes : ∃ scopes, a.scopes l.id recursive = .ok scopes := by
    cases recursive with
    | true =>
      obtain ⟨above, hchain, -⟩ := h.isForest.ancestors_eq_ok h.wellFormed hmem
      exact ⟨l :: above, hchain⟩
    | false => exact ⟨[l], scopes_of_location (location_eq_ok_iff.2 hl)⟩
  obtain ⟨scopes, hscopes⟩ := hscopes
  obtain ⟨-, -, -, -, hthere⟩ := of_scopes hscopes
  exact ⟨scopes, hscopes, fun m hm => (h.wellFormed.sound m (hthere m hm)).tree⟩

/-- What is seen in two lists of locations is shown by one snapshot, if it is
the same. -/
theorem toElement_visible_congr {scopes others : List Location}
    {backend : Option String} (hs : ∀ l ∈ scopes, l.tree.Sound)
    (hb : ∀ b, backend = some b → Location.isValidBackend b)
    (h : ∀ x, x ∈ Snapshot.canonical (visible others backend) ↔
      x ∈ Snapshot.canonical (visible scopes backend)) :
    Snapshot.toElement backend (Snapshot.named (visible others backend)) =
      Snapshot.toElement backend (Snapshot.named (visible scopes backend)) := by
  have hn (ls : List Location) :
      ((Snapshot.canonical (visible ls backend)).map Prod.fst).Nodup := by
    rw [Snapshot.canonical, List.map_map]
    exact nodup_paths_visible ls backend
  have hperm : (Snapshot.canonical (visible scopes backend)).Perm
      (Snapshot.canonical (visible others backend)) :=
    (List.perm_ext_iff_of_nodup (hn scopes).of_map (hn others).of_map).2
      fun x => (h x).symm
  have hnamed (ls : List Location) :
      Snapshot.toElement backend (Snapshot.named (visible ls backend)) =
        Snapshot.toElement backend
          (Snapshot.named (Snapshot.canonical (visible ls backend))) := by
    rw [← Snapshot.toElement_canonical, Snapshot.canonical, Snapshot.named,
      Snapshot.named, Snapshot.canonical, List.map_map, List.map_map]
    rfl
  have hplaces : ∀ x ∈ Snapshot.canonical (visible scopes backend),
      x.1.IsValid ∧ x.1.IsBelow backend := by
    intro x hx
    obtain ⟨y, hy, rfl⟩ := List.mem_map.1 hx
    obtain ⟨hseen, hbelow⟩ := (mem_visible_iff hs hb).1 hy
    have hv : y.1.IsValid := isValid_of_seen hs hseen
    exact ⟨hv, hbelow⟩
  rw [hnamed others, hnamed scopes]
  exact (Snapshot.toElement_congr (hperm.map _) (Snapshot.nodup_placed
    (fun x hx => (hplaces x hx).1) (fun x hx => (hplaces x hx).2)
    (hn scopes))).symm

/-- A snapshot of a reachable archive reads back as the settings that are read
at the location, or that it holds itself, each once.  It is the snapshot of
every archive and location that show the same settings. -/
theorem snapshot_of_reachable {allowed : Operation → Prop}
    (h : Reachable allowed a) {id : String} (hl : a.hasLocation id)
    {backend : Option String}
    (hb : ∀ b, backend = some b → Location.isValidBackend b)
    (recursive : Bool) :
    ∃ shown items, a.snapshot id backend recursive = .ok shown ∧
      shown.name = "config" ∧
      shown.attributes = backend.toList.map ("backend", ·) ∧
      Snapshot.readChildren (Snapshot.aboveOf backend) shown.children =
        .ok items ∧
      (items.map Prod.fst).Nodup ∧
      (∀ t value, (t, value) ∈ items ↔
        ∃ path, t = path.text ∧ a.Shows id backend recursive path value) ∧
      ∀ b, Reachable (fun _ => True) b → ∀ other, b.hasLocation other →
        ∀ recursive', (∀ path value,
          b.Shows other backend recursive' path value ↔
            a.Shows id backend recursive path value) →
          b.snapshot other backend recursive' = .ok shown := by
  obtain ⟨scopes, hscopes, hs⟩ := h.exists_scopes hl recursive
  have hmem : ∀ x ∈ visible scopes backend,
      Seen scopes x ∧ x.1.IsBelow backend :=
    fun x hx => (mem_visible_iff hs hb).1 hx
  have hvalid : ∀ x ∈ visible scopes backend, x.1.IsValid :=
    fun x hx => isValid_of_seen hs (hmem x hx).1
  obtain ⟨items, hitems, hperm⟩ := Snapshot.readChildren_toElement hvalid
    fun x hx => (hmem x hx).2
  refine ⟨_, items, snapshot_eq hscopes, rfl, ?_, hitems, ?_, ?_, ?_⟩
  · cases backend with
    | none => rfl
    | some b => rfl
  · rw [(hperm.map Prod.fst).nodup_iff, List.map_map]
    have htexts : (visible scopes backend).map
        (Prod.fst ∘ fun x => (x.1.text, x.2.canonical)) =
          ((visible scopes backend).map Prod.fst).map Path.text := by
      rw [List.map_map]
      rfl
    rw [htexts]
    refine (nodup_paths_visible scopes backend).map_on ?_
    intro p hp q hq heq
    obtain ⟨x, hx, rfl⟩ := List.mem_map.1 hp
    obtain ⟨y, hy, rfl⟩ := List.mem_map.1 hq
    exact Path.text_injective (hvalid x hx) (hvalid y hy) heq
  · intro t value
    rw [hperm.mem_iff, List.mem_map]
    constructor
    · rintro ⟨x, hx, heq⟩
      obtain ⟨rfl, rfl⟩ := Prod.mk.inj heq
      exact ⟨x.1, rfl, (shows_iff hs hb hscopes).2 (List.mem_map_of_mem hx)⟩
    · rintro ⟨path, rfl, hshows⟩
      obtain ⟨x, hx, heq⟩ := List.mem_map.1 ((shows_iff hs hb hscopes).1 hshows)
      obtain ⟨rfl, rfl⟩ := Prod.mk.inj heq
      exact ⟨x, hx, rfl⟩
  · intro b hreachable other hother recursive' hsame
    obtain ⟨others, hothers, hsound⟩ := hreachable.exists_scopes hother recursive'
    rw [snapshot_eq hothers]
    refine congrArg Except.ok (toElement_visible_congr hs hb fun x => ?_)
    rw [← shows_iff hsound hb hothers, ← shows_iff hs hb hscopes]
    exact hsame x.1 x.2

/-- Settings of two locations, one of them beside a directory of its name, have
the snapshot that they have in one location. -/
theorem snapshot_of_inherited_setting :
    let a := fresh.run [.newLocation "desk" (some "default"),
      .storeValue "default" "/app/size" (.int 1) (.ofSecond 5) .keep,
      .storeValue "desk" "/app/size/unit" (.int 2) (.ofSecond 6) .keep]
    let b := fresh.run [
      .storeValue "default" "/app/size/unit" (.int 7) (.ofSecond 3) .keep,
      .storeValue "default" "/app/size/unit" (.int 2) (.ofSecond 4) .retire,
      .storeValue "default" "/app/size" (.int 1) (.ofSecond 4) .keep]
    ∃ shown items, a.snapshot "desk" (some "app") true = .ok shown ∧
      Snapshot.readChildren "/app" shown.children = .ok items ∧
      ("/app/size/unit", .int 2) ∈ items ∧
      b.snapshot "default" (some "app") false = .ok shown := by
  intro a b
  have ha : Reachable (fun _ => True) a := reachable_run .fresh _
  have hb : Reachable (fun _ => True) b := reachable_run .fresh _
  have happ : ∀ backend, some "app" = some backend →
      Location.isValidBackend backend := by
    rintro _ ⟨⟩
    decide
  have hdesk : a.hasLocation "desk" := by decide +kernel
  have hdefault : b.hasLocation "default" := by decide +kernel
  obtain ⟨shown, items, hshown, -, -, hitems, -, hmem, hsame⟩ :=
    snapshot_of_reachable ha hdesk happ true
  obtain ⟨scopes, hscopes, hs⟩ := ha.exists_scopes hdesk true
  obtain ⟨others, hothers, hsound⟩ := hb.exists_scopes hdefault false
  have hvisible : ∃ scopes, a.scopes "desk" true = .ok scopes ∧
      visible scopes (some "app") =
        [(["app", "size", "unit"], .int 2), (["app", "size"], .int 1)] := by
    refine ⟨_, rfl, ?_⟩
    rw [visible, show pathsIn _ (some "app") =
      [["app", "size", "unit"], ["app", "size"]] by decide +kernel]
    rfl
  have hvisible' : ∃ others, b.scopes "default" false = .ok others ∧
      visible others (some "app") =
        [(["app", "size"], .int 1), (["app", "size", "unit"], .int 2)] := by
    refine ⟨_, rfl, ?_⟩
    rw [visible, show pathsIn _ (some "app") =
      [["app", "size"], ["app", "size", "unit"]] by decide +kernel]
    rfl
  obtain ⟨_, hscopes', hvisible⟩ := hvisible
  obtain ⟨_, hothers', hvisible'⟩ := hvisible'
  obtain rfl := Except.ok.inj (hscopes'.symm.trans hscopes)
  obtain rfl := Except.ok.inj (hothers'.symm.trans hothers)
  refine ⟨shown, items, hshown, hitems, ?_, ?_⟩
  · refine (hmem _ _).2 ⟨["app", "size", "unit"], rfl, ?_⟩
    rw [shows_iff hs happ hscopes, hvisible]
    exact List.mem_cons_self
  · refine hsame b hb "default" hdefault false fun path value => ?_
    rw [shows_iff hs happ hscopes, shows_iff hsound happ hothers, hvisible,
      hvisible', Snapshot.canonical, Snapshot.canonical]
    exact (List.Perm.swap _ _ _).mem_iff

end SettingsArchive.Archive
