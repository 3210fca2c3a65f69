import SettingsArchive.Proofs.Writing

/-!
# Steps

Whatever an operation does, it does one of a few things to an archive, and
`Archive.Step` lists them: it edits locations one by one, adds, links, renames
or removes a location, or reads its own text again.  `step_perform` says that
every operation takes such a step from a well-formed archive, carried out or
not.

An invariant of archives is then proved from the cases of `Step`, without a
look at the operations.  For an invariant of trees `Step.forall_tree` leaves
the edits and the texts only.  The first invariant is well-formedness itself.

Writes are edits: `Step.of_write` takes them over from `Archive.Write` with
their places and, where each path is spelled in one way, their different paths.
-/

namespace SettingsArchive

open Directory

/-! ## Edits -/

/-- What an operation does to one tree.  Only an operation with an instant
writes, and it writes at that instant.  Writes take a number from the first one
on and leave a larger one to the next operation. -/
inductive Directory.Edit (anchored : Prop) (time? : Option Instant)
    (places : Path → Prop) (next next' : Nat) : Directory → Directory → Prop where
  | refl (d : Directory) : Edit anchored time? places next next' d d
  | erase (path : Path) (d : Directory) :
      Edit anchored time? places next next' d (d.erase path)
  | trim (kept : Nat) (d : Directory) :
      Edit anchored time? places next next' d (d.trim kept)
  | prune (d : Directory) : Edit anchored time? places next next' d d.prune
  | write {time : Instant} {mask : Mask} {items : List (Path × Value)}
      {d d' : Directory} (written : Written time next mask items d d')
      (dated : time? = some time) (counted : next < next')
      (placed : ∀ path ∈ items.map Prod.fst, places path)
      (distinct : anchored → (items.map Prod.fst).Nodup) :
      Edit anchored time? places next next' d d'

namespace Location

/-- What an operation does to one location that keeps its links. -/
structure Edited (anchored : Prop) (time? : Option Instant)
    (places : Path → Prop) (next next' : Nat) (l m : Location) : Prop where
  id : m.id = l.id
  parent : m.parent = l.parent
  tree : Directory.Edit anchored time? places next next' l.tree m.tree
  backends : l.HasSoundBackends → m.HasSoundBackends

theorem Edited.refl {anchored : Prop} {time? : Option Instant}
    {places : Path → Prop} {next next' : Nat} (l : Location) :
    l.Edited anchored time? places next next' l :=
  ⟨rfl, rfl, .refl _, fun h => h⟩

end Location

namespace Archive

/-- The backends that are registered archive-wide are valid and none is there
twice. -/
def HasSoundMasters (a : Archive) : Prop :=
  a.masters.Nodup ∧ ∀ b ∈ a.masters, Location.isValidBackend b

/-- One step of an archive, at an instant if the operation has one. -/
inductive Step (anchored : Prop) (time? : Option Instant) (a : Archive) :
    Archive → Prop where
  | edit {b : Archive}
      (locations : List.Forall₂ (Location.Edited anchored time? a.HasPlace
        a.nextRevision b.nextRevision) a.locations b.locations)
      (current : b.current = a.current ∨ b.hasLocation b.current)
      (masters : a.HasSoundMasters → b.HasSoundMasters)
      (counter : b.nextRevision = a.nextRevision ∨
        time?.isSome ∧ a.nextRevision < Numeral.maxWord ∧
          b.nextRevision = a.nextRevision + 1) : Step anchored time? a b
  | add {id : String} {parent : Option String}
      (valid : Location.isValidId id) (new : ¬ a.hasLocation id)
      (there : ∀ p, parent = some p → a.hasLocation p) :
      Step anchored time? a { a with
        locations := a.locations ++ [({ id, parent } : Location)] }.changed
  | link {id : String} {l : Location} {parent : Option String}
      (proper : id ≠ defaultId) (found : findLocation? a.locations id = some l)
      (allowed : ∀ p, parent = some p → a.checkParent id p = .ok ()) :
      Step anchored time? a (a.put { l with parent }).changed
  | rename {id newId : String} (proper : id ≠ defaultId)
      (valid : Location.isValidId newId) (there : a.hasLocation id)
      (new : ¬ a.hasLocation newId) :
      Step anchored time? a { a with
        locations := a.locations.map (relinked id newId)
        current := renamed id newId a.current }.changed
  | remove {id : String} (proper : id ≠ defaultId) (unused : a.current ≠ id)
      (childless : ∀ l ∈ a.locations, l.parent ≠ some id) :
      Step anchored time? a { a with locations := without a.locations id }.changed
  | read {b : Archive} (own : ofText a.text = .ok b) (policy : Policy) :
      Step anchored time? a { b with policy }

variable {a b : Archive} {anchored : Prop} {time? : Option Instant}

/-! ## Putting a location in place -/

theorem hasLocation_iff_mem {id : String} :
    a.hasLocation id ↔ id ∈ a.locations.map Location.id :=
  Keyed.find?_key_isSome_iff

/-- A location that is put in place of another one is found there. -/
theorem location_put {m : Location} (h : a.hasLocation m.id) :
    (a.put m).location m.id = .ok m := by
  obtain ⟨l, hl⟩ := hasLocation_iff.1 h
  have hid : l.id = m.id := (mem_of_findLocation? hl).2
  have hkept : ∀ k ∈ a.locations, (if k.id = m.id then m else k).id = k.id := by
    intro k _
    split
    · rename_i heq
      exact heq.symm
    · rfl
  rw [location_eq_ok_iff, put, findLocation?_map hkept, hl, Option.map_some,
    if_pos hid]

/-- Putting a location in place changes the one of its id only. -/
theorem forall₂_put {R : Location → Location → Prop} (hR : ∀ l, R l l)
    (hn : (a.locations.map Location.id).Nodup) {l m : Location}
    (hmem : l ∈ a.locations) (hm : m.id = l.id)
    (h : R l m) : List.Forall₂ R a.locations (a.put m).locations := by
  rw [put, List.forall₂_map_right_iff, List.forall₂_same]
  intro x hx
  split
  · rename_i hid
    rw [hm] at hid
    obtain rfl := List.inj_on_of_nodup_map hn hx hmem hid
    exact h
  · exact hR x

theorem Step.refl : Step anchored time? a a :=
  .edit (List.forall₂_same.2 fun l _ => .refl l) (Or.inl rfl) (fun h => h)
    (Or.inl rfl)

/-- Changing one location without a number is a step. -/
theorem Step.of_put (h : a.WellFormed) {id : String} {l m : Location}
    (hl : findLocation? a.locations id = some l)
    (hm : l.Edited anchored time? a.HasPlace a.nextRevision a.nextRevision m)
    (dirty : Bool) : Step anchored time? a { a.put m with dirty } :=
  .edit (forall₂_put .refl h.ids (mem_of_findLocation? hl).1 hm.id hm)
    (Or.inl rfl) (fun h => h) (Or.inl rfl)

/-- Changing all locations by one edit is a step. -/
theorem Step.of_map {f : Location → Location}
    (hf : ∀ l : Location,
      l.Edited anchored time? a.HasPlace a.nextRevision a.nextRevision (f l))
    (hlocations : b.locations = a.locations.map f)
    (hcurrent : b.current = a.current)
    (hmasters : a.HasSoundMasters → b.HasSoundMasters)
    (hcounter : b.nextRevision = a.nextRevision) : Step anchored time? a b := by
  refine .edit ?_ (Or.inl hcurrent) hmasters (Or.inl hcounter)
  rw [hlocations, hcounter, List.forall₂_map_right_iff, List.forall₂_same]
  exact fun l _ => hf l

/-- A write is a step. -/
theorem Step.of_write (h : a.WellFormed) {time : Instant} {mask : Mask}
    (hw : Write anchored time mask a b) : Step anchored (some time) a b := by
  cases hw with
  | refused => exact .refl
  | @written l m b items found location places distinct counted dirty =>
    obtain ⟨hid, hparent, htree, hbackends⟩ := location
    have hput : ∀ next,
        l.Edited anchored (some time) a.HasPlace a.nextRevision next m →
          List.Forall₂ (Location.Edited anchored (some time) a.HasPlace
            a.nextRevision next) a.locations (a.put m).locations :=
      fun next hm => forall₂_put .refl h.ids found hid hm
    rcases counted with ⟨rfl, rfl⟩ | ⟨hlt, rfl⟩
    · have hm : l.Edited anchored (some time) b.HasPlace b.nextRevision
          b.nextRevision m :=
        ⟨hid, hparent, htree.eq_of_nil ▸ .refl _, hbackends⟩
      exact .edit (hput _ hm) (Or.inl rfl) (fun h => h) (Or.inl rfl)
    · have hm : l.Edited anchored (some time) a.HasPlace a.nextRevision
          (a.nextRevision + 1) m :=
        ⟨hid, hparent, .write htree rfl (Nat.lt_succ_self _) places distinct,
          hbackends⟩
      exact .edit (hput _ hm) (Or.inl rfl) (fun h => h)
        (Or.inr ⟨rfl, hlt, rfl⟩)

theorem Step.of_orElse {x : Except ArchiveError Archive}
    (h : ∀ b, x = .ok b → Step anchored time? a b) :
    Step anchored time? a (a.orElse x) :=
  orElse_induction .refl h

/-! ## Every operation -/

theorem step_perform (h : a.WellFormed) (op : Operation)
    (hop : anchored → op.SpelledOnce) :
    Step anchored op.time? a (a.perform op) := by
  cases op with
  | newLocation id parent =>
    apply Step.of_orElse
    intro b hb
    obtain ⟨hvalid, hnew, hthere, rfl⟩ := of_newLocation hb
    exact .add hvalid hnew hthere
  | setParent id parent =>
    apply Step.of_orElse
    intro b hb
    obtain ⟨hid, hallowed, l, hl, rfl⟩ := of_setParent hb
    exact .link hid hl hallowed
  | rename id newId =>
    apply Step.of_orElse
    intro b hb
    obtain ⟨hid, hvalid, hthere, hnew, rfl⟩ := of_rename hb
    exact .rename hid hvalid hthere hnew
  | removeLocation id =>
    apply Step.of_orElse
    intro b hb
    obtain ⟨hid, -, hunused, hchildless, rfl⟩ := of_removeLocation hb
    exact .remove hid hunused hchildless
  | setCurrent id =>
    apply Step.of_orElse
    intro b hb
    obtain ⟨hthere, rfl | rfl⟩ := of_setCurrent hb
    · exact .refl
    · exact .edit (List.forall₂_same.2 fun l _ => .refl l) (Or.inr hthere)
        (fun h => h) (Or.inl rfl)
  | addBackend id backend =>
    apply Step.of_orElse
    intro b hb
    obtain ⟨l, hl, hvalid, hnew, rfl⟩ := of_addBackend hb
    have hedit : l.Edited anchored none a.HasPlace a.nextRevision
        a.nextRevision { l with backends := l.backends ++ [backend] } :=
      ⟨rfl, rfl, .refl _, fun hs => hs.concat hvalid hnew⟩
    exact .of_put h hl hedit true
  | removeBackend id backend =>
    apply Step.of_orElse
    intro b hb
    obtain ⟨l, hl, -, rfl⟩ := of_removeBackend hb
    have hedit : l.Edited anchored none a.HasPlace a.nextRevision
        a.nextRevision { l with backends := l.backends.erase backend } :=
      ⟨rfl, rfl, .refl _, fun hs => hs.erase backend⟩
    exact .of_put h hl hedit true
  | addMaster backend =>
    apply Step.of_orElse
    intro b hb
    obtain ⟨hvalid, hnew, rfl⟩ := of_addMaster hb
    refine .of_map (f := id) .refl (List.map_id _).symm rfl ?_ rfl
    rintro ⟨hn, hall⟩
    refine ⟨?_, List.forall_mem_append.2
      ⟨hall, List.forall_mem_singleton.2 hvalid⟩⟩
    show (a.masters ++ [backend]).Nodup
    rw [← List.concat_eq_append]
    exact hn.concat hnew
  | removeMaster backend =>
    apply Step.of_orElse
    intro b hb
    obtain ⟨-, rfl⟩ := of_removeMaster hb
    refine .of_map (f := id) .refl (List.map_id _).symm rfl ?_ rfl
    rintro ⟨hn, hall⟩
    exact ⟨hn.erase backend, fun b hb => hall b (List.mem_of_mem_erase hb)⟩
  | storeValue => exact .of_write h (write_perform h rfl rfl hop)
  | storeDocument => exact .of_write h (write_perform h rfl rfl hop)
  | storeSnapshot => exact .of_write h (write_perform h rfl rfl hop)
  | rollback => exact .of_write h (write_perform h rfl rfl hop)
  | purge id path =>
    apply Step.of_orElse
    intro b hb
    obtain ⟨⟨found, b⟩, hx, rfl⟩ := map_eq_ok hb
    rcases of_purge hx with rfl | ⟨l, path, hl, -, rfl⟩
    · exact .refl
    · have hedit : l.Edited anchored none a.HasPlace a.nextRevision
          a.nextRevision { l with tree := l.tree.erase path } :=
        ⟨rfl, rfl, .erase _ _, fun hs => hs⟩
      exact .of_put h hl hedit true
  | trim id kept =>
    apply Step.of_orElse
    intro b hb
    obtain ⟨⟨count, b⟩, hx, rfl⟩ := map_eq_ok hb
    rcases of_trim hx with rfl | ⟨l, hl, rfl⟩
    · exact .refl
    · have hedit : l.Edited anchored none a.HasPlace a.nextRevision
          a.nextRevision { l with tree := l.tree.trim kept } :=
        ⟨rfl, rfl, .trim _ _, fun hs => hs⟩
      exact .of_put h hl hedit true
  | setPolicy policy =>
    exact .of_map (f := id) .refl (List.map_id _).symm rfl (fun h => h) rfl
  | flush written =>
    have hprune : ∀ l : Location, l.Edited anchored none a.HasPlace
        a.nextRevision a.nextRevision { l with tree := l.tree.prune } :=
      fun l => ⟨rfl, rfl, .prune _, fun hs => hs⟩
    cases written with
    | true => exact .of_map hprune rfl rfl (fun h => h) rfl
    | false => exact .of_map hprune rfl rfl (fun h => h) rfl
  | reload =>
    apply Step.of_orElse
    intro b hb
    obtain ⟨c, hc, rfl⟩ := map_eq_ok hb
    exact .read hc a.policy

/-! ## Well-formed archives -/

theorem map_id_eq_of_edited {places : Path → Prop} {next next' : Nat}
    {ls ms : List Location}
    (h : List.Forall₂ (Location.Edited anchored time? places next next')
      ls ms) :
    ms.map Location.id = ls.map Location.id := by
  induction h with
  | nil => rfl
  | cons hlm _ ih => rw [List.map_cons, List.map_cons, hlm.id, ih]

end Archive

section Edit

variable {anchored : Prop} {time? : Option Instant} {places : Path → Prop}
  {next next' : Nat}

theorem Directory.Edit.sound {d d' : Directory}
    (h : Edit anchored time? places next next' d d') (hd : d.Sound) :
    d'.Sound := by
  cases h with
  | refl => exact hd
  | erase path => exact hd.erase path
  | trim kept => exact hd.trim kept
  | prune => exact hd.prune
  | write written => exact written.sound hd

theorem Directory.Edit.name {d d' : Directory}
    (h : Edit anchored time? places next next' d d') :
    d'.name = d.name := by
  cases h with
  | refl => rfl
  | erase path => exact name_erase path d
  | trim kept => exact name_trim kept d
  | prune => exact name_prune d
  | write written => exact written.name

/-- An edit leaves part of each history that was there, or it is a write. -/
theorem Directory.Edit.sublist_or_write {d d' : Directory}
    (h : Edit anchored time? places next next' d d') (hd : d.Sound) :
    (∀ path e', d'.get? path = some e' → ∃ e, d.get? path = some e ∧
        e'.revisions.Sublist e.revisions) ∨
      ∃ time mask items, Written time next mask items d d' ∧
        time? = some time ∧ next < next' ∧
        (∀ path ∈ items.map Prod.fst, places path) ∧
        (anchored → (items.map Prod.fst).Nodup) := by
  cases h with
  | refl => exact Or.inl fun path e he => ⟨e, he, List.Sublist.refl _⟩
  | erase erased =>
    refine Or.inl fun path e he => ?_
    rw [hd.get?_erase] at he
    split at he
    · cases he
    · exact ⟨e, he, List.Sublist.refl _⟩
  | trim kept =>
    refine Or.inl fun path e' he' => ?_
    rw [get?_trim] at he'
    obtain ⟨e, he, rfl⟩ := Option.map_eq_some_iff.1 he'
    exact ⟨e, he, e.revisions_trim_sublist kept⟩
  | prune =>
    refine Or.inl fun path e he => ?_
    rw [hd.get?_prune] at he
    exact ⟨e, he, List.Sublist.refl _⟩
  | @write time mask items _ _ written dated counted placed distinct =>
    exact Or.inr ⟨time, mask, items, written, dated, counted, placed, distinct⟩

theorem Location.Edited.isSound {l m : Location}
    (h : l.Edited anchored time? places next next' m) (hl : l.IsSound) :
    m.IsSound :=
  ⟨h.tree.sound hl.tree, h.tree.name.trans hl.root, h.backends hl.backends⟩

end Edit

namespace Archive

theorem map_id_put (a : Archive) (l : Location) :
    (a.put l).locations.map Location.id = a.locations.map Location.id := by
  rw [put, List.map_map]
  refine List.map_congr_left fun m _ => ?_
  by_cases hm : m.id = l.id
  · simp [hm]
  · simp [hm]

/-- Renaming is one to one where the new id is not in use. -/
theorem renamed_inj {id newId x y : String} (hx : x ≠ newId) (hy : y ≠ newId)
    (h : renamed id newId x = renamed id newId y) : x = y := by
  unfold renamed at h
  split at h <;> split at h <;> simp_all

/-- A step leads from a well-formed archive to a well-formed archive. -/
theorem Step.wellFormed (h : Step anchored time? a b) (ha : a.WellFormed) :
    b.WellFormed := by
  cases h with
  | edit locations =>
    refine ⟨map_id_eq_of_edited locations ▸ ha.ids, ?_⟩
    intro m hm
    obtain ⟨l, hl, hlm⟩ := exists_mem_of_forall₂ locations hm
    exact hlm.isSound (ha.sound l hl)
  | @add id parent valid new there =>
    have hnew : id ∉ a.locations.map Location.id :=
      fun hmem => new (hasLocation_iff_mem.2 hmem)
    have hsound : Location.IsSound { id, parent } :=
      ⟨sound_empty "", rfl, List.nodup_nil, by simp⟩
    exact ⟨Keyed.nodup_map_concat ha.ids hnew,
      List.forall_mem_append.2 ⟨ha.sound, List.forall_mem_singleton.2 hsound⟩⟩
  | @link id l parent proper found allowed =>
    refine ⟨map_id_put a _ ▸ ha.ids, ?_⟩
    intro m hm
    obtain ⟨x, hx, rfl⟩ := List.mem_map.1 hm
    have hl := ha.sound l (mem_of_findLocation? found).1
    split
    · exact ⟨hl.tree, hl.root, hl.backends⟩
    · exact ha.sound x hx
  | @rename id newId proper valid there new =>
    refine ⟨?_, ?_⟩
    · show ((a.locations.map _).map Location.id).Nodup
      have hmap : (a.locations.map (relinked id newId)).map Location.id =
          (a.locations.map Location.id).map (renamed id newId) := by
        rw [List.map_map, List.map_map]
        rfl
      rw [hmap]
      apply ha.ids.map_on
      intro x hx y hy hxy
      have hfree : ∀ z ∈ a.locations.map Location.id, z ≠ newId := by
        rintro z hz rfl
        exact new (hasLocation_iff_mem.2 hz)
      exact renamed_inj (hfree x hx) (hfree y hy) hxy
    · intro m hm
      obtain ⟨l, hl, rfl⟩ := List.mem_map.1 hm
      have hs := ha.sound l hl
      exact ⟨hs.tree, hs.root, hs.backends⟩
  | remove =>
    refine ⟨(List.filter_sublist.map Location.id).nodup ha.ids, ?_⟩
    intro l hl
    exact ha.sound l (List.mem_filter.1 hl).1
  | read own policy =>
    obtain ⟨hids, hsound⟩ := (IsStart.read own).wellFormed
    exact ⟨hids, hsound⟩

/-- What holds of all trees holds of them behind a step, if it holds of an empty
tree, survives edits and holds of the trees that the archive's own text
gives. -/
theorem Step.forall_tree {P : Nat → Directory → Prop}
    (h : Step anchored time? a b)
    (ha : ∀ l ∈ a.locations, P a.nextRevision l.tree)
    (empty : P a.nextRevision .empty)
    (edit : a.nextRevision ≤ b.nextRevision → ∀ l ∈ a.locations, ∀ d,
      Directory.Edit anchored time? a.HasPlace a.nextRevision b.nextRevision
        l.tree d → P b.nextRevision d)
    (read : ∀ c, ofText a.text = .ok c →
      ∀ l ∈ c.locations, P c.nextRevision l.tree) :
    ∀ m ∈ b.locations, P b.nextRevision m.tree := by
  cases h with
  | edit locations _ _ counter =>
    intro m hm
    obtain ⟨l, hl, hlm⟩ := exists_mem_of_forall₂ locations hm
    exact edit (by omega) l hl m.tree hlm.tree
  | add =>
    exact List.forall_mem_append.2 ⟨ha, List.forall_mem_singleton.2 empty⟩
  | @link id l parent _ found =>
    intro m hm
    obtain ⟨x, hx, rfl⟩ := List.mem_map.1 hm
    split
    · exact ha l (mem_of_findLocation? found).1
    · exact ha x hx
  | rename =>
    intro m hm
    obtain ⟨l, hl, rfl⟩ := List.mem_map.1 hm
    exact ha l hl
  | remove =>
    intro l hl
    exact ha l (List.mem_filter.1 hl).1
  | @read c own policy => exact read c own

/-- Every archive that operations lead to is well formed. -/
theorem Reachable.wellFormed {allowed : Operation → Prop}
    (h : Reachable allowed a) : a.WellFormed := by
  refine h.induction (fun a ha => ha.wellFormed) fun a op _ ha hop => ?_
  have hstep : Step False op.time? a (a.perform op) := step_perform ha op nofun
  exact hstep.wellFormed ha

/-- What holds of all entries that are listed holds of those that are found. -/
theorem WellFormed.of_listed {a : Archive} {P : Path × Entry → Prop}
    (ha : a.WellFormed) (h : ∀ l ∈ a.locations, ∀ x ∈ l.tree.allEntries, P x)
    {id : String} {l : Location} (hl : a.location id = .ok l) (path : Path)
    (e : Entry) (he : l.tree.get? path = some e) : P (path, e) := by
  have hmem := (mem_of_findLocation? (location_eq_ok_iff.1 hl)).1
  exact h l hmem (path, e) ((ha.trees l hmem).mem_allEntries_iff.2 he)

/-- What holds in the beginning and survives every step holds of every archive
that operations lead to. -/
theorem Reachable.induction_step {allowed : Operation → Prop}
    {P : Archive → Prop} (h : Reachable allowed b) (anchored : Prop)
    (hallowed : anchored → ∀ op, allowed op → op.SpelledOnce)
    (start : ∀ a, IsStart a → P a)
    (step : ∀ a time? b, a.WellFormed → P a → Step anchored time? a b → P b) :
    P b := by
  refine h.induction start fun a op hr ha hop => ?_
  exact step a op.time? _ hr.wellFormed ha
    (step_perform hr.wellFormed op fun hanch => hallowed hanch op hop)

/-- What survives every step of a run survives the run.  All archives on the way
are well-formed. -/
theorem run_induction_step {P : Archive → Prop} {ops : List Operation}
    (ha : a.WellFormed) (hP : P a)
    (step : ∀ a, ∀ op ∈ ops, a.WellFormed → P a →
      Step False op.time? a (a.perform op) → P (a.perform op)) :
    (a.run ops).WellFormed ∧ P (a.run ops) := by
  refine run_induction (P := fun a => a.WellFormed ∧ P a) ?_ ⟨ha, hP⟩
  rintro a op hop ⟨ha, hP⟩
  have hstep : Step False op.time? a (a.perform op) := step_perform ha op nofun
  exact ⟨hstep.wellFormed ha, step a op hop ha hP hstep⟩

end Archive

end SettingsArchive
