import SettingsArchive.Proofs.Counting
import SettingsArchive.Proofs.Revisions

/-!
# What becomes of a location

A location goes through operations under its id until it is renamed, and under
the new id from then on.  `Archive.idBehind` follows it through one operation and
`Archive.idAfter` through a run.  `Location.Changed` lists what an operation can do
to the tree of a location that stays, with the operation that does it
(`changed_perform`), and `Operation.Turns` what follows for the history of one path
(`Location.Changed.turns`).
-/

namespace SettingsArchive

open Directory

/-! ## One location -/

/-- What an operation does to a location that stays. -/
inductive Location.Changed (op : Archive.Operation) (next : Nat)
    (l m : Location) : Prop where
  | kept (tree : m.tree = l.tree)
  | pruned (tree : m.tree = l.tree.prune)
  | written {time : Instant} {mask : Mask} {items : List (Path × Value)}
      (treats : op.mask? = some mask)
      (written : Directory.Written time next mask items l.tree m.tree)
      (distinct : op.SpelledOnce → (items.map Prod.fst).Nodup)
  | purged {text : String} {path : Path} (purges : op = .purge l.id text)
      (names : Path.ofText? text = some path)
      (tree : m.tree = l.tree.erase path)
  | trimmed {kept : Nat} (trims : op = .trim l.id kept)
      (tree : m.tree = l.tree.trim kept)
  | read (reads : op = .reload)
      (element : ReadFrom (Contents.locationElement l) m)

namespace Archive

variable {a b : Archive} {op : Operation} {id : String} {l m : Location}

/-- The id of a location behind an operation, if the location is still there. -/
def idBehind (a : Archive) (id : String) : Operation → Option String
  | .rename oldId newId =>
    match a.rename oldId newId with
    | .ok _ => some (renamed oldId newId id)
    | .error _ => some id
  | .removeLocation other =>
    match a.removeLocation other with
    | .ok _ => if other = id then none else some id
    | .error _ => some id
  | _ => some id

/-- The id of a location behind operations, if none of them removed it. -/
def idAfter (a : Archive) (id : String) : List Operation → Option String
  | [] => some id
  | op :: ops =>
    (a.idBehind id op).bind fun behind => (a.perform op).idAfter behind ops

/-- Only removing a location takes it away. -/
theorem eq_removeLocation_of_idBehind (h : a.idBehind id op = none) :
    op = .removeLocation id := by
  cases op with
  | rename oldId newId =>
    simp only [idBehind] at h
    split at h <;> cases h
  | removeLocation other =>
    simp only [idBehind] at h
    split at h
    · split at h
      · rename_i heq
        rw [heq]
      · cases h
    · cases h
  | _ => cases h

/-- Only renaming gives a location another id. -/
theorem idBehind_of_mask? {mask : Mask} (h : op.mask? = some mask) :
    a.idBehind id op = some id := by
  cases op with
  | storeValue | storeDocument | storeSnapshot | rollback => rfl
  | _ => cases h

/-- A location is still there when another one is put in place. -/
theorem exists_mem_put (ha : a.WellFormed) (hl : l ∈ a.locations)
    (hm : m.id = l.id) {k : Location} (hk : k ∈ a.locations) :
    k = l ∧ m ∈ (a.put m).locations ∨ k ∈ (a.put m).locations := by
  by_cases hid : k.id = m.id
  · obtain rfl := List.inj_on_of_nodup_map ha.ids hk hl (hid.trans hm)
    exact Or.inl ⟨rfl, List.mem_map.2 ⟨k, hk, if_pos hid⟩⟩
  · exact Or.inr (List.mem_map.2 ⟨k, hk, if_neg hid⟩)

/-- There is a location of this id, which an operation made of another one. -/
def Brings (op : Operation) (next : Nat) (l : Location) (id : String)
    (b : Archive) : Prop :=
  ∃ m ∈ b.locations, m.id = id ∧ l.Changed op next m

theorem brings_self {next : Nat} (hl : l ∈ a.locations) :
    Brings op next l l.id a :=
  ⟨l, hl, rfl, .kept rfl⟩

/-- A location that is put in place brings itself, and the others stay. -/
theorem brings_put (ha : a.WellFormed) {next : Nat} {k : Location}
    (hk : findLocation? a.locations id = some k) (hm : m.id = k.id)
    (hchanged : k.Changed op next m) (hb : b.locations = (a.put m).locations)
    (hl : l ∈ a.locations) : Brings op next l l.id b := by
  have hmem := (mem_of_findLocation? hk).1
  rcases exists_mem_put ha hmem hm hl with ⟨rfl, hput⟩ | hput
  · exact ⟨m, hb ▸ hput, hm, hchanged⟩
  · exact ⟨l, hb ▸ hput, rfl, .kept rfl⟩

theorem brings_write (ha : a.WellFormed) {time : Instant} {mask : Mask}
    (hmask : op.mask? = some mask)
    (hw : Write op.SpelledOnce time mask a b) (hl : l ∈ a.locations) :
    Brings op a.nextRevision l l.id b := by
  cases hw with
  | refused => exact brings_self hl
  | @written k m c items found location places distinct counted dirty =>
    have hlocations : (c.put m).locations = (a.put m).locations := by
      rcases counted with ⟨-, rfl⟩ | ⟨-, rfl⟩ <;> rfl
    exact brings_put ha (findLocation?_of_mem ha.ids found) location.id
      (.written hmask location.tree distinct) hlocations hl

/-- Every operation does to each location one of the things that `Changed`
lists, unless it removes it. -/
theorem changed_perform (ha : a.WellFormed) (hl : l ∈ a.locations)
    (hid : a.idBehind l.id op = some id) :
    Brings op a.nextRevision l id (a.perform op) := by
  cases htime : op.time? with
  | some time =>
    obtain ⟨mask, hmask⟩ := Operation.exists_mask? htime
    obtain rfl := Option.some.inj (hid.symm.trans (idBehind_of_mask? hmask))
    have hw : Write op.SpelledOnce time mask a (a.perform op) :=
      write_perform ha htime hmask fun h => h
    exact brings_write ha hmask hw hl
  | none =>
    cases op with
    | rename oldId newId =>
      simp only [idBehind] at hid
      simp only [perform]
      cases hb : a.rename oldId newId with
      | error e =>
        rw [hb] at hid
        obtain rfl := Option.some.inj hid
        exact brings_self hl
      | ok b =>
        rw [hb] at hid
        obtain rfl := Option.some.inj hid
        obtain ⟨-, -, -, -, rfl⟩ := of_rename hb
        exact ⟨relinked oldId newId l, List.mem_map_of_mem hl, rfl, .kept rfl⟩
    | removeLocation other =>
      simp only [idBehind] at hid
      simp only [perform]
      cases hb : a.removeLocation other with
      | error e =>
        rw [hb] at hid
        obtain rfl := Option.some.inj hid
        exact brings_self hl
      | ok b =>
        rw [hb] at hid
        simp only at hid
        split at hid
        · cases hid
        · rename_i hne
          obtain rfl := Option.some.inj hid
          obtain ⟨-, -, -, -, rfl⟩ := of_removeLocation hb
          have hother : decide (l.id ≠ other) = true := decide_eq_true (Ne.symm hne)
          exact ⟨l, List.mem_filter.2 ⟨hl, hother⟩, rfl, .kept rfl⟩
    | newLocation other parent =>
      obtain rfl := Option.some.inj hid
      refine orElse_induction (brings_self hl) fun b hb => ?_
      obtain ⟨-, -, -, rfl⟩ := of_newLocation hb
      exact ⟨l, List.mem_append_left _ hl, rfl, .kept rfl⟩
    | setParent other parent =>
      obtain rfl := Option.some.inj hid
      refine orElse_induction (brings_self hl) fun b hb => ?_
      obtain ⟨-, -, k, hk, rfl⟩ := of_setParent hb
      exact brings_put (m := { k with parent }) ha hk rfl (.kept rfl) rfl hl
    | setCurrent other =>
      obtain rfl := Option.some.inj hid
      refine orElse_induction (brings_self hl) fun b hb => ?_
      obtain ⟨-, rfl | rfl⟩ := of_setCurrent hb <;>
        exact ⟨l, hl, rfl, .kept rfl⟩
    | addBackend other backend =>
      obtain rfl := Option.some.inj hid
      refine orElse_induction (brings_self hl) fun b hb => ?_
      obtain ⟨k, hk, -, -, rfl⟩ := of_addBackend hb
      exact brings_put (m := { k with backends := k.backends ++ [backend] }) ha
        hk rfl (.kept rfl) rfl hl
    | removeBackend other backend =>
      obtain rfl := Option.some.inj hid
      refine orElse_induction (brings_self hl) fun b hb => ?_
      obtain ⟨k, hk, -, rfl⟩ := of_removeBackend hb
      exact brings_put (m := { k with backends := k.backends.erase backend }) ha
        hk rfl (.kept rfl) rfl hl
    | addMaster backend =>
      obtain rfl := Option.some.inj hid
      refine orElse_induction (brings_self hl) fun b hb => ?_
      obtain ⟨-, -, rfl⟩ := of_addMaster hb
      exact ⟨l, hl, rfl, .kept rfl⟩
    | removeMaster backend =>
      obtain rfl := Option.some.inj hid
      refine orElse_induction (brings_self hl) fun b hb => ?_
      obtain ⟨-, rfl⟩ := of_removeMaster hb
      exact ⟨l, hl, rfl, .kept rfl⟩
    | purge other text =>
      obtain rfl := Option.some.inj hid
      refine orElse_induction (brings_self hl) fun b hb => ?_
      obtain ⟨⟨found, c⟩, hc, rfl⟩ := map_eq_ok hb
      rcases of_purge hc with rfl | ⟨k, path, hk, hpath, rfl⟩
      · exact brings_self hl
      · have hpurges : Operation.purge other text = .purge k.id text := by
          rw [(mem_of_findLocation? hk).2]
        exact brings_put (m := { k with tree := k.tree.erase path }) ha hk rfl
          (.purged hpurges hpath rfl) rfl hl
    | trim other kept =>
      obtain rfl := Option.some.inj hid
      refine orElse_induction (brings_self hl) fun b hb => ?_
      obtain ⟨⟨count, c⟩, hc, rfl⟩ := map_eq_ok hb
      rcases of_trim hc with rfl | ⟨k, hk, rfl⟩
      · exact brings_self hl
      · have htrims : Operation.trim other kept = .trim k.id kept := by
          rw [(mem_of_findLocation? hk).2]
        exact brings_put (m := { k with tree := k.tree.trim kept }) ha hk rfl
          (.trimmed htrims rfl) rfl hl
    | setPolicy policy =>
      obtain rfl := Option.some.inj hid
      exact ⟨l, hl, rfl, .kept rfl⟩
    | flush written =>
      obtain rfl := Option.some.inj hid
      have hmem : { l with tree := l.tree.prune } ∈ a.pruned.locations :=
        List.mem_map_of_mem hl
      cases written with
      | true => exact ⟨_, hmem, rfl, .pruned rfl⟩
      | false => exact ⟨_, hmem, rfl, .pruned rfl⟩
    | reload =>
      obtain rfl := Option.some.inj hid
      refine orElse_induction (brings_self hl) fun b hb => ?_
      obtain ⟨c, hc, rfl⟩ := map_eq_ok hb
      obtain ⟨m, hm, hread⟩ :=
        exists_mem_of_forall₂ (forall₂_of_ofText_text hc).flip hl
      exact ⟨m, hm, (Option.some.inj hread.id).symm, .read rfl hread⟩
    | storeValue | storeDocument | storeSnapshot | rollback => cases htime

end Archive

/-! ## One history -/

/-- What an operation makes of the history of a path in the location of this
id. -/
inductive Archive.Operation.Turns (op : Operation) (id : String) (path : Path)
    (next : Nat) : List Revision → List Revision → Prop where
  | same (rs : List Revision) : Turns op id path next rs rs
  | begun {r : Revision} (treats : op.mask? = some r.mask)
      (number : r.id = next) : Turns op id path next [] [r]
  | continued {past : List Revision} {head r : Revision}
      (treats : op.mask? = some r.mask) (number : r.id = next) :
      Turns op id path next (past ++ [head])
        (past ++ [Entry.retired r.mask head] ++ [r])
  | purged (rs : List Revision) {text : String} (purges : op = .purge id text)
      (names : Path.ofText? text = some path) : Turns op id path next rs []
  | trimmed (e : Entry) {kept : Nat} (trims : op = .trim id kept) :
      Turns op id path next e.revisions (e.trim kept).revisions
  | read (rs : List Revision) (reads : op = .reload) :
      Turns op id path next rs (rs.map Revision.canonical)

/-- A write turns the history of its path. -/
theorem Directory.Written.turns {op : Archive.Operation} {id : String}
    {time : Instant} {next : Nat} {mask : Mask} {items : List (Path × Value)}
    {d d' : Directory} (h : Written time next mask items d d')
    (htreats : op.mask? = some mask) (hn : (items.map Prod.fst).Nodup)
    (path : Path) :
    op.Turns id path next (d.revisions path) (d'.revisions path) := by
  obtain ⟨hitems, hothers⟩ := h.get?_eq hn
  by_cases hpath : path ∈ items.map Prod.fst
  · obtain ⟨x, hx, rfl⟩ := List.mem_map.1 hpath
    rw [revisions_of_get? (hitems x hx)]
    cases he : d.get? x.1 with
    | none =>
      rw [revisions_of_none he]
      exact .begun (r := ⟨next, time, x.2, mask, false⟩) htreats rfl
    | some e =>
      rw [revisions_of_get? he]
      exact .continued (r := ⟨next, time, x.2, mask, false⟩) htreats rfl
  · have hsame : d'.revisions path = d.revisions path := by
      rw [revisions, hothers path hpath, revisions]
    rw [hsame]
    exact .same _

/-- What an operation does to a location turns the histories of its paths. -/
theorem Location.Changed.turns {op : Archive.Operation} {next : Nat}
    {l m : Location} (h : l.Changed op next m) (hop : op.SpelledOnce)
    (hl : l.tree.Sound) (hbelow : l.tree.IsBelow next)
    (hbound : next ≤ Numeral.maxWord) (path : Path) :
    op.Turns l.id path next (l.tree.revisions path) (m.tree.revisions path) := by
  cases h with
  | kept tree =>
    rw [tree]
    exact .same _
  | pruned tree =>
    have hsame : m.tree.revisions path = l.tree.revisions path := by
      rw [revisions, tree, hl.get?_prune, revisions]
    rw [hsame]
    exact .same _
  | written treats written distinct =>
    exact written.turns treats (distinct hop) path
  | @purged text other purges names tree =>
    have hget := hl.get?_erase other path
    rw [← tree] at hget
    by_cases hpath : path = other
    · rw [if_pos hpath] at hget
      rw [revisions_of_none hget]
      exact .purged _ purges (hpath ▸ names)
    · rw [if_neg hpath] at hget
      have hsame : m.tree.revisions path = l.tree.revisions path := by
        rw [revisions, hget, revisions]
      rw [hsame]
      exact .same _
  | @trimmed kept trims tree =>
    have hget := get?_trim kept l.tree path
    rw [← tree] at hget
    cases he : l.tree.get? path with
    | none =>
      rw [he] at hget
      rw [revisions_of_none he, revisions_of_none hget]
      exact .same _
    | some e =>
      rw [he] at hget
      rw [revisions_of_get? he, revisions_of_get? hget]
      exact .trimmed e trims
  | read reads element =>
    have hget := Contents.get?_eq_canonical_of_readFrom element hl
      (fun path e he r hr => by
        have := hbelow path e he r hr
        omega) path
    have hmap : m.tree.revisions path =
        (l.tree.revisions path).map Revision.canonical := by
      cases he : l.tree.get? path with
      | none =>
        rw [he] at hget
        rw [revisions_of_none he, revisions_of_none hget, List.map_nil]
      | some e =>
        rw [he] at hget
        rw [revisions_of_get? he, revisions_of_get? hget,
          Entry.revisions_canonical]
    rw [hmap]
    exact .read _ reads

end SettingsArchive
