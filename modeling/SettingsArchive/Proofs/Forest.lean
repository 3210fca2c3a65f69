import Mathlib.Data.List.Perm.Subperm
import Mathlib.Logic.Relation
import SettingsArchive.Proofs.Step

/-!
# The forest of locations

Parents are named by their ids, so that the links run in no circle is a fact
about the whole list of locations.  `Height` measures how far a location is
below one without a parent, and in a forest every location has a height.

* A link leads to a location of the next smaller height, so no location is
  above itself (`Height.not_transGen`).
* The chain of a location has one location of each height from its own down to
  zero.  They are different, so there are not more of them than locations, and
  the chain is found in as many steps (`Height.chainFrom`).
* Every step of an archive keeps the forest (`Step.isForest`).
-/

namespace SettingsArchive

/-- The id of a location and the link to its parent. -/
abbrev Link := String × Option String

/-- The links of some locations. -/
def links (locations : List Location) : List Link :=
  locations.map fun l => (l.id, l.parent)

theorem mem_links_iff {locations : List Location} {x : Link} :
    x ∈ links locations ↔ ∃ l ∈ locations, l.id = x.1 ∧ l.parent = x.2 := by
  rw [links, List.mem_map]
  constructor
  · rintro ⟨l, hl, rfl⟩
    exact ⟨l, hl, rfl, rfl⟩
  · rintro ⟨l, hl, hid, hparent⟩
    exact ⟨l, hl, Prod.ext hid hparent⟩

theorem mem_links_of_mem {locations : List Location} {l : Location}
    (hl : l ∈ locations) : (l.id, l.parent) ∈ links locations :=
  mem_links_iff.2 ⟨l, hl, rfl, rfl⟩

theorem map_fst_links (locations : List Location) :
    (links locations).map Prod.fst = locations.map Location.id := by
  rw [links, List.map_map]
  rfl

theorem nodup_links {locations : List Location}
    (hn : (locations.map Location.id).Nodup) :
    ((links locations).map Prod.fst).Nodup := by
  rwa [map_fst_links]

/-- How far a location is below one without a parent. -/
inductive Height (ls : List Link) : String → Nat → Prop where
  | root {id : String} (here : (id, none) ∈ ls) : Height ls id 0
  | child {id parent : String} {n : Nat} (here : (id, some parent) ∈ ls)
      (above : Height ls parent n) : Height ls id (n + 1)

/-- The one location is linked to the other one. -/
def HasParent (ls : List Link) (id parent : String) : Prop :=
  (id, some parent) ∈ ls

namespace Height

variable {ls ms : List Link} {id : String} {n : Nat}

/-- Further links change no height. -/
theorem mono (h : Height ls id n) (hsub : ls ⊆ ms) : Height ms id n := by
  induction h with
  | root here => exact .root (hsub here)
  | child here _ ih => exact .child (hsub here) ih

theorem mem (h : Height ls id n) : ∃ parent, (id, parent) ∈ ls := by
  cases h with
  | root here => exact ⟨none, here⟩
  | child here => exact ⟨_, here⟩

/-! ## No circles -/

theorem eq_of_mem (hn : (ls.map Prod.fst).Nodup) {p q : Option String}
    (hp : (id, p) ∈ ls) (hq : (id, q) ∈ ls) : p = q :=
  (Prod.mk.inj (List.inj_on_of_nodup_map hn hp hq rfl)).2

/-- Where no id repeats, a location has one height. -/
theorem unique (hn : (ls.map Prod.fst).Nodup) (h : Height ls id n) {m : Nat}
    (k : Height ls id m) : n = m := by
  induction h generalizing m with
  | root here =>
    cases k with
    | root => rfl
    | child here' => cases eq_of_mem hn here here'
  | child here _ ih =>
    cases k with
    | root here' => cases eq_of_mem hn here here'
    | child here' above' =>
      cases eq_of_mem hn here here'
      rw [ih above']

/-- A link leads to a location of the next smaller height. -/
theorem of_hasParent (hn : (ls.map Prod.fst).Nodup) (h : Height ls id n)
    {parent : String} (hp : HasParent ls id parent) :
    ∃ m, n = m + 1 ∧ Height ls parent m := by
  cases h with
  | root here => cases eq_of_mem hn here hp
  | @child _ _ m here above =>
    cases eq_of_mem hn here hp
    exact ⟨m, rfl, above⟩

theorem of_transGen (hn : (ls.map Prod.fst).Nodup) (h : Height ls id n)
    {other : String} (ho : Relation.TransGen (HasParent ls) id other) :
    ∃ m, m < n ∧ Height ls other m := by
  induction ho with
  | single hp =>
    obtain ⟨m, rfl, hm⟩ := h.of_hasParent hn hp
    exact ⟨m, Nat.lt_succ_self m, hm⟩
  | tail _ hp ih =>
    obtain ⟨m, hlt, hm⟩ := ih
    obtain ⟨k, rfl, hk⟩ := hm.of_hasParent hn hp
    exact ⟨k, by omega, hk⟩

/-- A location that has a height is not above itself. -/
theorem not_transGen (hn : (ls.map Prod.fst).Nodup) (h : Height ls id n) :
    ¬ Relation.TransGen (HasParent ls) id id := by
  intro ho
  obtain ⟨m, hlt, hm⟩ := h.of_transGen hn ho
  have := h.unique hn hm
  omega

end Height

/-! ## Chains -/

namespace Height

variable {locations : List Location}

/-- The chain of a location is found in as many steps as its height.  It ends
at a location without a parent, and what is behind the first location is of
smaller height. -/
theorem chainFrom_of_le (hn : (locations.map Location.id).Nodup)
    {l : Location} (hl : l ∈ locations) {n : Nat}
    (h : Height (links locations) l.id n) (start : String) {steps : Nat}
    (hle : n ≤ steps) :
    ∃ above, chainFrom locations start steps l = .ok (l :: above) ∧
      above.length = n ∧ ((l :: above).map Location.id).Nodup ∧
      (∀ m ∈ above, ∃ k < n, Height (links locations) m.id k) ∧
      ∃ last, (l :: above).getLast? = some last ∧ last.parent = none := by
  have hn' := nodup_links hn
  have hlink : (l.id, l.parent) ∈ links locations :=
    mem_links_of_mem hl
  induction n generalizing l steps with
  | zero =>
    cases h with
    | root here =>
      have hp := eq_of_mem hn' hlink here
      exact ⟨[], chainFrom_of_none hp steps, rfl, by simp, by simp, l, rfl, hp⟩
  | succ n ih =>
    cases h with
    | @child _ parent _ here habove =>
      have hp := eq_of_mem hn' hlink here
      obtain ⟨steps, rfl⟩ : ∃ k, steps = k + 1 := ⟨steps - 1, by omega⟩
      obtain ⟨q, hq⟩ := habove.mem
      obtain ⟨p, hpl, hpid, -⟩ := mem_links_iff.1 hq
      have hpid : p.id = parent := hpid
      subst hpid
      obtain ⟨above, hchain, hlen, hnodup, hheights, last, hlast, hnone⟩ :=
        ih hpl habove (Nat.le_of_succ_le_succ hle)
          (mem_links_of_mem hpl)
      have hall : ∀ m ∈ p :: above,
          ∃ k < n + 1, Height (links locations) m.id k := by
        intro m hm
        rcases List.mem_cons.1 hm with rfl | hm
        · exact ⟨n, Nat.lt_succ_self n, habove⟩
        · obtain ⟨k, hk, hheight⟩ := hheights m hm
          exact ⟨k, Nat.lt_succ_of_lt hk, hheight⟩
      refine ⟨p :: above, ?_, by simp [hlen], ?_, hall, last, ?_, hnone⟩
      · rw [chainFrom_succ hp, findLocation?_of_mem hn hpl]
        simp only [hchain]
        rfl
      · rw [List.map_cons, List.nodup_cons]
        refine ⟨?_, hnodup⟩
        intro hmem
        obtain ⟨m, hm, hid⟩ := List.mem_map.1 hmem
        obtain ⟨k, hk, hheight⟩ := hall m hm
        have := (Height.child here habove).unique hn' (hid ▸ hheight)
        omega
      · rw [List.getLast?_cons_cons]
        exact hlast

end Height

/-! ## Changing links -/

namespace Height

variable {ls ms : List Link} {id other : String} {n : Nat}

/-- Linking one location elsewhere leaves heights if it has one there. -/
theorem redirect (h : Height ls other n)
    (hkeep : ∀ x ∈ ls, x.1 ≠ id → x ∈ ms) (hid : ∃ k, Height ms id k) :
    ∃ k, Height ms other k := by
  induction h with
  | @root other here =>
    by_cases ho : other = id
    · exact ho ▸ hid
    · exact ⟨0, .root (hkeep _ here ho)⟩
  | @child other parent n here _ ih =>
    by_cases ho : other = id
    · exact ho ▸ hid
    · obtain ⟨k, hk⟩ := ih
      exact ⟨k + 1, .child (hkeep _ here ho) hk⟩

/-- Removing a location that is no parent changes no other height. -/
theorem remove (h : Height ls other n) (ho : other ≠ id)
    (hkeep : ∀ x ∈ ls, x.1 ≠ id → x ∈ ms)
    (hchildless : ∀ x ∈ ls, x.2 ≠ some id) : Height ms other n := by
  induction h with
  | root here => exact .root (hkeep _ here ho)
  | @child other parent n here _ ih =>
    have hp : parent ≠ id := by
      rintro rfl
      exact hchildless _ here rfl
    exact .child (hkeep _ here ho) (ih hp)

/-- Renaming changes no height. -/
theorem rename (h : Height ls other n) {f : String → String}
    (hmap : ∀ x ∈ ls, (f x.1, x.2.map f) ∈ ms) : Height ms (f other) n := by
  induction h with
  | root here => exact .root (hmap _ here)
  | child here _ ih => exact .child (hmap _ here) ih

end Height

/-- A chain that does not go through a location gives a height that does not
depend on the link of that location. -/
theorem height_of_chainFrom {locations : List Location} {start id : String}
    {ms : List Link}
    (hkeep : ∀ x ∈ links locations, x.1 ≠ id → x ∈ ms) {steps : Nat}
    {l : Location} (hl : l ∈ locations) {ls : List Location}
    (h : chainFrom locations start steps l = .ok ls)
    (hid : ∀ m ∈ ls, m.id ≠ id) : ∃ n, Height ms l.id n := by
  have hlink : ∀ l ∈ locations, l.id ≠ id → (l.id, l.parent) ∈ ms :=
    fun l hl hne => hkeep _ (mem_links_of_mem hl) hne
  revert hid
  apply chainFrom_induction _ _ hl h
  · intro l hl hroot hid
    have hmem := hlink l hl (hid l List.mem_cons_self)
    rw [hroot] at hmem
    exact ⟨0, .root hmem⟩
  · intro l hl p hp hparent above ih hid
    have hmem := hlink l hl (hid l List.mem_cons_self)
    rw [hparent] at hmem
    obtain ⟨n, hn⟩ := ih fun m hm => hid m (List.mem_cons_of_mem _ hm)
    exact ⟨n + 1, .child hmem hn⟩

/-! ## Links of a document -/

/-- Following the links from a location upwards finds the height of its
parent. -/
theorem height_of_checkChain {locations : List Location} {start : String}
    {unseen : List Location} {parent : Option String}
    (h : checkChain locations start unseen parent = .ok ()) :
    ∀ p, parent = some p → ∃ n, Height (links locations) p n := by
  fun_induction checkChain locations start unseen parent with
  | case1 => simp
  | case2 => cases h
  | case3 unseen id p hfind hseen ih =>
    rintro _ ⟨⟩
    obtain ⟨hp, rfl⟩ := mem_of_findLocation? hfind
    cases hq : p.parent with
    | none => exact ⟨0, .root (mem_links_iff.2 ⟨p, hp, rfl, hq⟩)⟩
    | some q =>
      obtain ⟨n, hn⟩ := ih h q hq
      exact ⟨n + 1, .child (mem_links_iff.2 ⟨p, hp, rfl, hq⟩) hn⟩
  | case4 => cases h

theorem forM_eq_ok {ε α : Type} {f : α → Except ε PUnit} {xs : List α}
    (h : xs.forM f = .ok ()) : ∀ x ∈ xs, f x = .ok () := by
  induction xs with
  | nil => simp
  | cons x xs ih =>
    obtain ⟨⟨⟩, hx, h⟩ := bind_eq_ok h
    exact List.forall_mem_cons.2 ⟨hx, ih h⟩

theorem exists_of_forM_eq_error {ε α : Type} {f : α → Except ε PUnit} {xs : List α}
    {e : ε} (h : xs.forM f = .error e) : ∃ x ∈ xs, f x = .error e := by
  induction xs with
  | nil => cases h
  | cons x xs ih =>
    rw [List.forM] at h
    cases hx : f x with
    | error e' =>
      rw [hx] at h
      obtain rfl := Except.error.inj h
      exact ⟨x, List.mem_cons_self, hx⟩
    | ok =>
      rw [hx] at h
      obtain ⟨y, hy, hfy⟩ := ih h
      exact ⟨y, List.mem_cons_of_mem _ hy, hfy⟩

/-- Locations that `checkLinks` accepts are a forest with the default location
at a root. -/
theorem of_checkLinks {locations : List Location}
    (h : checkLinks locations = .ok ()) :
    (defaultId, none) ∈ links locations ∧
      ∀ x ∈ links locations, ∃ n, Height (links locations) x.1 n := by
  unfold checkLinks at h
  split at h
  · cases h
  · rename_i d hd
    obtain ⟨hmem, hid⟩ := mem_of_findLocation? hd
    split at h
    · cases h
    · rename_i hparent
      refine ⟨mem_links_iff.2 ⟨d, hmem, hid, by simpa using hparent⟩, ?_⟩
      rintro x hx
      obtain ⟨l, hl, hlid, -⟩ := mem_links_iff.1 hx
      have hcheck := height_of_checkChain (forM_eq_ok h l hl)
      rw [← hlid]
      cases hp : l.parent with
      | none => exact ⟨0, .root (mem_links_iff.2 ⟨l, hl, rfl, hp⟩)⟩
      | some parent =>
        obtain ⟨n, hn⟩ := hcheck parent hp
        exact ⟨n + 1, .child (mem_links_iff.2 ⟨l, hl, rfl, hp⟩) hn⟩

/-- Links that are followed up from a location in a forest are sound, as long
as all locations that are not higher are unseen. -/
theorem Height.checkChain_eq_ok {locations : List Location}
    (hn : (locations.map Location.id).Nodup) (start : String) {id : String}
    {n : Nat} (h : Height (links locations) id n) {unseen : List Location}
    (hunseen : ∀ l ∈ locations, ∀ k ≤ n,
      Height (links locations) l.id k → l ∈ unseen) :
    checkChain locations start unseen (some id) = .ok () := by
  have hn' := nodup_links hn
  induction h generalizing unseen with
  | @root id here =>
    obtain ⟨p, hp, hid, hparent⟩ := mem_links_iff.1 here
    dsimp only at hid hparent
    subst hid
    have hseen : ∃ l ∈ unseen, l.id = p.id :=
      ⟨p, hunseen p hp 0 (Nat.le_refl _) (.root here), rfl⟩
    rw [checkChain, findLocation?_of_mem hn hp]
    simp only [hseen, dif_pos, hparent]
    rw [checkChain]
  | @child id parent n here above ih =>
    obtain ⟨p, hp, hid, hparent⟩ := mem_links_iff.1 here
    dsimp only at hid hparent
    subst hid
    have hheight : Height (links locations) p.id (n + 1) := .child here above
    have hseen : ∃ l ∈ unseen, l.id = p.id :=
      ⟨p, hunseen p hp (n + 1) (Nat.le_refl _) hheight, rfl⟩
    rw [checkChain, findLocation?_of_mem hn hp]
    simp only [hseen, dif_pos, hparent]
    refine ih fun l hl k hk hlk => ?_
    have hne : l.id ≠ p.id := by
      intro heq
      have := hheight.unique hn' (heq ▸ hlk)
      omega
    exact List.mem_filter.2
      ⟨hunseen l hl k (Nat.le_succ_of_le hk) hlk, by simpa using hne⟩

theorem forM_of_forall {ε α : Type} {f : α → Except ε PUnit} {xs : List α}
    (h : ∀ x ∈ xs, f x = .ok ()) : xs.forM f = .ok () := by
  induction xs with
  | nil => rfl
  | cons x xs ih =>
    have hrest := ih fun y hy => h y (List.mem_cons_of_mem _ hy)
    rw [List.forM, h x List.mem_cons_self]
    exact hrest

/-- Locations that are a forest with the default location at a root are
accepted by `checkLinks`. -/
theorem checkLinks_eq_ok {locations : List Location}
    (hn : (locations.map Location.id).Nodup)
    (hdefault : (defaultId, none) ∈ links locations)
    (hheights : ∀ x ∈ links locations, ∃ n, Height (links locations) x.1 n) :
    checkLinks locations = .ok () := by
  have hn' := nodup_links hn
  obtain ⟨d, hd, hid, hparent⟩ := mem_links_iff.1 hdefault
  have hfind := findLocation?_of_mem hn hd
  rw [hid] at hfind
  have hroot : d.parent.isSome = false := by
    rw [hparent]
    rfl
  rw [checkLinks, hfind]
  simp only [hroot, Bool.false_eq_true, if_false]
  apply forM_of_forall
  intro l hl
  cases hp : l.parent with
  | none => rw [checkChain]
  | some parent =>
    have hlink := mem_links_of_mem hl
    obtain ⟨n, hheight⟩ := hheights _ hlink
    rw [hp] at hlink
    obtain ⟨k, rfl, hk⟩ := hheight.of_hasParent hn' hlink
    -- No location up to the height of the parent is the one at the start.
    refine hk.checkChain_eq_ok hn l.id fun m hm j hj hmj => ?_
    have hne : m.id ≠ l.id := by
      intro heq
      have := hheight.unique hn' (heq ▸ hmj)
      omega
    exact List.mem_filter.2 ⟨hm, by simpa using hne⟩

namespace Archive

/-! ## The forest of an archive -/

/-- Every location has a height, the default location is at a root, and the
current location is there. -/
structure IsForest (a : Archive) : Prop where
  default : (defaultId, none) ∈ links a.locations
  current : a.hasLocation a.current
  heights : ∀ x ∈ links a.locations, ∃ n, Height (links a.locations) x.1 n

variable {a b : Archive} {anchored : Prop} {time? : Option Instant}

theorem hasLocation_iff_link {id : String} :
    a.hasLocation id ↔ ∃ parent, (id, parent) ∈ links a.locations := by
  rw [hasLocation_iff_mem, ← map_fst_links, List.mem_map]
  constructor
  · rintro ⟨x, hx, rfl⟩
    exact ⟨x.2, hx⟩
  · rintro ⟨parent, h⟩
    exact ⟨_, h, rfl⟩

theorem IsStart.isForest (h : IsStart a) : a.IsForest := by
  obtain ⟨hdefault, hheights⟩ := of_checkLinks h.isSound.links
  refine ⟨hdefault, ?_, hheights⟩
  cases h with
  | fresh => rfl
  | read h =>
    obtain ⟨root, -, h⟩ := bind_eq_ok h
    obtain ⟨c, -, rfl⟩ := map_eq_ok h
    -- The current location of the document was looked for.
    cases hf : c.current.filter
        fun id => (findLocation? c.locations id).isSome with
    | none =>
      have hcurrent : (ofContents c).current = defaultId := by
        simp only [ofContents, hf, Option.getD_none]
      rw [hcurrent]
      exact hasLocation_iff_link.2 ⟨none, hdefault⟩
    | some id =>
      have hcurrent : (ofContents c).current = id := by
        simp only [ofContents, hf, Option.getD_some]
      rw [hcurrent]
      exact (Option.filter_eq_some_iff.1 hf).2

theorem links_eq_of_edited {places : Path → Prop} {next next' : Nat}
    {ls ms : List Location}
    (h : List.Forall₂ (Location.Edited anchored time? places next next')
      ls ms) :
    links ms = links ls := by
  induction h with
  | nil => rfl
  | cons hlm _ ih =>
    rw [links, links, List.map_cons, List.map_cons, hlm.id, hlm.parent]
    exact congrArg _ ih

/-- Linking a location elsewhere leaves the other links. -/
theorem links_put {id : String} {l : Location}
    (hl : findLocation? a.locations id = some l) (parent : Option String) :
    links (a.put { l with parent }).locations =
      (links a.locations).map
        fun x => if x.1 = id then (id, parent) else x := by
  obtain ⟨-, rfl⟩ := mem_of_findLocation? hl
  rw [put, links, links, List.map_map, List.map_map]
  refine List.map_congr_left fun m _ => ?_
  by_cases hm : m.id = l.id
  · simp [hm]
  · simp [hm]

/-- A location that is linked elsewhere still has a height. -/
theorem height_of_link {ms : List Link} {id : String} {parent : Option String}
    (hkeep : ∀ x ∈ links a.locations, x.1 ≠ id → x ∈ ms)
    (hnew : (id, parent) ∈ ms)
    (hallowed : ∀ p, parent = some p → a.checkParent id p = .ok ()) :
    ∃ n, Height ms id n := by
  cases parent with
  | none => exact ⟨0, .root hnew⟩
  | some p =>
    obtain ⟨hthere, above, habove, hnot⟩ := of_checkParent (hallowed p rfl)
    unfold ancestors chain at habove
    split at habove
    · cases habove
    · rename_i q hq
      obtain ⟨hmem, rfl⟩ := mem_of_findLocation? hq
      obtain ⟨n, hn⟩ := height_of_chainFrom hkeep hmem habove hnot
      exact ⟨n + 1, .child hnew hn⟩

theorem IsForest.add (hf : a.IsForest) {id : String} {parent : Option String}
    (there : ∀ p, parent = some p → a.hasLocation p) :
    IsForest { a with
      locations := a.locations ++ [({ id, parent } : Location)] }.changed := by
  have hlinks : links (a.locations ++ [({ id, parent } : Location)]) =
      links a.locations ++ [(id, parent)] := by
    simp [links]
  have hsub : links a.locations ⊆
      links (a.locations ++ [({ id, parent } : Location)]) := by
    rw [hlinks]
    exact List.subset_append_left _ _
  have hnew : (id, parent) ∈
      links (a.locations ++ [({ id, parent } : Location)]) := by
    rw [hlinks]
    exact List.mem_append_right _ List.mem_cons_self
  refine ⟨hsub hf.default, ?_, ?_⟩
  · obtain ⟨p, hp⟩ := hasLocation_iff_link.1 hf.current
    exact hasLocation_iff_link.2 ⟨p, hsub hp⟩
  · intro x hx
    have hx : x ∈ links a.locations ++ [(id, parent)] := hlinks ▸ hx
    rcases List.mem_append.1 hx with hx | hx
    · obtain ⟨n, hn⟩ := hf.heights x hx
      exact ⟨n, hn.mono hsub⟩
    · obtain rfl := List.mem_singleton.1 hx
      cases parent with
      | none => exact ⟨0, .root hnew⟩
      | some p =>
        obtain ⟨q, hq⟩ := hasLocation_iff_link.1 (there p rfl)
        obtain ⟨n, hn⟩ := hf.heights _ hq
        exact ⟨n + 1, .child hnew (hn.mono hsub)⟩

theorem IsForest.link (hf : a.IsForest) {id : String} {l : Location}
    {parent : Option String} (proper : id ≠ defaultId)
    (found : findLocation? a.locations id = some l)
    (allowed : ∀ p, parent = some p → a.checkParent id p = .ok ()) :
    IsForest (a.put { l with parent }).changed := by
  have hlinks := links_put found parent
  have hkeep : ∀ x ∈ links a.locations, x.1 ≠ id →
      x ∈ links (a.put { l with parent }).locations := by
    intro x hx hne
    rw [hlinks]
    exact List.mem_map.2 ⟨x, hx, if_neg hne⟩
  have hnew : (id, parent) ∈ links (a.put { l with parent }).locations := by
    obtain ⟨hmem, hid⟩ := mem_of_findLocation? found
    rw [hlinks]
    exact List.mem_map.2
      ⟨(l.id, l.parent), mem_links_of_mem hmem, if_pos hid⟩
  have hid := height_of_link hkeep hnew allowed
  refine ⟨hkeep _ hf.default (Ne.symm proper), ?_, ?_⟩
  · have hids := map_id_put a { l with parent }
    exact hasLocation_iff_mem.2 (hids ▸ hasLocation_iff_mem.1 hf.current)
  · intro x hx
    have hx : x ∈ links (a.put { l with parent }).locations := hx
    rw [hlinks] at hx
    obtain ⟨y, hy, rfl⟩ := List.mem_map.1 hx
    by_cases hne : y.1 = id
    · rw [if_pos hne]
      exact hid
    · rw [if_neg hne]
      obtain ⟨n, hn⟩ := hf.heights y hy
      exact hn.redirect hkeep hid

theorem IsForest.rename (hf : a.IsForest) {id newId : String}
    (proper : id ≠ defaultId) :
    IsForest { a with
      locations := a.locations.map (relinked id newId)
      current := renamed id newId a.current }.changed := by
  have hlinks : links (a.locations.map (relinked id newId)) =
      (links a.locations).map
        fun x => (renamed id newId x.1, x.2.map (renamed id newId)) := by
    rw [links, links, List.map_map, List.map_map]
    rfl
  have hmap : ∀ x ∈ links a.locations,
      (renamed id newId x.1, x.2.map (renamed id newId)) ∈
        links (a.locations.map (relinked id newId)) := by
    intro x hx
    rw [hlinks]
    exact List.mem_map_of_mem hx
  refine ⟨?_, ?_, ?_⟩
  · have hdefault : renamed id newId defaultId = defaultId :=
      if_neg (Ne.symm proper)
    have h := hmap _ hf.default
    rw [hdefault] at h
    exact h
  · obtain ⟨p, hp⟩ := hasLocation_iff_link.1 hf.current
    exact hasLocation_iff_link.2 ⟨_, hmap _ hp⟩
  · intro x hx
    have hx : x ∈ links (a.locations.map (relinked id newId)) := hx
    rw [hlinks] at hx
    obtain ⟨y, hy, rfl⟩ := List.mem_map.1 hx
    obtain ⟨n, hn⟩ := hf.heights y hy
    exact ⟨n, hn.rename hmap⟩

theorem IsForest.remove (hf : a.IsForest) {id : String}
    (proper : id ≠ defaultId) (unused : a.current ≠ id)
    (childless : ∀ l ∈ a.locations, l.parent ≠ some id) :
    IsForest { a with locations := without a.locations id }.changed := by
  have hkeep : ∀ x ∈ links a.locations, x.1 ≠ id →
      x ∈ links (without a.locations id) := by
    intro x hx hne
    obtain ⟨l, hl, hid, hparent⟩ := mem_links_iff.1 hx
    refine mem_links_iff.2 ⟨l, List.mem_filter.2 ⟨hl, ?_⟩, hid, hparent⟩
    simpa [hid] using hne
  refine ⟨hkeep _ hf.default (Ne.symm proper), ?_, ?_⟩
  · obtain ⟨p, hp⟩ := hasLocation_iff_link.1 hf.current
    exact hasLocation_iff_link.2 ⟨p, hkeep _ hp unused⟩
  · intro x hx
    obtain ⟨l, hl, hid, hparent⟩ := mem_links_iff.1 hx
    obtain ⟨hl, hne⟩ := List.mem_filter.1 hl
    have hne : x.1 ≠ id := by
      rw [← hid]
      simpa using hne
    obtain ⟨n, hn⟩ := hf.heights x (mem_links_iff.2 ⟨l, hl, hid, hparent⟩)
    refine ⟨n, hn.remove hne hkeep ?_⟩
    intro y hy
    obtain ⟨m, hm, -, hmp⟩ := mem_links_iff.1 hy
    rw [← hmp]
    exact childless m hm

/-- Every link leads to a location that is there. -/
theorem IsForest.hasLocation_parent (hf : a.IsForest) (ha : a.WellFormed)
    {l : Location} (hl : l ∈ a.locations) {parent : String}
    (hp : l.parent = some parent) : a.hasLocation parent := by
  have hn := nodup_links ha.ids
  have hlink : HasParent (links a.locations) l.id parent :=
    mem_links_iff.2 ⟨l, hl, rfl, hp⟩
  obtain ⟨n, hheight⟩ := hf.heights _ hlink
  obtain ⟨m, -, hm⟩ := hheight.of_hasParent hn hlink
  exact hasLocation_iff_link.2 hm.mem

/-- A step keeps the forest. -/
theorem Step.isForest (h : Step anchored time? a b) (hf : a.IsForest) :
    b.IsForest := by
  cases h with
  | edit locations current =>
    have hlinks := links_eq_of_edited locations
    refine ⟨hlinks ▸ hf.default, ?_, hlinks ▸ hf.heights⟩
    rcases current with hc | hc
    · rw [hc, hasLocation_iff_link, hlinks]
      exact hasLocation_iff_link.1 hf.current
    · exact hc
  | add valid new there => exact hf.add there
  | link proper found allowed => exact hf.link proper found allowed
  | rename proper valid there new => exact hf.rename proper
  | remove proper unused childless => exact hf.remove proper unused childless
  | read own policy =>
    obtain ⟨hdefault, hcurrent, hheights⟩ := (IsStart.read own).isForest
    exact ⟨hdefault, hcurrent, hheights⟩

theorem Reachable.isForest {allowed : Operation → Prop}
    (h : Reachable allowed a) : a.IsForest :=
  h.induction_step False False.elim (fun _ ha => ha.isForest)
    fun _ _ _ _ hf hstep => hstep.isForest hf

/-! ## Ancestors -/

/-- The ancestors of a location that is there are found. -/
theorem IsForest.ancestors_eq_ok (hf : a.IsForest) (ha : a.WellFormed)
    {l : Location} (hl : l ∈ a.locations) :
    ∃ above, a.ancestors l.id = .ok (l :: above) ∧
      ((l :: above).map Location.id).Nodup ∧
      ∃ last, (l :: above).getLast? = some last ∧ last.parent = none := by
  obtain ⟨n, hn⟩ := hf.heights _ (mem_links_of_mem hl)
  have hn : Height (links a.locations) l.id n := hn
  obtain ⟨above, hchain, hlen, hnodup, -, -⟩ :=
    hn.chainFrom_of_le ha.ids hl l.id (Nat.le_refl n)
  -- The locations of the chain are different ones, so there are enough steps.
  have hle : n ≤ a.locations.length := by
    obtain ⟨_, -, hmem⟩ := of_chainFrom hl hchain
    have hsub := List.Nodup.subperm (List.Nodup.of_map _ hnodup) hmem
    have := hsub.length_le
    rw [List.length_cons] at this
    omega
  obtain ⟨above, hchain, -, hnodup, -, hlast⟩ :=
    hn.chainFrom_of_le ha.ids hl l.id hle
  refine ⟨above, ?_, hnodup, hlast⟩
  unfold ancestors chain
  rw [findLocation?_of_mem ha.ids hl]
  exact hchain

/-- The links of a reachable archive are those of a forest: no id repeats, the
default location is at a root, the current location and every parent are
there, and no location is above itself.  So the ancestors of a location are
found, each once, up to one without a parent. -/
theorem forest_of_reachable {allowed : Operation → Prop}
    (h : Reachable allowed a) :
    (a.locations.map Location.id).Nodup ∧
      (∃ l ∈ a.locations, l.id = defaultId ∧ l.parent = none) ∧
      (∃ l ∈ a.locations, l.id = a.current) ∧
      (∀ l ∈ a.locations, ∀ p, l.parent = some p →
        ∃ m ∈ a.locations, m.id = p) ∧
      (∀ l ∈ a.locations,
        ¬ Relation.TransGen (HasParent (links a.locations)) l.id l.id) ∧
      (∀ l ∈ a.locations, ∃ chain, a.ancestors l.id = .ok chain ∧
        (chain.map Location.id).Nodup ∧
        ∃ last, chain.getLast? = some last ∧ last.parent = none) ∧
      ∀ id fault, a.ancestors id ≠ .error (.corrupt fault) := by
  have hwf := h.wellFormed
  have hf := h.isForest
  have hn : ((links a.locations).map Prod.fst).Nodup := by
    rw [map_fst_links]
    exact hwf.ids
  refine ⟨hwf.ids, ?_, ?_, ?_, ?_, ?_, ?_⟩
  · obtain ⟨l, hl, hid, hparent⟩ := mem_links_iff.1 hf.default
    exact ⟨l, hl, hid, hparent⟩
  · obtain ⟨parent, hp⟩ := hasLocation_iff_link.1 hf.current
    obtain ⟨l, hl, hid, -⟩ := mem_links_iff.1 hp
    exact ⟨l, hl, hid⟩
  · intro l hl p hp
    have hlink : HasParent (links a.locations) l.id p :=
      mem_links_iff.2 ⟨l, hl, rfl, hp⟩
    obtain ⟨n, hheight⟩ := hf.heights _ hlink
    obtain ⟨m, -, hm⟩ := hheight.of_hasParent hn hlink
    obtain ⟨q, hq⟩ := hm.mem
    obtain ⟨x, hx, hid, -⟩ := mem_links_iff.1 hq
    exact ⟨x, hx, hid⟩
  · intro l hl
    obtain ⟨n, hheight⟩ := hf.heights _ (mem_links_of_mem hl)
    exact hheight.not_transGen hn
  · intro l hl
    obtain ⟨above, hchain, hnodup, hlast⟩ := hf.ancestors_eq_ok hwf hl
    exact ⟨l :: above, hchain, hnodup, hlast⟩
  · intro id fault hcorrupt
    cases hfind : findLocation? a.locations id with
    | none =>
      unfold ancestors chain at hcorrupt
      rw [hfind] at hcorrupt
      cases hcorrupt
    | some l =>
      obtain ⟨hl, rfl⟩ := mem_of_findLocation? hfind
      obtain ⟨above, hchain, -, -⟩ := hf.ancestors_eq_ok hwf hl
      rw [hchain] at hcorrupt
      cases hcorrupt

/-- The forest of a location below another one that was renamed. -/
theorem forest_of_renamed_parent :
    let a := fresh.run [.newLocation "team" none,
      .newLocation "desk" (some "team"), .rename "team" "lab"]
    links a.locations =
        [("default", none), ("lab", none), ("desk", some "lab")] ∧
      ∀ l ∈ a.locations, ∃ chain, a.ancestors l.id = .ok chain ∧
        (chain.map Location.id).Nodup ∧
        ∃ last, chain.getLast? = some last ∧ last.parent = none := by
  intro a
  have h : Reachable (fun _ => True) a :=
    ⟨fresh, _, .fresh, fun _ _ => trivial, rfl⟩
  exact ⟨by decide, (forest_of_reachable h).2.2.2.2.2.1⟩

end Archive

end SettingsArchive
