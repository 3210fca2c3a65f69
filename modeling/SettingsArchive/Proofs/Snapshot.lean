import SettingsArchive.Document.Snapshot
import SettingsArchive.Proofs.Keyed
import SettingsArchive.Proofs.Path

/-!
# The order of snapshots

A snapshot sorts its settings by their places before it writes them.  Paths
are linearly ordered, so settings in different places are sorted in one way
only, and the snapshot does not depend on the order in which they come
(`toElement_congr`).
-/

namespace SettingsArchive

namespace Path

/-! ## The order of paths -/

theorem notAfter_cons_iff {s t : String} {path other : Path} :
    notAfter (s :: path) (t :: other) ↔
      s < t ∨ s = t ∧ notAfter path other := by
  simp [notAfter]

theorem notAfter_total (path other : Path) :
    notAfter path other || notAfter other path := by
  induction path generalizing other with
  | nil => simp [notAfter]
  | cons s path ih =>
    cases other with
    | nil => simp [notAfter]
    | cons t other =>
      rw [Bool.or_eq_true, notAfter_cons_iff, notAfter_cons_iff]
      by_cases hst : s = t
      · rcases Bool.or_eq_true _ _ ▸ ih other with h | h
        · exact Or.inl (Or.inr ⟨hst, h⟩)
        · exact Or.inr (Or.inr ⟨hst.symm, h⟩)
      · by_cases hlt : s < t
        · exact Or.inl (Or.inl hlt)
        · refine Or.inr (Or.inl ?_)
          have hle := String.not_lt.1 hlt
          exact Classical.not_not.1 fun hts =>
            hst (String.le_antisymm (String.not_lt.1 hts) hle)

theorem notAfter_refl (path : Path) : notAfter path path := by
  simpa using notAfter_total path path

theorem notAfter_append_left (above path other : Path) :
    notAfter (above ++ path) (above ++ other) = notAfter path other := by
  induction above with
  | nil => rfl
  | cons s above ih =>
    rw [List.cons_append, List.cons_append, Bool.eq_iff_iff, notAfter_cons_iff, ih]
    simp

theorem notAfter_trans {p q r : Path} (hpq : notAfter p q)
    (hqr : notAfter q r) : notAfter p r := by
  induction p generalizing q r with
  | nil => rfl
  | cons s p ih =>
    cases q with
    | nil => simp [notAfter] at hpq
    | cons t q =>
      cases r with
      | nil => simp [notAfter] at hqr
      | cons u r =>
        rw [notAfter_cons_iff] at hpq hqr ⊢
        rcases hpq with hst | ⟨rfl, hpq⟩
        · rcases hqr with htu | ⟨rfl, -⟩
          · exact Or.inl (String.lt_trans hst htu)
          · exact Or.inl hst
        · rcases hqr with htu | ⟨rfl, hqr⟩
          · exact Or.inl htu
          · exact Or.inr ⟨rfl, ih hpq hqr⟩

theorem notAfter_antisymm {p q : Path} (hpq : notAfter p q)
    (hqp : notAfter q p) : p = q := by
  induction p generalizing q with
  | nil =>
    cases q with
    | nil => rfl
    | cons t q => simp [notAfter] at hqp
  | cons s p ih =>
    cases q with
    | nil => simp [notAfter] at hpq
    | cons t q =>
      rw [notAfter_cons_iff] at hpq hqp
      rcases hpq with hst | ⟨rfl, hpq⟩
      · rcases hqp with hts | ⟨rfl, -⟩
        · exact absurd hts (String.lt_asymm hst)
        · exact absurd hst (String.lt_irrefl _)
      · rcases hqp with hss | ⟨-, hqp⟩
        · exact absurd hss (String.lt_irrefl _)
        · rw [ih hpq hqp]

end Path

namespace Snapshot

/-! ## Places -/

/-- The settings with their places below the root. -/
def placed (backend : Option String) (items : List (String × Value)) :
    List (Path × Value) :=
  items.filterMap fun (path, value) => (placeOf? backend path).map (·, value)

theorem sorted_eq (backend : Option String) (items : List (String × Value)) :
    sorted backend items =
      (placed backend items).mergeSort fun a b => a.1.notAfter b.1 :=
  rfl

theorem sorted_perm (backend : Option String)
    (items : List (String × Value)) :
    (sorted backend items).Perm (placed backend items) :=
  List.mergeSort_perm _ _

theorem pairwise_sorted (backend : Option String)
    (items : List (String × Value)) :
    (sorted backend items).Pairwise
      fun (x y : Path × Value) => x.1.notAfter y.1 := by
  rw [sorted_eq]
  refine List.pairwise_mergeSort ?_ ?_ _
  · intro x y z hxy hyz
    exact Path.notAfter_trans hxy hyz
  · intro x y
    exact Path.notAfter_total x.1 y.1

/-- Settings in different places are sorted in one way. -/
theorem sorted_congr {backend : Option String}
    {items others : List (String × Value)} (h : items.Perm others)
    (hn : ((placed backend items).map Prod.fst).Nodup) :
    sorted backend items = sorted backend others := by
  have hperm : (sorted backend items).Perm (sorted backend others) :=
    (sorted_perm backend items).trans
      ((h.filterMap _).trans (sorted_perm backend others).symm)
  refine hperm.eq_of_pairwise ?_ (pairwise_sorted backend items)
    (pairwise_sorted backend others)
  intro x y hx hy hxy hyx
  have hx := (sorted_perm backend items).mem_iff.1 hx
  have hy := (sorted_perm backend items).mem_iff.1 (hperm.mem_iff.2 hy)
  exact List.inj_on_of_nodup_map hn hx hy (Path.notAfter_antisymm hxy hyx)

/-- The snapshot of settings in different places does not depend on the order
in which they come. -/
theorem toElement_congr {backend : Option String}
    {items others : List (String × Value)} (h : items.Perm others)
    (hn : ((placed backend items).map Prod.fst).Nodup) :
    toElement backend items = toElement backend others := by
  unfold toElement
  rw [sorted_congr h hn]

/-! ## Settings below a backend -/

/-- The place of a path below a backend. -/
def place (backend : Option String) (path : Path) : Path :=
  match backend with
  | none => path
  | some _ => path.tail

theorem placeOf?_text {backend : Option String} {path : Path}
    (hv : path.IsValid) (hb : path.IsBelow backend) :
    placeOf? backend path.text = some (place backend path) := by
  unfold placeOf?
  rw [Path.ofText?_text_of_isValid hv]
  cases backend with
  | none => rfl
  | some b =>
    obtain ⟨rest, hne, rfl⟩ := hb b rfl
    simp [hne, place]

theorem place_injective {backend : Option String} {p q : Path}
    (hp : p.IsBelow backend) (hq : q.IsBelow backend)
    (h : place backend p = place backend q) : p = q := by
  cases backend with
  | none => exact h
  | some b =>
    obtain ⟨s, -, rfl⟩ := hp b rfl
    obtain ⟨t, -, rfl⟩ := hq b rfl
    exact congrArg _ h

/-- The settings of some paths as a snapshot takes them. -/
def named (items : List (Path × Value)) : List (String × Value) :=
  items.map fun (path, value) => (path.text, value)

theorem placed_named {backend : Option String} {items : List (Path × Value)}
    (hv : ∀ x ∈ items, x.1.IsValid) (hb : ∀ x ∈ items, x.1.IsBelow backend) :
    placed backend (named items) =
      items.map fun (path, value) => (place backend path, value) := by
  induction items with
  | nil => rfl
  | cons x items ih =>
    obtain ⟨path, value⟩ := x
    have hplace : placeOf? backend path.text = some (place backend path) :=
      placeOf?_text (hv _ List.mem_cons_self) (hb _ List.mem_cons_self)
    have hrest := ih (fun y hy => hv y (List.mem_cons_of_mem _ hy))
      fun y hy => hb y (List.mem_cons_of_mem _ hy)
    have hcons : named ((path, value) :: items) =
        (path.text, value) :: named items := rfl
    rw [hcons, placed, List.filterMap_cons]
    simp only [hplace, Option.map_some]
    exact congrArg _ hrest

/-- Different paths below a backend have different places. -/
theorem nodup_placed {backend : Option String} {items : List (Path × Value)}
    (hv : ∀ x ∈ items, x.1.IsValid) (hb : ∀ x ∈ items, x.1.IsBelow backend)
    (hn : (items.map Prod.fst).Nodup) :
    ((placed backend (named items)).map Prod.fst).Nodup := by
  have hmap : (placed backend (named items)).map Prod.fst =
      (items.map Prod.fst).map (place backend) := by
    rw [placed_named hv hb, List.map_map, List.map_map]
    rfl
  rw [hmap]
  apply hn.map_on
  intro p hp q hq hpq
  obtain ⟨x, hx, rfl⟩ := List.mem_map.1 hp
  obtain ⟨y, hy, rfl⟩ := List.mem_map.1 hq
  exact place_injective (hb x hx) (hb y hy) hpq

end Snapshot

end SettingsArchive
