import Mathlib.Data.List.Nodup

/-!
# Lists with keys

Entries, directories and locations are kept in lists and found by a key: their
name or their id.  `find?_key_eq_some_iff` says that where no key repeats, the
element that is found is the only one of its key.

Lists are also compared one by one, by `List.Forall₂`, and then what stands in
one has a partner in the other.
-/

namespace SettingsArchive

/-- In lists that are related one by one, every element on the right has one
on the left. -/
theorem exists_mem_of_forall₂ {α β : Type} {R : α → β → Prop} {xs : List α}
    {ys : List β} (h : List.Forall₂ R xs ys) {y : β} (hy : y ∈ ys) :
    ∃ x ∈ xs, R x y := by
  induction h with
  | nil => simp at hy
  | @cons x z xs ys hxz hrest ih =>
    rcases List.mem_cons.1 hy with rfl | hy
    · exact ⟨x, List.mem_cons_self, hxz⟩
    · obtain ⟨w, hw, hwy⟩ := ih hy
      exact ⟨w, List.mem_cons_of_mem _ hw, hwy⟩

/-- What stands at a place on the left has a partner at this place on the
right. -/
theorem exists_getElem?_of_forall₂ {α β : Type} {R : α → β → Prop} {xs : List α}
    {ys : List β} (h : List.Forall₂ R xs ys) {k : Nat} {x : α}
    (hx : xs[k]? = some x) : ∃ y, ys[k]? = some y ∧ R x y := by
  induction h generalizing k with
  | nil => cases hx
  | @cons z y xs ys hzy hrest ih =>
    cases k with
    | zero =>
      obtain rfl := Option.some.inj hx
      exact ⟨y, rfl, hzy⟩
    | succ k => exact ih hx

namespace Keyed

variable {α : Type} {key : α → String}

theorem find?_key_isSome_iff {xs : List α} {k : String} :
    (xs.find? (key · == k)).isSome ↔ k ∈ xs.map key := by
  simp [List.find?_isSome]

theorem find?_key_eq_none_iff {xs : List α} {k : String} :
    xs.find? (key · == k) = none ↔ k ∉ xs.map key := by
  simp [List.find?_eq_none]

/-- What is found is there and has the key. -/
theorem mem_of_find?_key (key : α → String) {xs : List α} {k : String} {x : α}
    (h : xs.find? (key · == k) = some x) : x ∈ xs ∧ key x = k :=
  ⟨List.mem_of_find?_eq_some h, by simpa using List.find?_some h⟩

/-- Where no key repeats, an element is found by its key. -/
theorem find?_key_of_mem {xs : List α} (hn : (xs.map key).Nodup) {x : α}
    (hx : x ∈ xs) : xs.find? (key · == key x) = some x := by
  induction xs with
  | nil => simp at hx
  | cons y ys ih =>
    rw [List.map_cons, List.nodup_cons] at hn
    rcases List.mem_cons.1 hx with rfl | hx
    · simp
    · have hne : key y ≠ key x := by
        intro he
        exact hn.1 (he ▸ List.mem_map_of_mem hx)
      rw [List.find?_cons_of_neg (by simpa using hne)]
      exact ih hn.2 hx

/-- No key repeats behind a new one. -/
theorem nodup_map_concat {xs : List α} (hn : (xs.map key).Nodup) {x : α}
    (hx : key x ∉ xs.map key) : ((xs ++ [x]).map key).Nodup := by
  rw [List.map_append, List.map_singleton, ← List.concat_eq_append]
  exact List.Nodup.concat hx hn

/-- Where no key repeats, the first of some elements is not among those in
front of it. -/
theorem key_notMem_of_nodup {xs ys : List α} {y : α}
    (hn : ((xs ++ y :: ys).map key).Nodup) : key y ∉ xs.map key := by
  rw [List.map_append, List.map_cons, List.nodup_append] at hn
  intro hmem
  exact hn.2.2 (key y) hmem (key y) List.mem_cons_self rfl

theorem find?_key_eq_some_iff {xs : List α} (hn : (xs.map key).Nodup)
    {k : String} {x : α} :
    xs.find? (key · == k) = some x ↔ x ∈ xs ∧ key x = k := by
  constructor
  · exact mem_of_find?_key key
  · rintro ⟨hx, rfl⟩
    exact find?_key_of_mem hn hx

end Keyed

end SettingsArchive
