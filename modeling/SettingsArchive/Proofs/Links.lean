import SettingsArchive.Proofs.Keyed
import SettingsArchive.Proofs.Operations

/-!
# Chains of locations

`chainFrom` follows the links of a location upwards.  The lemmas here say what
one step of it does and what locations it goes through.
-/

namespace SettingsArchive

variable {locations : List Location} {start : String}

theorem mem_of_findLocation? {id : String} {l : Location}
    (h : findLocation? locations id = some l) : l ∈ locations ∧ l.id = id :=
  Keyed.mem_of_find?_key Location.id h

theorem findLocation?_of_mem (hn : (locations.map Location.id).Nodup)
    {l : Location} (h : l ∈ locations) :
    findLocation? locations l.id = some l :=
  Keyed.find?_key_of_mem hn h

/-! ## One step -/

/-- A chain ends at a location without a parent. -/
theorem chainFrom_of_none {l : Location} (h : l.parent = none) (steps : Nat) :
    chainFrom locations start steps l = .ok [l] := by
  cases steps with
  | zero => rw [chainFrom, h]
  | succ steps => rw [chainFrom, h]

theorem chainFrom_zero {l : Location} {parent : String}
    (h : l.parent = some parent) :
    chainFrom locations start 0 l = .error (.corrupt (.endlessChain start)) := by
  rw [chainFrom, h]

theorem chainFrom_succ {l : Location} {parent : String}
    (h : l.parent = some parent) (steps : Nat) :
    chainFrom locations start (steps + 1) l =
      match findLocation? locations parent with
      | none => .error (.locationNotFound parent)
      | some p => (chainFrom locations start steps p).map (l :: ·) := by
  rw [chainFrom, h]
  rfl

/-! ## The whole chain -/

/-- What holds of the chain of a location without a parent, and of a chain if
it holds of the chain of the parent, holds of every chain. -/
theorem chainFrom_induction {P : Location → List Location → Prop}
    (root : ∀ l ∈ locations, l.parent = none → P l [l])
    (child : ∀ l ∈ locations, ∀ p ∈ locations, l.parent = some p.id →
      ∀ above, P p above → P l (l :: above))
    {steps : Nat} {l : Location} {ls : List Location} (hl : l ∈ locations)
    (h : chainFrom locations start steps l = .ok ls) : P l ls := by
  induction steps generalizing l ls with
  | zero =>
    cases hp : l.parent with
    | none =>
      rw [chainFrom_of_none hp] at h
      injection h with h
      exact h ▸ root l hl hp
    | some parent =>
      rw [chainFrom_zero hp] at h
      cases h
  | succ steps ih =>
    cases hp : l.parent with
    | none =>
      rw [chainFrom_of_none hp] at h
      injection h with h
      exact h ▸ root l hl hp
    | some parent =>
      rw [chainFrom_succ hp] at h
      split at h
      · cases h
      · rename_i p hfind
        obtain ⟨above, habove, rfl⟩ := map_eq_ok h
        obtain ⟨hpl, rfl⟩ := mem_of_findLocation? hfind
        exact child l hl p hpl hp above (ih hpl habove)

/-- A chain begins with its location and goes through locations that are
there. -/
theorem of_chainFrom {steps : Nat} {l : Location} {ls : List Location}
    (hl : l ∈ locations) (h : chainFrom locations start steps l = .ok ls) :
    ∃ above, ls = l :: above ∧ ∀ m ∈ ls, m ∈ locations := by
  apply chainFrom_induction _ _ hl h
  · intro l hl _
    exact ⟨[], rfl, List.forall_mem_singleton.2 hl⟩
  · rintro l hl p - - above ⟨-, -, hmem⟩
    exact ⟨above, rfl, List.forall_mem_cons.2 ⟨hl, hmem⟩⟩

/-! ## Changed locations -/

section Map

variable {g : Location → Location} (hid : ∀ l ∈ locations, (g l).id = l.id)
  (hparent : ∀ l ∈ locations, (g l).parent = l.parent)

include hid

theorem findLocation?_map (id : String) :
    findLocation? (locations.map g) id = (findLocation? locations id).map g := by
  induction locations with
  | nil => rfl
  | cons l ls ih =>
    have hl := hid l List.mem_cons_self
    have hls : ∀ m ∈ ls, (g m).id = m.id :=
      fun m hm => hid m (List.mem_cons_of_mem _ hm)
    unfold findLocation? at ih ⊢
    rw [List.map_cons, List.find?_cons, List.find?_cons, hl]
    split
    · rfl
    · exact ih hls

include hparent

/-- Where ids and links stay, chains go through the changed locations. -/
theorem chainFrom_map {steps : Nat} {l : Location} (hl : l ∈ locations) :
    chainFrom (locations.map g) start steps (g l) =
      (chainFrom locations start steps l).map (List.map g) := by
  induction steps generalizing l with
  | zero =>
    cases hp : l.parent with
    | none =>
      rw [chainFrom_of_none hp, chainFrom_of_none ((hparent l hl).trans hp)]
      rfl
    | some parent =>
      rw [chainFrom_zero hp, chainFrom_zero ((hparent l hl).trans hp)]
      rfl
  | succ steps ih =>
    cases hp : l.parent with
    | none =>
      rw [chainFrom_of_none hp, chainFrom_of_none ((hparent l hl).trans hp)]
      rfl
    | some parent =>
      rw [chainFrom_succ hp, chainFrom_succ ((hparent l hl).trans hp),
        findLocation?_map hid]
      cases hfind : findLocation? locations parent with
      | none => rfl
      | some p =>
        simp only [Option.map_some]
        rw [ih (mem_of_findLocation? hfind).1]
        cases chainFrom locations start steps p with
        | error e => rfl
        | ok ls => rfl

theorem chain_map (id : String) :
    chain (locations.map g) id = (chain locations id).map (List.map g) := by
  unfold chain
  rw [findLocation?_map hid, List.length_map]
  cases hfind : findLocation? locations id with
  | none => rfl
  | some l => exact chainFrom_map hid hparent (mem_of_findLocation? hfind).1

end Map

end SettingsArchive
