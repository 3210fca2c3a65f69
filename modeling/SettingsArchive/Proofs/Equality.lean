import SettingsArchive.Entry
import Mathlib.Data.List.Forall2

/-!
# Equal values and entries

Values are compared by `==`, and with them revisions, entries and trees.  A NaN
differs from everything, so a value that holds one does not equal itself, and
`==` is no more than symmetric and transitive.

What is done to entries does not tell equal ones apart: they have one kind
(`Entry.kind_eq_of_beq`), and they are equal again behind a write
(`Entry.beq_append`) and a trim (`Entry.beq_trim`).
-/

namespace SettingsArchive

/-! ## Equal lists -/

theorem beq_iff_forall₂ {α : Type} [BEq α] {xs ys : List α} :
    (xs == ys) = true ↔ List.Forall₂ (fun x y => x == y) xs ys := by
  induction xs generalizing ys with
  | nil => cases ys <;> simp
  | cons x xs ih => cases ys <;> simp [ih]

theorem forall₂_trans {α β γ : Type} {R : α → β → Prop} {S : β → γ → Prop}
    {T : α → γ → Prop} (h : ∀ x y z, R x y → S y z → T x z) {xs : List α}
    {ys : List β} {zs : List γ} (hR : List.Forall₂ R xs ys)
    (hS : List.Forall₂ S ys zs) : List.Forall₂ T xs zs := by
  induction hR generalizing zs with
  | nil =>
    cases hS
    exact .nil
  | cons hxy _ ih =>
    cases hS with
    | cons hyz hrest => exact .cons (h _ _ _ hxy hyz) (ih hrest)

/-- A function that has one value for what is related has one list of values for
related lists. -/
theorem map_eq_of_forall₂ {α β γ : Type} {R : α → β → Prop} {f : α → γ}
    {g : β → γ} (h : ∀ x y, R x y → f x = g y) {xs : List α} {ys : List β}
    (hR : List.Forall₂ R xs ys) : xs.map f = ys.map g := by
  rw [← List.forall₂_eq_eq_eq]
  exact List.rel_map h hR

/-- What is found in related lists is related. -/
theorem rel_find? {α β : Type} {R : α → β → Prop} {p : α → Bool} {q : β → Bool}
    (h : ∀ x y, R x y → p x = q y) {xs : List α} {ys : List β}
    (hR : List.Forall₂ R xs ys) : Option.Rel R (xs.find? p) (ys.find? q) := by
  induction hR with
  | nil => exact .none
  | @cons x y xs ys hxy _ ih =>
    rw [List.find?_cons, List.find?_cons, ← h x y hxy]
    cases p x with
    | true => exact .some hxy
    | false => exact ih

theorem rel_bind {α β γ δ : Type} {R : α → β → Prop} {S : γ → δ → Prop}
    {f : α → Option γ} {g : β → Option δ} {o : Option α} {p : Option β}
    (h : Option.Rel R o p) (hfg : ∀ x y, R x y → Option.Rel S (f x) (g y)) :
    Option.Rel S (o.bind f) (p.bind g) := by
  cases h with
  | none => exact .none
  | some hxy => exact hfg _ _ hxy

theorem beq_iff_rel {α : Type} [BEq α] {o p : Option α} :
    (o == p) = true ↔ Option.Rel (fun x y => x == y) o p := by
  cases o with
  | none => cases p with
    | none => exact iff_of_true rfl .none
    | some y => exact iff_of_false (by simp) nofun
  | some x => cases p with
    | none => exact iff_of_false (by simp) nofun
    | some y =>
      constructor
      · intro h
        exact .some h
      · rintro ⟨h⟩
        exact h

/-! ## Equal values -/

namespace Binary64

theorem beq_iff {x y : Binary64} :
    (x == y) = true ↔ x.isNaN = false ∧ y.isNaN = false ∧
      (x = y ∨ x.magnitude = 0 ∧ y.magnitude = 0) := by
  have hbits : x = y ↔ x.bits = y.bits :=
    ⟨congrArg bits, fun h => congrArg mk h⟩
  rw [hbits]
  simp [BEq.beq, and_assoc]

instance : PartialEquivBEq Binary64 where
  symm h := by
    obtain ⟨hx, hy, heq⟩ := beq_iff.1 h
    exact beq_iff.2 ⟨hy, hx, heq.imp Eq.symm And.symm⟩
  trans h k := by
    obtain ⟨hx, -, hxy⟩ := beq_iff.1 h
    obtain ⟨-, hz, hyz⟩ := beq_iff.1 k
    refine beq_iff.2 ⟨hx, hz, ?_⟩
    rcases hxy with rfl | ⟨hx, hy⟩
    · exact hyz
    · rcases hyz with rfl | ⟨-, hz⟩
      · exact Or.inr ⟨hx, hy⟩
      · exact Or.inr ⟨hx, hz⟩

end Binary64

namespace Value

mutual

theorem same_symm (v w : Value) (h : same v w) : same w v := by
  cases v with
  | struct as =>
    cases w with
    | struct bs =>
      rw [same] at h ⊢
      exact sameFields_symm as bs h
    | _ => simp [same] at h
  | bool => cases w <;> simp_all [same]
  | int => cases w <;> simp_all [same]
  | float x =>
    cases w with
    | float y =>
      rw [same] at h ⊢
      exact BEq.symm h
    | _ => simp [same] at h
  | string => cases w <;> simp_all [same]
  | bytes => cases w <;> simp_all [same]

theorem sameFields_symm (as bs : List (String × Value))
    (h : sameFields as bs) : sameFields bs as := by
  cases as with
  | nil => cases bs <;> simp_all [sameFields]
  | cons a as =>
    cases bs with
    | nil => simp [sameFields] at h
    | cons b bs =>
      obtain ⟨m, a⟩ := a
      obtain ⟨n, b⟩ := b
      simp only [sameFields, Bool.and_eq_true, beq_iff_eq] at h ⊢
      obtain ⟨⟨hname, hvalue⟩, hrest⟩ := h
      exact ⟨⟨hname.symm, same_symm a b hvalue⟩, sameFields_symm as bs hrest⟩

end

mutual

theorem same_trans (u v w : Value) (h : same u v) (k : same v w) :
    same u w := by
  cases u with
  | struct as =>
    cases v with
    | struct bs =>
      cases w with
      | struct cs =>
        rw [same] at h k ⊢
        exact sameFields_trans as bs cs h k
      | _ => simp [same] at k
    | _ => simp [same] at h
  | bool => cases v <;> cases w <;> simp_all [same]
  | int => cases v <;> cases w <;> simp_all [same]
  | float x =>
    cases v with
    | float y =>
      cases w with
      | float z =>
        rw [same] at h k ⊢
        exact BEq.trans h k
      | _ => simp [same] at k
    | _ => simp [same] at h
  | string => cases v <;> cases w <;> simp_all [same]
  | bytes => cases v <;> cases w <;> simp_all [same]

theorem sameFields_trans (as bs cs : List (String × Value))
    (h : sameFields as bs) (k : sameFields bs cs) : sameFields as cs := by
  cases as with
  | nil => cases bs <;> simp_all [sameFields]
  | cons a as =>
    cases bs with
    | nil => simp [sameFields] at h
    | cons b bs =>
      cases cs with
      | nil => simp [sameFields] at k
      | cons c cs =>
        obtain ⟨m, a⟩ := a
        obtain ⟨n, b⟩ := b
        obtain ⟨o, c⟩ := c
        simp only [sameFields, Bool.and_eq_true, beq_iff_eq] at h k ⊢
        obtain ⟨⟨hname, hvalue⟩, hrest⟩ := h
        obtain ⟨⟨kname, kvalue⟩, krest⟩ := k
        exact ⟨⟨hname.trans kname, same_trans a b c hvalue kvalue⟩,
          sameFields_trans as bs cs hrest krest⟩

end

instance : PartialEquivBEq Value where
  symm {v w} h := same_symm v w h
  trans {u v w} h k := same_trans u v w h k

end Value

/-! ## Equal entries -/

theorem Revision.beq_iff {r s : Revision} :
    (r == s) = true ↔ r.id = s.id ∧ r.time = s.time ∧ r.value == s.value ∧
      r.mask = s.mask ∧ r.superseded = s.superseded := by
  have h : (r == s) = (r.id == s.id && r.time == s.time && r.value == s.value
      && r.mask == s.mask && r.superseded == s.superseded) := rfl
  rw [h]
  simp only [Bool.and_eq_true, beq_iff_eq, and_assoc]

instance : PartialEquivBEq Revision where
  symm h := by
    obtain ⟨hid, htime, hvalue, hmask, hsuperseded⟩ := Revision.beq_iff.1 h
    exact Revision.beq_iff.2 ⟨hid.symm, htime.symm, BEq.symm hvalue, hmask.symm,
      hsuperseded.symm⟩
  trans h k := by
    obtain ⟨hid, htime, hvalue, hmask, hsuperseded⟩ := Revision.beq_iff.1 h
    obtain ⟨kid, ktime, kvalue, kmask, ksuperseded⟩ := Revision.beq_iff.1 k
    exact Revision.beq_iff.2 ⟨hid.trans kid, htime.trans ktime,
      BEq.trans hvalue kvalue, hmask.trans kmask, hsuperseded.trans ksuperseded⟩

namespace Entry

variable {d e : Entry}

theorem beq_iff : (d == e) = true ↔ d.name = e.name ∧
    List.Forall₂ (fun r s => r == s) d.past e.past ∧ d.head == e.head := by
  have h : (d == e) = (d.name == e.name && d.revisions == e.revisions) := rfl
  have hreverse : List.Forall₂ (fun r s => (r == s) = true)
      d.revisions e.revisions ↔
        d.head == e.head ∧ List.Forall₂ (fun r s => r == s) d.past e.past := by
    rw [← List.forall₂_reverse_iff, ← newestFirst_eq, ← newestFirst_eq,
      newestFirst, newestFirst, List.forall₂_cons, List.forall₂_reverse_iff]
  rw [h, Bool.and_eq_true, beq_iff_eq, beq_iff_forall₂, hreverse]
  exact and_congr_right fun _ => and_comm

instance : PartialEquivBEq Entry where
  symm h := by
    obtain ⟨hname, hpast, hhead⟩ := beq_iff.1 h
    refine beq_iff.2 ⟨hname.symm, ?_, BEq.symm hhead⟩
    exact (hpast.imp fun _ _ => BEq.symm).flip
  trans h k := by
    obtain ⟨hname, hpast, hhead⟩ := beq_iff.1 h
    obtain ⟨kname, kpast, khead⟩ := beq_iff.1 k
    exact beq_iff.2 ⟨hname.trans kname,
      forall₂_trans (fun _ _ _ => BEq.trans) hpast kpast, BEq.trans hhead khead⟩

theorem kind_eq_of_beq (h : d == e) : d.kind = e.kind := by
  obtain ⟨-, hpast, hhead⟩ := beq_iff.1 h
  obtain ⟨name, past, head⟩ := d
  obtain ⟨name', past', head'⟩ := e
  cases hpast with
  | nil => exact Value.kind_eq_of_same (Revision.beq_iff.1 hhead).2.2.1
  | cons hfirst _ => exact Value.kind_eq_of_same (Revision.beq_iff.1 hfirst).2.2.1

theorem beq_append (h : d == e) {r : Revision} (hr : r == r) :
    d.append r == e.append r := by
  obtain ⟨hname, hpast, hhead⟩ := beq_iff.1 h
  refine beq_iff.2 ⟨hname, List.rel_append hpast (.cons ?_ .nil), hr⟩
  obtain ⟨hid, htime, hvalue, hmask, hsuperseded⟩ := Revision.beq_iff.1 hhead
  cases r.mask with
  | retire => exact Revision.beq_iff.2 ⟨hid, htime, hvalue, hmask, rfl⟩
  | keep => exact hhead

theorem beq_dropSuperseded {count : Nat} {rs ss : List Revision}
    (h : List.Forall₂ (fun r s => r == s) rs ss) :
    List.Forall₂ (fun r s => r == s) (dropSuperseded count rs)
      (dropSuperseded count ss) := by
  induction h generalizing count with
  | nil => cases count <;> exact .nil
  | @cons r s rs ss hrs hrest ih =>
    cases count with
    | zero => exact .cons hrs hrest
    | succ count =>
      obtain ⟨-, -, -, -, hsuperseded⟩ := Revision.beq_iff.1 hrs
      rw [dropSuperseded, dropSuperseded, hsuperseded]
      split
      · exact ih
      · exact .cons hrs ih

theorem excess_eq_of_beq (h : d == e) (kept : Nat) :
    d.excess kept = e.excess kept := by
  have hcount {rs ss : List Revision}
      (h : List.Forall₂ (fun r s => (r == s) = true) rs ss) :
      rs.countP (·.superseded) = ss.countP (·.superseded) := by
    induction h with
    | nil => rfl
    | cons hrs _ ih =>
      rw [List.countP_cons, List.countP_cons, ih,
        (Revision.beq_iff.1 hrs).2.2.2.2]
  rw [excess, excess, hcount (beq_iff.1 h).2.1]

theorem beq_trim (h : d == e) (kept : Nat) : d.trim kept == e.trim kept := by
  obtain ⟨hname, hpast, hhead⟩ := beq_iff.1 h
  refine beq_iff.2 ⟨hname, ?_, hhead⟩
  rw [trim, trim, excess_eq_of_beq h]
  exact beq_dropSuperseded hpast

end Entry

end SettingsArchive
