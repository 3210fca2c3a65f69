import SettingsArchive.Proofs.OwnText

/-!
# How fast numbers are used up

An operation uses up one number at most, and reading its own text again gives
an archive the number of the next write that it had.  So from a new archive the
numbers come to an end only behind as many operations as there are numbers
(`nextRevision_run_fresh_le`).

The numbers in an archive are below that of the next write even where no
history is sound because several paths of one write named one setting.
-/

namespace SettingsArchive

open Directory

/-- The numbers in a tree are below a bound. -/
def Directory.IsBelow (d : Directory) (bound : Nat) : Prop :=
  ∀ path e, d.get? path = some e → ∀ r ∈ e.revisions, r.id < bound

namespace Directory

variable {d d' : Directory} {next next' : Nat}

theorem IsBelow.mono (h : d.IsBelow next) (hle : next ≤ next') :
    d.IsBelow next' :=
  fun path e he r hr => Nat.lt_of_lt_of_le (h path e he r hr) hle

theorem IsBelow.write (h : d.IsBelow (next + 1)) {path : Path}
    (hpath : path ≠ []) {r : Revision} (hr : r.id = next) :
    (d.write path r).IsBelow (next + 1) := by
  intro q e he s hs
  rw [get?_write hpath] at he
  split at he
  · obtain rfl := Option.some.inj he
    cases hget : d.get? path with
    | none =>
      rw [hget] at hs
      obtain rfl : s = r := by
        simpa [appended, Entry.ofFirst, Entry.revisions] using hs
      omega
    | some old =>
      rw [hget] at hs
      rcases Entry.id_of_mem_append hs with hid | ⟨p, hp, hid⟩
      · omega
      · have := h path old hget p hp
        omega
  · exact h q e he s hs

theorem Written.isBelow {time : Instant} {mask : Mask}
    {items : List (Path × Value)} (h : Written time next mask items d d')
    (hd : d.IsBelow (next + 1)) : d'.IsBelow (next + 1) := by
  induction h with
  | nil d => exact hd
  | cons valid _ _ ih => exact ih (hd.write valid.1 rfl)

theorem Edit.isBelow {anchored : Prop} {time? : Option Instant}
    {places : Path → Prop} (h : Edit anchored time? places next next' d d')
    (hle : next ≤ next') (hs : d.Sound) (hd : d.IsBelow next) :
    d'.IsBelow next' := by
  rcases h.sublist_or_write hs with
    hsub | ⟨time, mask, items, hw, -, hlt, -⟩
  · intro path e he r hr
    obtain ⟨old, hold, hrevisions⟩ := hsub path e he
    exact hd.mono hle path old hold r (hrevisions.subset hr)
  · exact (hw.isBelow (hd.mono (Nat.le_succ next))).mono hlt

end Directory

namespace Archive

variable {a b : Archive} {anchored : Prop} {time? : Option Instant}

/-- An archive whose numbers are below that of the next write, which is a number
of sixty-four bits. -/
structure IsNumbered (a : Archive) : Prop where
  number : a.HasNumber
  below : ∀ l ∈ a.locations, l.tree.IsBelow a.nextRevision

theorem IsStart.isNumbered (h : IsStart a) : a.IsNumbered :=
  ⟨h.hasNumber, fun l hl path e he => (h.hasHistories l hl path e he).below⟩

theorem Step.isNumbered (h : Step anchored time? a b) (ha : a.WellFormed)
    (hn : a.IsNumbered) : b.IsNumbered := by
  refine ⟨h.hasNumber hn.number, ?_⟩
  refine h.forall_tree (P := fun next d => d.IsBelow next) hn.below ?_ ?_
    fun c hc => (IsStart.read hc).isNumbered.below
  · intro path e he
    simp [Directory.empty] at he
  · intro hle l hl d hedit
    exact hedit.isBelow hle (ha.sound l hl).tree (hn.below l hl)

theorem Reachable.isNumbered {allowed : Operation → Prop}
    (h : Reachable allowed a) : a.IsNumbered :=
  h.induction_step False nofun (fun _ ha => ha.isNumbered)
    fun _ _ _ ha hn hstep => hstep.isNumbered ha hn

/-- A step uses up one number at most. -/
theorem Step.nextRevision_le (h : Step anchored time? a b) (ha : a.WellFormed)
    (hn : a.IsNumbered) : b.nextRevision ≤ a.nextRevision + 1 := by
  cases h with
  | edit _ _ _ counter => omega
  | add => exact Nat.le_succ _
  | link => exact Nat.le_succ _
  | rename => exact Nat.le_succ _
  | remove => exact Nat.le_succ _
  | @read c own policy =>
    have heq : c.nextRevision = a.nextRevision :=
      nextRevision_of_ofText_text own ha hn.number hn.below
    exact heq ▸ Nat.le_succ _

/-- No step gives a number back. -/
theorem Step.le_nextRevision (h : Step anchored time? a b) (ha : a.WellFormed)
    (hn : a.IsNumbered) : a.nextRevision ≤ b.nextRevision := by
  cases h with
  | edit _ _ _ counter => omega
  | add => exact Nat.le_refl _
  | link => exact Nat.le_refl _
  | rename => exact Nat.le_refl _
  | remove => exact Nat.le_refl _
  | @read c own policy =>
    have heq : c.nextRevision = a.nextRevision :=
      nextRevision_of_ofText_text own ha hn.number hn.below
    exact heq ▸ Nat.le_refl _

/-- A step of an operation that does not write uses up no number. -/
theorem Step.nextRevision_eq (h : Step anchored none a b) (ha : a.WellFormed)
    (hn : a.IsNumbered) : b.nextRevision = a.nextRevision := by
  cases h with
  | edit _ _ _ counter => exact counter.resolve_right (by simp)
  | add => rfl
  | link => rfl
  | rename => rfl
  | remove => rfl
  | @read c own policy =>
    have heq : c.nextRevision = a.nextRevision :=
      nextRevision_of_ofText_text own ha hn.number hn.below
    exact heq

/-- Operations use up one number each at most. -/
theorem nextRevision_run_le (ha : a.WellFormed) (hn : a.IsNumbered)
    (ops : List Operation) :
    (a.run ops).nextRevision ≤ a.nextRevision + ops.length := by
  induction ops generalizing a with
  | nil => exact Nat.le_refl _
  | cons op ops ih =>
    have hstep : Step False op.time? a (a.perform op) := step_perform ha op nofun
    have hle := hstep.nextRevision_le ha hn
    have hrest := ih (hstep.wellFormed ha) (hstep.isNumbered ha hn)
    have hrun : a.run (op :: ops) = (a.perform op).run ops := rfl
    rw [hrun, List.length_cons]
    omega

/-- The first number of a new archive is one. -/
theorem nextRevision_run_fresh_le (ops : List Operation) :
    (fresh.run ops).nextRevision ≤ ops.length + 1 := by
  have hle : (fresh.run ops).nextRevision ≤ 1 + ops.length :=
    nextRevision_run_le IsStart.fresh.wellFormed IsStart.fresh.isNumbered ops
  omega

end Archive

end SettingsArchive
