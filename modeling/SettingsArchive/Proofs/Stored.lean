import SettingsArchive.Proofs.Lineage

/-!
# What a number stored

A number stands for one write, and the histories of a location say what was
stored under it.  `Directory.Stored` reads that off a tree.  A write adds what
it stores under its own number (`Written.stored_iff`), and what is stored under
the numbers before it stays: `Directory.Keeps` compares two trees by it.

Only purging, trimming, renaming and removing take something from a location
(`Operation.Loses`).  Whatever other operations come, the location keeps what it
stored (`keeps_run`).  Reading a saved archive replaces each NaN by the one that
documents have, so values are compared by `Value.ifSaved`.
-/

namespace SettingsArchive

open Directory

/-- The value as it is when it was never saved, or when it was. -/
def Value.ifSaved (saved : Bool) (value : Value) : Value :=
  if saved then value.canonical else value

theorem Value.ifSaved_ifSaved (first second : Bool) (value : Value) :
    (value.ifSaved first).ifSaved second = value.ifSaved (first || second) := by
  cases first <;> cases second <;> simp [ifSaved]

@[simp]
theorem Value.kind_ifSaved (saved : Bool) (value : Value) :
    (value.ifSaved saved).kind = value.kind := by
  cases saved <;> simp [ifSaved]

/-! ## Trees -/

/-- Behind a write an entry has its value under its number. -/
theorem Entry.exists_mem_append_iff (e : Entry) (r : Revision) {n : Nat}
    {value : Value} :
    (∃ s ∈ (e.append r).revisions, s.id = n ∧ s.value = value) ↔
      (∃ s ∈ e.revisions, s.id = n ∧ s.value = value) ∨
        r.id = n ∧ r.value = value := by
  obtain ⟨hid, -, hvalue, -⟩ := retired_eq r.mask e.head
  simp [append, revisions, or_and_right, exists_or, hid, hvalue, or_assoc]

namespace Directory

variable {d d' d'' : Directory} {n : Nat} {path : Path} {value : Value}

/-- The value was stored at the path under this number, and the history of the
setting still has it. -/
def Stored (d : Directory) (n : Nat) (path : Path) (value : Value) : Prop :=
  ∃ e, d.get? path = some e ∧ ∃ r ∈ e.revisions, r.id = n ∧ r.value = value

theorem stored_of_get? {e : Entry} (he : d.get? path = some e) :
    d.Stored n path value ↔ ∃ r ∈ e.revisions, r.id = n ∧ r.value = value := by
  simp [Stored, he]

theorem not_stored_of_get? (he : d.get? path = none) :
    ¬ d.Stored n path value := by
  simp [Stored, he]

/-- A write stores its value under its number. -/
theorem stored_write (hpath : path ≠ []) (d : Directory) (r : Revision)
    {q : Path} :
    (d.write path r).Stored n q value ↔
      d.Stored n q value ∨ q = path ∧ r.id = n ∧ r.value = value := by
  have hget := get?_write hpath d r q
  by_cases hq : q = path
  · subst hq
    rw [if_pos rfl] at hget
    rw [stored_of_get? hget]
    cases he : d.get? q with
    | none =>
      rw [or_iff_right (not_stored_of_get? he)]
      simp [appended, Entry.ofFirst, Entry.revisions]
    | some e =>
      rw [stored_of_get? he, appended, Entry.exists_mem_append_iff]
      simp
  · rw [if_neg hq] at hget
    simp [Stored, hget, hq]

/-- Writes store their values under their number. -/
theorem Written.stored_iff {time : Instant} {id : Nat} {mask : Mask}
    {items : List (Path × Value)} (h : Written time id mask items d d')
    {q : Path} :
    d'.Stored n q value ↔ d.Stored n q value ∨ id = n ∧ (q, value) ∈ items := by
  induction h with
  | nil d => simp
  | @cons first v items d d' valid _ _ ih =>
    rw [ih, stored_write valid.1, or_assoc, List.mem_cons, Prod.mk.injEq]
    refine or_congr_right ?_
    constructor
    · rintro (⟨hq, hid, hv⟩ | ⟨hid, hmem⟩)
      · exact ⟨hid, Or.inl ⟨hq, hv.symm⟩⟩
      · exact ⟨hid, Or.inr hmem⟩
    · rintro ⟨hid, ⟨hq, hv⟩ | hmem⟩
      · exact Or.inl ⟨hq, hid, hv.symm⟩
      · exact Or.inr ⟨hid, hmem⟩

/-- Under numbers below a bound the second tree stores what the first one does,
saved in between or not. -/
def Keeps (bound : Nat) (saved : Bool) (d d' : Directory) : Prop :=
  ∀ n < bound, ∀ path value, d'.Stored n path value ↔
    ∃ v, d.Stored n path v ∧ value = v.ifSaved saved

theorem Keeps.of_iff {bound : Nat}
    (h : ∀ n < bound, ∀ path value,
      d'.Stored n path value ↔ d.Stored n path value) :
    d.Keeps bound false d' := by
  intro n hn path value
  rw [h n hn]
  constructor
  · intro hstored
    exact ⟨value, hstored, rfl⟩
  · rintro ⟨v, hstored, rfl⟩
    exact hstored

theorem Keeps.refl (bound : Nat) (d : Directory) : d.Keeps bound false d :=
  .of_iff fun _ _ _ _ => Iff.rfl

theorem Keeps.mono {bound bound' : Nat} {saved : Bool}
    (h : d.Keeps bound' saved d') (hle : bound ≤ bound') :
    d.Keeps bound saved d' :=
  fun n hn => h n (Nat.lt_of_lt_of_le hn hle)

theorem Keeps.trans {bound : Nat} {saved saved' : Bool}
    (h : d.Keeps bound saved d') (k : d'.Keeps bound saved' d'') :
    d.Keeps bound (saved || saved') d'' := by
  intro n hn path value
  rw [k n hn]
  constructor
  · rintro ⟨w, hw, rfl⟩
    obtain ⟨v, hv, rfl⟩ := (h n hn path w).1 hw
    exact ⟨v, hv, v.ifSaved_ifSaved saved saved'⟩
  · rintro ⟨v, hv, rfl⟩
    exact ⟨v.ifSaved saved, (h n hn path _).2 ⟨v, hv, rfl⟩,
      (v.ifSaved_ifSaved saved saved').symm⟩

theorem Sound.keeps_prune (h : d.Sound) (bound : Nat) :
    d.Keeps bound false d.prune := by
  refine .of_iff fun n _ path value => ?_
  unfold Stored
  rw [h.get?_prune]

/-- Writes of a later number leave what is stored before it. -/
theorem Written.keeps {time : Instant} {id : Nat} {mask : Mask}
    {items : List (Path × Value)} (h : Written time id mask items d d') :
    d.Keeps id false d' := by
  refine .of_iff fun n hn path value => ?_
  rw [h.stored_iff, or_iff_left]
  rintro ⟨rfl, -⟩
  exact Nat.lt_irrefl _ hn

end Directory

/-- A location that is read from the element of another one stores what that
one does. -/
theorem Location.ReadFrom.keeps {l m : Location}
    (h : ReadFrom (Contents.locationElement l) m) (hl : l.tree.Sound)
    {bound : Nat} (hbelow : l.tree.IsBelow bound)
    (hbound : bound ≤ Numeral.maxWord) : l.tree.Keeps bound true m.tree := by
  have hget := Contents.get?_eq_canonical_of_readFrom h hl
    fun path e he r hr => by
      have := hbelow path e he r hr
      omega
  intro n _ path value
  cases he : l.tree.get? path with
  | none =>
    have hm : m.tree.get? path = none := by rw [hget, he]; rfl
    simp [Stored, he, hm]
  | some e =>
    have hm : m.tree.get? path = some e.canonical := by rw [hget, he]; rfl
    simp only [stored_of_get? he, stored_of_get? hm, Entry.revisions_canonical]
    constructor
    · rintro ⟨s, hs, rfl, rfl⟩
      obtain ⟨r, hr, rfl⟩ := List.mem_map.1 hs
      exact ⟨r.value, ⟨r, hr, rfl, rfl⟩, rfl⟩
    · rintro ⟨v, ⟨r, hr, rfl, rfl⟩, rfl⟩
      exact ⟨r.canonical, List.mem_map_of_mem hr, rfl, rfl⟩

/-! ## Archives -/

namespace Archive

variable {a b c : Archive} {id : String}

/-- An operation that takes settings of the location of this id away, or its
id. -/
def Operation.Loses (id : String) : Operation → Prop
  | .rename other _ => other = id
  | .removeLocation other => other = id
  | .purge other _ => other = id
  | .trim other _ => other = id
  | _ => False

/-- The location of this id is still there, it stores what it did, and no number
is given back. -/
structure Keeps (id : String) (saved : Bool) (a b : Archive) : Prop where
  counter : a.nextRevision ≤ b.nextRevision
  location : ∀ l ∈ a.locations, l.id = id → ∃ m ∈ b.locations, m.id = id ∧
    l.tree.Keeps a.nextRevision saved m.tree

theorem Keeps.refl (id : String) (a : Archive) : Keeps id false a a :=
  ⟨Nat.le_refl _, fun l hl hid => ⟨l, hl, hid, .refl _ _⟩⟩

theorem Keeps.trans {saved saved' : Bool} (h : Keeps id saved a b)
    (k : Keeps id saved' b c) : Keeps id (saved || saved') a c := by
  refine ⟨Nat.le_trans h.counter k.counter, fun l hl hid => ?_⟩
  obtain ⟨m, hm, hmid, hlm⟩ := h.location l hl hid
  obtain ⟨x, hx, hxid, hmx⟩ := k.location m hm hmid
  exact ⟨x, hx, hxid, hlm.trans (hmx.mono h.counter)⟩

/-- An operation that takes nothing from a location leaves it under its id. -/
theorem idBehind_of_not_loses {op : Operation} (hop : ¬ op.Loses id) :
    a.idBehind id op = some id := by
  cases op with
  | rename oldId newId =>
    have hne : id ≠ oldId := fun heq => hop heq.symm
    simp only [idBehind]
    split
    · rw [renamed, if_neg hne]
    · rfl
  | removeLocation other =>
    have hne : other ≠ id := hop
    simp only [idBehind]
    split
    · rw [if_neg hne]
    · rfl
  | _ => rfl

/-- What an operation does to a location from which it takes nothing keeps what
is stored there. -/
theorem keeps_of_changed {op : Operation} {next : Nat} {l m : Location}
    (h : l.Changed op next m) (hop : ¬ op.Loses l.id) (hl : l.tree.Sound)
    (hbelow : l.tree.IsBelow next) (hbound : next ≤ Numeral.maxWord) :
    ∃ saved, (saved = true → op = .reload) ∧ l.tree.Keeps next saved m.tree := by
  cases h with
  | kept tree => exact ⟨false, nofun, tree ▸ .refl _ _⟩
  | pruned tree => exact ⟨false, nofun, tree ▸ hl.keeps_prune _⟩
  | written _ written => exact ⟨false, nofun, written.keeps⟩
  | purged purges =>
    subst purges
    exact absurd rfl hop
  | trimmed trims =>
    subst trims
    exact absurd rfl hop
  | read reads element =>
    exact ⟨true, fun _ => reads, element.keeps hl hbelow hbound⟩

/-- An operation that takes nothing from the location of this id keeps what it
stores. -/
theorem keeps_perform (ha : a.WellFormed) (hn : a.IsNumbered) {op : Operation}
    (hop : ¬ op.Loses id) :
    ∃ saved, (saved = true → op = .reload) ∧ Keeps id saved a (a.perform op) := by
  have hstep : Step False op.time? a (a.perform op) := step_perform ha op nofun
  have hcounter := hstep.le_nextRevision ha hn
  by_cases hthere : ∃ l ∈ a.locations, l.id = id
  · obtain ⟨l, hl, rfl⟩ := hthere
    obtain ⟨m, hm, hmid, hchanged⟩ :=
      changed_perform ha hl (idBehind_of_not_loses hop)
    obtain ⟨saved, hsaved, hkeeps⟩ := keeps_of_changed hchanged hop (ha.trees l hl)
      (hn.below l hl) hn.number.bound
    refine ⟨saved, hsaved, hcounter, fun k hk hkid => ?_⟩
    obtain rfl := List.inj_on_of_nodup_map ha.ids hk hl hkid
    exact ⟨m, hm, hmid, hkeeps⟩
  · exact ⟨false, nofun, hcounter,
      fun l hl hid => absurd ⟨l, hl, hid⟩ hthere⟩

/-- Whatever operations come, a location from which they take nothing keeps what
it stores. -/
theorem keeps_run (ha : a.WellFormed) (hn : a.IsNumbered) {ops : List Operation}
    (hops : ∀ op ∈ ops, ¬ op.Loses id) :
    ∃ saved, (saved = true → .reload ∈ ops) ∧ Keeps id saved a (a.run ops) := by
  have hrun : (a.run ops).IsNumbered ∧
      ∃ saved, (saved = true → .reload ∈ ops) ∧ Keeps id saved a (a.run ops) := by
    refine (run_induction_step (P := fun b => b.IsNumbered ∧
      ∃ saved, (saved = true → .reload ∈ ops) ∧ Keeps id saved a b) ha
      ⟨hn, false, nofun, .refl id a⟩ ?_).2
    rintro b op hop hb ⟨hnb, saved, hsaved, hkeeps⟩ hstep
    obtain ⟨saved', hsaved', hkeeps'⟩ := keeps_perform hb hnb (hops op hop)
    refine ⟨hstep.isNumbered hb hnb, saved || saved', ?_, hkeeps.trans hkeeps'⟩
    intro hor
    rcases Bool.or_eq_true _ _ ▸ hor with htrue | htrue
    · exact hsaved htrue
    · exact hsaved' htrue ▸ hop
  exact hrun.2

end Archive

end SettingsArchive
