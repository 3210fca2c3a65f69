import SettingsArchive.Proofs.Loading
import SettingsArchive.Proofs.Planning

/-!
# Writes

Four operations write values: of one setting, of some settings, of a snapshot,
and of a rollback.  Each is dated, and each may be refused before it began, be
carried out, or end halfway.  `Archive.Write` is what they have in common: at
most one location changes, and its tree changes by writes of one instant and
one number.

`write_perform` says that every operation with an instant is such a write.  What
holds of writes is then proved from the relation.
-/

namespace SettingsArchive

open Directory

/-- What writes of one instant and number do to a location. -/
structure Location.Written (time : Instant) (number : Nat) (mask : Mask)
    (items : List (Path × Value)) (l m : Location) : Prop where
  id : m.id = l.id
  parent : m.parent = l.parent
  tree : Directory.Written time number mask items l.tree m.tree
  backends : l.HasSoundBackends → m.HasSoundBackends

theorem Location.Written.ensureBackend {time : Instant} {number : Nat}
    {mask : Mask} {items : List (Path × Value)} {l m : Location}
    (h : l.Written time number mask items m) {backend : String}
    (hb : isValidBackend backend) :
    l.Written time number mask items (m.ensureBackend backend) := by
  refine ⟨?_, ?_, ?_, fun hl => (h.backends hl).ensure hb⟩
  · rw [id_ensureBackend, h.id]
  · rw [parent_ensureBackend, h.parent]
  · rw [tree_ensureBackend]
    exact h.tree

namespace Archive

/-- A path where an archive may write: it has a backend, or there is a setting
of that path in some location. -/
def HasPlace (a : Archive) (path : Path) : Prop :=
  2 ≤ path.length ∨ ∃ l ∈ a.locations, ∃ e, l.tree.get? path = some e

/-- What an operation leaves that writes at an instant and treats earlier
revisions by its mask.  If it was not refused one location has changed, and
unless there was nothing to write a number is used up.

Several texts of one write may name the same setting when a slash in front is
left out.  `anchored` says that this does not happen. -/
inductive Write (anchored : Prop) (time : Instant) (mask : Mask) (a : Archive) :
    Archive → Prop where
  | refused : Write anchored time mask a a
  | written {l m : Location} {b : Archive}
      {items : List (Path × Value)} (found : l ∈ a.locations)
      (location : l.Written time a.nextRevision mask items m)
      (places : ∀ path ∈ items.map Prod.fst, a.HasPlace path)
      (distinct : anchored → (items.map Prod.fst).Nodup)
      (counted : items = [] ∧ b = a ∨
        a.nextRevision < Numeral.maxWord ∧ b = a.counted)
      (dirty : Bool) : Write anchored time mask a { b.put m with dirty }

variable {a b : Archive} {anchored : Prop}

/-! ## One setting -/

theorem write_storeValue {id t : String} {value : Value} {time : Instant}
    {mask : Mask} {n : Nat}
    (hb : a.storeValue id t value time mask = .ok (n, b)) :
    Write anchored time mask a b := by
  obtain ⟨backend, l, path, hbackend, hl, hpath, hfits, rfl, hlt, rfl⟩ :=
    of_storeValue hb
  have hw : l.Written time a.nextRevision mask [(path, value)] { l with
      tree := l.tree.write path ⟨a.nextRevision, time, value, mask, false⟩ } :=
    ⟨rfl, rfl, .cons (Path.isValid_of_ofText? hpath) hfits (.nil _),
      fun hs => hs⟩
  have hplace : a.HasPlace path :=
    Or.inl (Path.two_le_length_of_backendOf hbackend hpath)
  exact .written (mem_of_findLocation? hl).1
    (hw.ensureBackend (Path.isValidBackend_of_backendOf hbackend))
    (by simpa using hplace) (fun _ => by simp) (Or.inr ⟨hlt, rfl⟩) true

/-! ## Some settings -/

/-- Different texts that spell each path in one way name different paths. -/
theorem nodup_of_names {items : List (String × Value)}
    {placed : List (Path × Value)} (h : List.Forall₂ Names items placed)
    (ha : Path.SpelledOnce (items.map Prod.fst))
    (hn : (items.map Prod.fst).Nodup) : (placed.map Prod.fst).Nodup := by
  induction h with
  | nil => exact List.nodup_nil
  | @cons item x items placed hname hrest ih =>
    rw [List.map_cons, List.nodup_cons] at hn ⊢
    refine ⟨?_, ih (ha.subset (List.subset_cons_self _ _)) hn.2⟩
    intro hx
    obtain ⟨y, hy, hyx⟩ := List.mem_map.1 hx
    obtain ⟨other, hother, hnames⟩ := exists_mem_of_forall₂ hrest hy
    have hmem : other.1 ∈ items.map Prod.fst := List.mem_map_of_mem hother
    have hsome : (Path.ofText? other.1).isSome := by
      rw [hnames.1]
      rfl
    have hpath : Path.ofText? other.1 = Path.ofText? item.1 := by
      rw [hnames.1, hname.1, hyx]
    have htext : other.1 = item.1 :=
      ha other.1 (List.mem_cons_of_mem _ hmem) item.1 List.mem_cons_self hsome
        hpath
    exact hn.1 (htext ▸ hmem)

/-- Settings that lie below a backend have places. -/
theorem hasPlace_of_names {items : List (String × Value)}
    {placed : List (Path × Value)} (h : List.Forall₂ Names items placed)
    {backend : String}
    (hb : ∀ item ∈ items, Path.backendOf item.1 = .ok backend) :
    ∀ path ∈ placed.map Prod.fst, a.HasPlace path := by
  intro path hpath
  obtain ⟨x, hx, rfl⟩ := List.mem_map.1 hpath
  obtain ⟨item, hitem, hname⟩ := exists_mem_of_forall₂ h hx
  exact Or.inl (Path.two_le_length_of_backendOf (hb item hitem) hname.1)

theorem isBelow_of_names {items : List (String × Value)}
    {placed : List (Path × Value)} (h : List.Forall₂ Names items placed)
    {backend : String}
    (hb : ∀ item ∈ items, Path.backendOf item.1 = .ok backend) :
    ∀ x ∈ placed, x.1.IsBelow (some backend) := by
  rintro x hx _ ⟨⟩
  obtain ⟨item, hitem, hname⟩ := exists_mem_of_forall₂ h hx
  obtain ⟨name, rest, hpath⟩ := Path.backendOf_eq_ok_iff.1 (hb item hitem)
  exact ⟨name :: rest, List.cons_ne_nil _ _,
    Option.some.inj (hname.1.symm.trans hpath)⟩

theorem write_storeDocument {id backend : String}
    {items : List (String × Value)} {time : Instant} {mask : Mask}
    (ha : anchored → Path.SpelledOnce (items.map Prod.fst)) :
    Write anchored time mask a
      (a.storeDocument id backend items time mask).2 := by
  unfold storeDocument
  cases hp : a.prepareDocument id backend items time with
  | error e => exact .refused
  | ok prepared =>
    obtain ⟨l, n, b⟩ := prepared
    obtain ⟨hbackend, hl, hitems, hcount⟩ := of_prepareDocument hp
    obtain ⟨hn, hall⟩ := of_checkItems hitems
    obtain ⟨done, rest, placed, tree, rfl, hnames, hw, hwritten, -⟩ :=
      writeAll_written l time (n.getD 0) mask items
    have hdone : ∀ item ∈ done, item ∈ done ++ rest :=
      fun item hi => List.mem_append_left rest hi
    have hplaces := hasPlace_of_names (a := a) hnames
      fun item hi => (hall item (hdone item hi)).2.1
    have hdistinct : anchored → (placed.map Prod.fst).Nodup := by
      intro hanchored
      rw [List.map_append] at hn
      have hspelled := ha hanchored
      rw [List.map_append] at hspelled
      exact nodup_of_names hnames
        (hspelled.subset (List.subset_append_left _ _)) hn.of_append_left
    -- Either nothing was written, or the writes took a number.
    have hcounted : l.Written time a.nextRevision mask placed { l with tree } ∧
        (placed = [] ∧ b = a ∨
          a.nextRevision < Numeral.maxWord ∧ b = a.counted) := by
      rcases hcount with ⟨hnil, -, rfl⟩ | ⟨-, rfl, hlt, rfl⟩
      · obtain ⟨rfl, -⟩ := List.append_eq_nil_iff.1 hnil
        cases hnames
        cases hw
        exact ⟨⟨rfl, rfl, .nil _, fun hs => hs⟩, Or.inl ⟨rfl, rfl⟩⟩
      · exact ⟨⟨rfl, rfl, hw, fun hs => hs⟩, Or.inr ⟨hlt, rfl⟩⟩
    obtain ⟨hlocation, hcounted⟩ := hcounted
    have hmem := (mem_of_findLocation? hl).1
    cases hr : writeAll l time (n.getD 0) mask (done ++ rest) with
    | mk answer m =>
      rw [hr] at hwritten
      subst hwritten
      simp only [hr]
      cases answer with
      | error e =>
        exact .written hmem hlocation hplaces hdistinct hcounted b.dirty
      | ok =>
        exact .written hmem (hlocation.ensureBackend hbackend) hplaces hdistinct
          hcounted true

theorem write_storeSnapshot {id backend text : String} {time : Instant}
    {mask : Mask} :
    Write anchored time mask a
      (a.storeSnapshot id backend text time mask).2 := by
  unfold storeSnapshot
  split
  · exact .refused
  · split
    · exact .refused
    · rename_i hitems
      exact write_storeDocument fun _ =>
        Snapshot.spelledOnce_of_ofElement hitems

/-! ## Rollbacks -/

theorem write_rollback (h : a.WellFormed) {id : String}
    {request : RollbackRequest} {now : Instant} :
    Write anchored now .retire a (a.rollback id request now).2 := by
  unfold rollback
  cases hp : a.prepareRollback id request now with
  | error e => exact .refused
  | ok prepared =>
    obtain ⟨plan, l, n, b⟩ := prepared
    obtain ⟨hplan, hl, hcount⟩ := of_prepareRollback hp
    rcases hcount with ⟨-, rfl, rfl⟩ | ⟨-, rfl, hlt, rfl⟩
    · exact .refused
    · obtain ⟨hpaths, hn⟩ := paths_of_plan (fun m hm => (h.sound m hm).tree) hplan
      obtain ⟨hmem, -⟩ := mem_of_findLocation? hl
      obtain ⟨done, rest, tree, m, hsplit, hw, hm, hid, hparent, rfl, hsb, -⟩ :=
        applyAll_written l (h.sound l hmem).backends now a.nextRevision
          plan.resolved fun x hx => (hpaths x hx).1
      have hdone : ∀ x ∈ done, x ∈ plan.resolved := by
        intro x hx
        rw [hsplit]
        exact List.mem_append_left rest hx
      have hplaces : ∀ path ∈ done.map Prod.fst, a.HasPlace path := by
        intro path hpath
        obtain ⟨x, hx, rfl⟩ := List.mem_map.1 hpath
        exact Or.inr (hpaths x (hdone x hx)).2
      have hdistinct : (done.map Prod.fst).Nodup := by
        rw [hsplit, List.map_append] at hn
        exact hn.of_append_left
      have hlocation : l.Written now a.nextRevision .retire done m :=
        ⟨hid, hparent, hw, fun _ => hsb⟩
      cases hr : applyAll l now a.nextRevision plan.resolved with
      | mk answer m' =>
        rw [hr] at hm
        subst hm
        simp only [hr]
        cases answer with
        | error e =>
          exact .written hmem hlocation hplaces (fun _ => hdistinct)
            (Or.inr ⟨hlt, rfl⟩) a.dirty
        | ok =>
          exact .written hmem hlocation hplaces (fun _ => hdistinct)
            (Or.inr ⟨hlt, rfl⟩) true

/-! ## Operations with an instant -/

/-- The instant of an operation that writes. -/
def Operation.time? : Operation → Option Instant
  | .storeValue _ _ _ time _ => some time
  | .storeDocument _ _ _ time _ => some time
  | .storeSnapshot _ _ _ time _ => some time
  | .rollback _ _ now => some now
  | _ => none

/-- How an operation that writes treats the revisions that its own follow.  A
rollback retires them. -/
def Operation.mask? : Operation → Option Mask
  | .storeValue _ _ _ _ mask => some mask
  | .storeDocument _ _ _ _ mask => some mask
  | .storeSnapshot _ _ _ _ mask => some mask
  | .rollback _ _ _ => some .retire
  | _ => none

theorem Operation.exists_mask? {op : Operation} {time : Instant}
    (h : op.time? = some time) : ∃ mask, op.mask? = some mask := by
  cases op with
  | storeValue | storeDocument | storeSnapshot | rollback => exact ⟨_, rfl⟩
  | _ => cases h

theorem write_perform (h : a.WellFormed) {op : Operation} {time : Instant}
    {mask : Mask} (htime : op.time? = some time) (hmask : op.mask? = some mask)
    (hop : anchored → op.SpelledOnce) :
    Write anchored time mask a (a.perform op) := by
  cases op with
  | storeValue id path value t m =>
    obtain rfl : t = time := Option.some.inj htime
    obtain rfl : m = mask := Option.some.inj hmask
    show Write anchored t m a
      (a.orElse ((a.storeValue id path value t m).map Prod.snd))
    cases hb : a.storeValue id path value t m with
    | error e => exact .refused
    | ok x => exact write_storeValue hb
  | storeDocument id backend items t m =>
    obtain rfl : t = time := Option.some.inj htime
    obtain rfl : m = mask := Option.some.inj hmask
    exact write_storeDocument hop
  | storeSnapshot id backend text t m =>
    obtain rfl : t = time := Option.some.inj htime
    obtain rfl : m = mask := Option.some.inj hmask
    exact write_storeSnapshot
  | rollback id request now =>
    obtain rfl : now = time := Option.some.inj htime
    obtain rfl : .retire = mask := Option.some.inj hmask
    exact write_rollback h
  | _ => cases htime

end Archive

end SettingsArchive
