import SettingsArchive.Proofs.Directory.FiniteMap
import SettingsArchive.Proofs.Equality
import Mathlib.Algebra.Ring.Nat

/-!
# Equal trees

What is asked of two equal trees has equal answers and leaves equal trees, as long
as no NaN is stored in them (`agrees_answer`, `beq_behind_iff`).

`beq_induction` goes through two equal trees at once.  The lemmas below it take
one function of a tree after the other, and `Directory.Call` is what may be asked
of a tree.
-/

namespace SettingsArchive.Directory

variable {d g : Directory}

/-! ## Equal trees -/

theorem sameAll_iff {ds gs : List Directory} :
    sameAll ds gs ↔ List.Forall₂ (fun d g => d == g) ds gs := by
  induction ds generalizing gs with
  | nil => cases gs <;> simp [sameAll]
  | cons d ds ih =>
    cases gs with
    | nil => simp [sameAll]
    | cons g gs =>
      rw [sameAll, Bool.and_eq_true, ih, List.forall₂_cons]
      rfl

theorem beq_iff : (d == g) = true ↔ d.name = g.name ∧
    List.Forall₂ (fun e f => e == f) d.entries g.entries ∧
    List.Forall₂ (fun c k => c == k) d.directories g.directories := by
  obtain ⟨m, es, ds⟩ := d
  obtain ⟨n, fs, gs⟩ := g
  have h : ((⟨m, es, ds⟩ : Directory) == ⟨n, fs, gs⟩) =
      same ⟨m, es, ds⟩ ⟨n, fs, gs⟩ := rfl
  rw [h, same, Bool.and_eq_true, Bool.and_eq_true, beq_iff_eq, beq_iff_forall₂,
    sameAll_iff, and_assoc]

mutual

/-- What holds of two directories if it holds of those in them, one by one, holds
of equal ones. -/
theorem beq_induction {P : Directory → Directory → Prop}
    (step : ∀ d g, d.name = g.name →
      List.Forall₂ (fun e f => e == f) d.entries g.entries →
      List.Forall₂ (fun c k => c == k ∧ P c k) d.directories g.directories →
      P d g) (d g : Directory) (h : d == g) : P d g := by
  obtain ⟨m, es, ds⟩ := d
  obtain ⟨n, fs, gs⟩ := g
  obtain ⟨hname, hentries, hdirectories⟩ := beq_iff.1 h
  exact step _ _ hname hentries (forall₂_beq_induction step ds gs hdirectories)

theorem forall₂_beq_induction {P : Directory → Directory → Prop}
    (step : ∀ d g, d.name = g.name →
      List.Forall₂ (fun e f => e == f) d.entries g.entries →
      List.Forall₂ (fun c k => c == k ∧ P c k) d.directories g.directories →
      P d g) (ds gs : List Directory)
    (h : List.Forall₂ (fun c k => c == k) ds gs) :
    List.Forall₂ (fun c k => c == k ∧ P c k) ds gs := by
  cases ds with
  | nil =>
    cases h
    exact .nil
  | cons d ds =>
    cases h with
    | cons hd hds =>
      exact .cons ⟨hd, beq_induction step d _ hd⟩
        (forall₂_beq_induction step ds _ hds)

end

instance : PartialEquivBEq Directory where
  symm {d g} h := by
    refine beq_induction (P := fun d g => g == d) ?_ d g h
    intro d g hname hentries hdirectories
    refine beq_iff.2 ⟨hname.symm, ?_, ?_⟩
    · exact (hentries.imp fun _ _ => BEq.symm).flip
    · exact (hdirectories.imp fun _ _ => And.right).flip
  trans {d g k} h hgk := by
    revert k
    refine beq_induction (P := fun d g => ∀ {k}, g == k → d == k) ?_ d g h
    intro d g hname hentries hdirectories k hgk
    obtain ⟨kname, kentries, kdirectories⟩ := beq_iff.1 hgk
    refine beq_iff.2 ⟨hname.trans kname, ?_, ?_⟩
    · exact forall₂_trans (fun _ _ _ => BEq.trans) hentries kentries
    · exact forall₂_trans (fun _ _ _ h => h.2) hdirectories kdirectories

/-! ## Looking up in equal trees -/

theorem rel_child? (h : d == g) (name : String) :
    Option.Rel (fun c k => c == k) (d.child? name) (g.child? name) := by
  refine rel_find? (fun c k hck => ?_) (beq_iff.1 h).2.2
  rw [(beq_iff.1 hck).1]

theorem rel_getOwn? (h : d == g) (name : String) :
    Option.Rel (fun e f => e == f) (d.getOwn? name) (g.getOwn? name) := by
  refine rel_find? (fun e f hef => ?_) (beq_iff.1 h).2.1
  rw [(Entry.beq_iff.1 hef).1]

theorem rel_get? (h : d == g) (path : Path) :
    Option.Rel (fun e f => e == f) (d.get? path) (g.get? path) := by
  induction path generalizing d g with
  | nil => exact .none
  | cons s path ih =>
    by_cases hpath : path = []
    · rw [hpath]
      exact rel_getOwn? h s
    · rw [get?_cons hpath, get?_cons hpath]
      exact rel_bind (rel_child? h s) fun _ _ => ih

theorem rel_lookup (h : d == g) (t : String) :
    Option.Rel (fun e f => e == f) (d.lookup t) (g.lookup t) := by
  unfold lookup
  cases Path.ofText? t with
  | none => exact .none
  | some path => exact rel_get? h path

theorem checkWrite_eq_of_beq (h : d == g) (t : String) (value : Value)
    (time : Instant) : d.checkWrite t value time = g.checkWrite t value time := by
  unfold checkWrite
  cases Path.ofText? t with
  | none => rfl
  | some path =>
    have hrel := rel_get? h path
    dsimp only
    generalize d.get? path = o at hrel
    generalize g.get? path = p at hrel
    cases hrel with
    | none => rfl
    | some hef =>
      obtain ⟨-, -, hhead⟩ := Entry.beq_iff.1 hef
      obtain ⟨-, htime, -⟩ := Revision.beq_iff.1 hhead
      simp only [Entry.kind_eq_of_beq hef, htime]

/-! ## Changing equal trees -/

theorem forall₂_putEntry {change : Option Entry → Entry}
    (hchange : ∀ o p, Option.Rel (fun e f => (e == f) = true) o p →
      change o == change p) (name : String) {es fs : List Entry}
    (h : List.Forall₂ (fun e f => e == f) es fs) :
    List.Forall₂ (fun e f => e == f) (putEntry name change es)
      (putEntry name change fs) := by
  induction h with
  | nil => exact .cons (hchange none none .none) .nil
  | @cons e f es fs hef hrest ih =>
    rw [putEntry, putEntry, (Entry.beq_iff.1 hef).1]
    split
    · exact .cons (hchange _ _ (.some hef)) hrest
    · exact .cons hef ih

theorem forall₂_putChild {change : Directory → Directory}
    (hchange : ∀ c k, c == k → change c == change k) (name : String)
    {ds gs : List Directory} (h : List.Forall₂ (fun c k => c == k) ds gs) :
    List.Forall₂ (fun c k => c == k) (putChild name change ds)
      (putChild name change gs) := by
  induction h with
  | nil =>
    have hnew : ({ name } : Directory) == { name } :=
      beq_iff.2 ⟨rfl, .nil, .nil⟩
    exact .cons (hchange _ _ hnew) .nil
  | @cons c k ds gs hck hrest ih =>
    rw [putChild, putChild, (beq_iff.1 hck).1]
    split
    · exact .cons (hchange _ _ hck) hrest
    · exact .cons hck ih

theorem beq_put {change : Option Entry → Entry}
    (hchange : ∀ o p, Option.Rel (fun e f => (e == f) = true) o p →
      change o == change p) (path : Path) (h : d == g) :
    put change path d == put change path g := by
  induction path generalizing d g with
  | nil => exact h
  | cons s path ih =>
    obtain ⟨hname, hentries, hdirectories⟩ := beq_iff.1 h
    by_cases hpath : path = []
    · rw [hpath]
      exact beq_iff.2 ⟨hname, forall₂_putEntry hchange s hentries, hdirectories⟩
    · rw [put_cons hpath, put_cons hpath]
      exact beq_iff.2 ⟨hname, hentries,
        forall₂_putChild (fun _ _ => ih) s hdirectories⟩

theorem beq_write (h : d == g) (path : Path) {r : Revision} (hr : r == r) :
    d.write path r == g.write path r := by
  refine beq_put (fun o p hop => ?_) path h
  cases hop with
  | none => exact Entry.beq_iff.2 ⟨rfl, .nil, hr⟩
  | some hef => exact Entry.beq_append hef hr

theorem forall₂_eraseEntry (name : String) {es fs : List Entry}
    (h : List.Forall₂ (fun e f => e == f) es fs) :
    List.Forall₂ (fun e f => e == f) (eraseEntry name es)
      (eraseEntry name fs) := by
  induction h with
  | nil => exact .nil
  | @cons e f es fs hef hrest ih =>
    rw [eraseEntry, eraseEntry, (Entry.beq_iff.1 hef).1]
    split
    · exact hrest
    · exact .cons hef ih

theorem forall₂_changeChild {change : Directory → Directory}
    (hchange : ∀ c k, c == k → change c == change k) (name : String)
    {ds gs : List Directory} (h : List.Forall₂ (fun c k => c == k) ds gs) :
    List.Forall₂ (fun c k => c == k) (changeChild name change ds)
      (changeChild name change gs) := by
  induction h with
  | nil => exact .nil
  | @cons c k ds gs hck hrest ih =>
    rw [changeChild, changeChild, (beq_iff.1 hck).1]
    split
    · exact .cons (hchange _ _ hck) hrest
    · exact .cons hck ih

theorem beq_erase (path : Path) (h : d == g) : erase path d == erase path g := by
  induction path generalizing d g with
  | nil => exact h
  | cons s path ih =>
    obtain ⟨hname, hentries, hdirectories⟩ := beq_iff.1 h
    by_cases hpath : path = []
    · rw [hpath]
      exact beq_iff.2 ⟨hname, forall₂_eraseEntry s hentries, hdirectories⟩
    · rw [erase_cons hpath, erase_cons hpath]
      exact beq_iff.2 ⟨hname, hentries,
        forall₂_changeChild (fun _ _ => ih) s hdirectories⟩

theorem beq_trim (h : d == g) (kept : Nat) : d.trim kept == g.trim kept := by
  refine beq_induction (P := fun d g => d.trim kept == g.trim kept) ?_ d g h
  intro d g hname hentries hdirectories
  rw [trim_eq_mapEntries, trim_eq_mapEntries]
  refine beq_iff.2 ⟨by simpa using hname, ?_, ?_⟩
  · rw [entries_mapEntries, entries_mapEntries]
    refine List.rel_map ?_ hentries
    intro e f hef
    exact Entry.beq_trim hef kept
  · rw [directories_mapEntries, directories_mapEntries]
    refine List.rel_map (fun c k hck => ?_) hdirectories
    rw [← trim_eq_mapEntries, ← trim_eq_mapEntries]
    exact hck.2

theorem isLive_eq_of_beq (h : d == g) : d.isLive = g.isLive := by
  refine beq_induction (P := fun d g => d.isLive = g.isLive) ?_ d g h
  intro d g _ hentries hdirectories
  have hlive := map_eq_of_forall₂ (fun _ _ hck => hck.2) hdirectories
  have hany : d.directories.any isLive = g.directories.any isLive := by
    simpa [List.any_map] using congrArg (·.any id) hlive
  have hempty : d.entries.isEmpty = g.entries.isEmpty := by
    rw [Bool.eq_iff_iff, List.isEmpty_iff_length_eq_zero,
      List.isEmpty_iff_length_eq_zero, hentries.length_eq]
  rw [isLive_eq, isLive_eq, hempty, hany]

theorem beq_prune (h : d == g) : d.prune == g.prune := by
  refine beq_induction (P := fun d g => d.prune == g.prune) ?_ d g h
  intro d g hname hentries hdirectories
  refine beq_iff.2 ⟨by simpa using hname, by simpa using hentries, ?_⟩
  rw [directories_prune, directories_prune]
  refine List.rel_map (fun _ _ hck => hck.2) (List.rel_filter ?_ hdirectories)
  intro c k hck
  show c.isLive = true ↔ k.isLive = true
  rw [isLive_eq_of_beq hck.1]

/-! ## Counting and listing equal trees -/

theorem directoryCount_eq_sum (d : Directory) :
    d.directoryCount = (d.directories.map fun c => c.directoryCount + 1).sum := by
  have hall (ds : List Directory) : directoryCountOfAll ds =
      (ds.map fun c => c.directoryCount + 1).sum := by
    induction ds with
    | nil => rfl
    | cons d ds ih => rw [directoryCountOfAll, ih, List.map_cons, List.sum_cons]
  obtain ⟨name, entries, directories⟩ := d
  exact hall directories

theorem directoryCount_eq_of_beq (h : d == g) :
    d.directoryCount = g.directoryCount := by
  refine beq_induction (P := fun d g => d.directoryCount = g.directoryCount) ?_
    d g h
  intro d g _ _ hdirectories
  have hcounts := map_eq_of_forall₂
    (fun c k hck => congrArg (· + 1) hck.2) hdirectories
  rw [directoryCount_eq_sum, directoryCount_eq_sum, hcounts]

theorem deadCount_eq_of_beq (h : d == g) : d.deadCount = g.deadCount := by
  rw [deadCount, deadCount, directoryCount_eq_of_beq h,
    directoryCount_eq_of_beq (beq_prune h)]

theorem forall₂_entriesBelow (h : d == g) (above : Path) :
    List.Forall₂ (fun x y => x.1 = y.1 ∧ x.2 == y.2) (entriesBelow above d)
      (entriesBelow above g) := by
  revert above
  refine beq_induction (P := fun d g => ∀ above, List.Forall₂
    (fun x y => x.1 = y.1 ∧ x.2 == y.2) (entriesBelow above d)
      (entriesBelow above g)) ?_ d g h
  intro d g _ hentries hdirectories above
  obtain ⟨m, es, ds⟩ := d
  obtain ⟨n, fs, gs⟩ := g
  rw [entriesBelow, entriesBelow, entriesOfAll_eq_flatMap,
    entriesOfAll_eq_flatMap]
  refine List.rel_append (List.rel_map ?_ hentries)
    (List.rel_flatMap hdirectories ?_)
  · intro e f hef
    exact ⟨congrArg (above ++ [·]) (Entry.beq_iff.1 hef).1, hef⟩
  · rintro c k ⟨hck, hall⟩
    have hname : above ++ [c.name] = above ++ [k.name] :=
      congrArg (above ++ [·]) (beq_iff.1 hck).1
    show List.Forall₂ _ (entriesBelow (above ++ [c.name]) c) _
    rw [hname]
    exact hall _

theorem beq_entriesUnder (h : d == g) (above : Path) :
    entriesUnder above d == entriesUnder above g := by
  refine beq_iff_forall₂.2 (List.rel_map ?_ (forall₂_entriesBelow h above))
  rintro ⟨path, e⟩ ⟨q, f⟩ ⟨rfl, hef⟩
  have hname : e.name = f.name := (Entry.beq_iff.1 hef).1
  simp only [hname]
  exact Bool.and_eq_true_iff.2 ⟨beq_self_eq_true _, hef⟩

theorem entryCount_eq_of_beq (h : d == g) : d.entryCount = g.entryCount := by
  rw [← length_entriesBelow [], ← length_entriesBelow []]
  exact (forall₂_entriesBelow h []).length_eq

theorem excess_eq_sum (d : Directory) (kept : Nat) :
    d.excess kept = ((d.allEntries.map Prod.snd).map (·.excess kept)).sum := by
  unfold excess
  induction d.allEntries with
  | nil => rfl
  | cons x xs ih =>
    rw [List.foldr_cons, ih, List.map_cons, List.map_cons, List.sum_cons]

theorem excess_eq_of_beq (h : d == g) (kept : Nat) :
    d.excess kept = g.excess kept := by
  have hexcess := map_eq_of_forall₂
    (fun _ _ hxy => Entry.excess_eq_of_beq hxy.2 kept) (forall₂_entriesBelow h [])
  rw [excess_eq_sum, excess_eq_sum, List.map_map, List.map_map]
  exact congrArg List.sum hexcess

/-! ## Calls of equal trees -/

/-- A call of a tree: a change, or a question that leaves the tree as it is. -/
inductive Call where
  | change (c : Change)
  | check (t : String) (value : Value) (time : Instant)
  | lookup (t : String)
  | count
  | list

/-- A call that stores a value stores one that equals itself, which is one without
a NaN in it. -/
def Call.IsSelfEqual : Call → Prop
  | .change (.store _ value _ _ _) => value == value
  | _ => True

/-- What a call answers. -/
inductive Answer where
  | done
  | refused (reason : ArchiveError)
  | entry (found : Option Entry)
  | number (count : Nat)
  | entries (listed : List (String × Entry))

/-- Answers that are equal, with the entries in them compared by `==`. -/
inductive Answer.Agrees : Answer → Answer → Prop where
  | done : Agrees .done .done
  | refused (reason : ArchiveError) : Agrees (.refused reason) (.refused reason)
  | entry {o p : Option Entry} (h : o == p) : Agrees (.entry o) (.entry p)
  | number (count : Nat) : Agrees (.number count) (.number count)
  | entries {xs ys : List (String × Entry)} (h : xs == ys) :
      Agrees (.entries xs) (.entries ys)

/-- The answer to what may be refused. -/
def Answer.ofExcept {α : Type} : Except ArchiveError α → Answer
  | .ok _ => .done
  | .error reason => .refused reason

/-- What a tree answers to a call. -/
def answer (d : Directory) : Call → Answer
  | .change (.store t value time id mask) =>
    .ofExcept (d.store t value time id mask)
  | .change (.purge t) => .entry (d.purge t).1
  | .change .prune => .number d.deadCount
  | .change (.trim kept) => .number (d.excess kept)
  | .check t value time => .ofExcept (d.checkWrite t value time)
  | .lookup t => .entry (d.lookup t)
  | .count => .number d.entryCount
  | .list => .entries (entriesUnder [] d)

/-- The tree that a call leaves behind. -/
def behind (d : Directory) : Call → Directory
  | .change c => d.perform c
  | _ => d

/-- A value is refused by equal trees for one reason, or written to both. -/
theorem store_of_beq (h : d == g) (t : String) (value : Value) (time : Instant)
    (id : Nat) (mask : Mask) :
    (∃ reason, d.store t value time id mask = .error reason ∧
        g.store t value time id mask = .error reason) ∨
      ∃ path, path ≠ [] ∧
        d.store t value time id mask =
          .ok (d.write path ⟨id, time, value, mask, false⟩) ∧
        g.store t value time id mask =
          .ok (g.write path ⟨id, time, value, mask, false⟩) := by
  have hcheck := checkWrite_eq_of_beq h t value time
  unfold store
  rw [← hcheck]
  cases d.checkWrite t value time with
  | error reason => exact Or.inl ⟨reason, rfl, rfl⟩
  | ok =>
    cases hpath : Path.ofText? t with
    | none => exact Or.inl ⟨.invalidPath t, rfl, rfl⟩
    | some path => exact Or.inr ⟨path, Path.ne_nil_of_ofText? hpath, rfl, rfl⟩

/-- Equal trees have equal answers. -/
theorem agrees_answer (h : d == g) (call : Call) :
    (d.answer call).Agrees (g.answer call) := by
  match call with
  | .change (.store t value time id mask) =>
    rcases store_of_beq h t value time id mask with
      ⟨reason, hd, hg⟩ | ⟨path, -, hd, hg⟩
    · simp only [answer, hd, hg]
      exact .refused reason
    · simp only [answer, hd, hg]
      exact .done
  | .change (.purge t) =>
    simp only [answer, purge]
    cases Path.ofText? t with
    | none => exact .entry rfl
    | some path => exact .entry (beq_iff_rel.2 (rel_get? h path))
  | .change .prune =>
    rw [answer, answer, deadCount_eq_of_beq h]
    exact .number _
  | .change (.trim kept) =>
    rw [answer, answer, excess_eq_of_beq h]
    exact .number _
  | .check t value time =>
    rw [answer, answer, checkWrite_eq_of_beq h]
    cases g.checkWrite t value time with
    | error reason => exact .refused reason
    | ok => exact .done
  | .lookup t => exact .entry (beq_iff_rel.2 (rel_lookup h t))
  | .count =>
    rw [answer, answer, entryCount_eq_of_beq h]
    exact .number _
  | .list => exact .entries (beq_entriesUnder h [])

/-- Trees that are equal behind a write have a value in them that equals
itself. -/
theorem value_beq_of_beq_write {path : Path} (hpath : path ≠ []) {r : Revision}
    (h : d.write path r == g.write path r) : r.value == r.value := by
  have hhead (o : Option Entry) (name : String) : (appended name r o).head = r := by
    cases o with
    | none => rfl
    | some e => rfl
  have hrel := rel_get? h path
  rw [get?_write hpath, get?_write hpath, if_pos rfl, if_pos rfl] at hrel
  obtain ⟨hef⟩ := hrel
  obtain ⟨-, -, hr⟩ := Entry.beq_iff.1 hef
  rw [hhead, hhead] at hr
  exact (Revision.beq_iff.1 hr).2.2.1

/-- Behind a call equal trees are equal, unless a NaN was stored. -/
theorem beq_behind_iff (h : d == g) (call : Call) :
    d.behind call == g.behind call ↔
      call.IsSelfEqual ∨ ∃ reason, d.answer call = .refused reason := by
  match call with
  | .change (.store t value time id mask) =>
    rcases store_of_beq h t value time id mask with
      ⟨reason, hd, hg⟩ | ⟨path, hpath, hd, hg⟩
    · simp only [behind, perform, answer, hd, hg]
      exact iff_of_true h (Or.inr ⟨reason, rfl⟩)
    · simp only [behind, perform, answer, hd, hg]
      constructor
      · intro hbehind
        exact Or.inl (value_beq_of_beq_write hpath hbehind)
      · rintro (hvalue | ⟨reason, hrefused⟩)
        · exact beq_write h path
            (Revision.beq_iff.2 ⟨rfl, rfl, hvalue, rfl, rfl⟩)
        · cases hrefused
  | .change (.purge t) =>
    refine iff_of_true ?_ (Or.inl trivial)
    simp only [behind, perform, purge]
    cases Path.ofText? t with
    | none => exact h
    | some path => exact beq_erase path h
  | .change .prune => exact iff_of_true (beq_prune h) (Or.inl trivial)
  | .change (.trim kept) => exact iff_of_true (beq_trim h kept) (Or.inl trivial)
  | .check _ _ _ | .lookup _ | .count | .list =>
    exact iff_of_true h (Or.inl trivial)

end SettingsArchive.Directory
