import SettingsArchive.Proofs.Arena.Passes

/-!
# What pruning keeps

A directory is dead if there is no entry at or below it.  Pruning drops the dead
directories but the root, and nothing else: `IsPruned` compares the directories of
two arenas by their paths and entries, in the order of `preorder`, which has those
of one directory in the order in which they came.

The directories of an arena are listed as those of its tree
(`map_shown_preorder`), so what pruning keeps is known from the pruned tree.
-/

namespace SettingsArchive

/-! ## Trees -/

namespace Directory

mutual

/-- The directories at and below a directory with their paths and entries. -/
def directoriesBelow (above : Path) : Directory → List (Path × List Entry)
  | ⟨_, entries, directories⟩ =>
    (above, entries) :: directoriesOfAll above directories

/-- The directories at and below some directories within one directory. -/
def directoriesOfAll (above : Path) : List Directory → List (Path × List Entry)
  | [] => []
  | d :: ds =>
    directoriesBelow (above ++ [d.name]) d ++ directoriesOfAll above ds

end

theorem directoriesOfAll_eq_flatMap (above : Path) (ds : List Directory) :
    directoriesOfAll above ds =
      ds.flatMap fun d => directoriesBelow (above ++ [d.name]) d := by
  induction ds with
  | nil => rfl
  | cons d ds ih => rw [directoriesOfAll, List.flatMap_cons, ih]

mutual

/-- There is nothing to list in a dead directory. -/
theorem entriesBelow_of_dead (above : Path) (d : Directory)
    (h : d.isLive = false) : entriesBelow above d = [] := by
  obtain ⟨name, entries, directories⟩ := d
  rw [isLive, Bool.or_eq_false_iff] at h
  have hentries : entries = [] := by simpa using h.1
  rw [entriesBelow, hentries, entriesOfAll_of_dead above directories h.2]
  rfl

theorem entriesOfAll_of_dead (above : Path) (ds : List Directory)
    (h : anyLive ds = false) : entriesOfAll above ds = [] := by
  cases ds with
  | nil => rfl
  | cons d ds =>
    rw [anyLive, Bool.or_eq_false_iff] at h
    rw [entriesOfAll, entriesBelow_of_dead _ d h.1,
      entriesOfAll_of_dead above ds h.2]
    rfl

end

mutual

/-- Pruning changes no listing. -/
theorem entriesBelow_prune (above : Path) (d : Directory) :
    entriesBelow above d.prune = entriesBelow above d := by
  obtain ⟨name, entries, directories⟩ := d
  rw [prune, entriesBelow, entriesBelow, entriesOfAll_pruneAll above directories]

theorem entriesOfAll_pruneAll (above : Path) (ds : List Directory) :
    entriesOfAll above (pruneAll ds) = entriesOfAll above ds := by
  cases ds with
  | nil => rfl
  | cons d ds =>
    have hrest := entriesOfAll_pruneAll above ds
    rw [pruneAll]
    split
    · rw [entriesOfAll, entriesOfAll, name_prune,
        entriesBelow_prune (above ++ [d.name]) d, hrest]
    · rename_i hdead
      rw [entriesOfAll, entriesBelow_of_dead _ d (Bool.eq_false_iff.2 hdead), hrest,
        List.nil_append]

end

end Directory

namespace Arena

open Directory

variable {t u : Arena} {i j : Nat}

/-! ## The directories of an arena -/

/-- The path and the entries of a directory. -/
def shown (t : Arena) (i : Nat) : Path × List Entry :=
  (t.segments i, (t.node i).entries)

/-- A directory is live if there is an entry in a directory at or below it. -/
theorem live_iff :
    t.live i ↔ ∃ j, t.Below i j ∧ (t.node j).entries ≠ [] := by
  induction i using t.induction with
  | step i ih =>
    rw [live_eq, Bool.or_eq_true, List.any_eq_true]
    constructor
    · intro h
      rcases h with h | ⟨c, hc, hlive⟩
      · exact ⟨i, Below.refl t i, by simpa using h⟩
      · obtain ⟨j, hj, hentries⟩ := (ih c hc).1 hlive
        exact ⟨j, hj.head hc, hentries⟩
    · intro ⟨j, hj, hentries⟩
      rcases below_iff.1 hj with rfl | ⟨c, hc, hj⟩
      · exact Or.inl (by simpa using hentries)
      · exact Or.inr ⟨c, hc, (ih c hc).2 ⟨j, hj, hentries⟩⟩

/-- Below a dead directory all are dead. -/
theorem not_live_of_below (h : ¬ t.live i) (hj : t.Below i j) : ¬ t.live j := by
  rw [live_iff] at h ⊢
  intro ⟨k, hk, hentries⟩
  exact h ⟨k, hj.trans hk, hentries⟩

theorem flatMap_filter {α β : Type} (p : α → Bool) (f : α → List β)
    (xs : List α) :
    (xs.filter p).flatMap f = xs.flatMap fun x => if p x then f x else [] := by
  induction xs with
  | nil => rfl
  | cons x xs ih =>
    rw [List.flatMap_cons, ← ih, List.filter_cons]
    split
    · rw [List.flatMap_cons]
    · rw [List.nil_append]

theorem map_shown_preorder (t : Arena) (i : Nat) :
    (t.preorder i).map t.shown =
      directoriesBelow (t.segments i) (t.directory i) := by
  induction i using t.induction with
  | step i ih =>
    rw [preorder_eq, directory_eq, directoriesBelow, directoriesOfAll_eq_flatMap,
      List.map_cons, List.map_flatMap, List.flatMap_map]
    refine congrArg (_ :: ·) (List.flatMap_congr fun c hc => ?_)
    rw [ih c hc, segments_child hc, name_directory]

/-- The live directories of a tree are those of the pruned tree. -/
theorem map_shown_filter_preorder (t : Arena) (i : Nat) :
    ((t.preorder i).filter fun j => j = i || t.live j).map t.shown =
      directoriesBelow (t.segments i) (t.directory i).prune := by
  induction i using t.induction with
  | step i ih =>
    have hbelow : ∀ j ∈ (t.node i).children.flatMap t.preorder,
        (decide (j = i) || t.live j) = t.live j := by
      intro j hj
      obtain ⟨c, hc, hj⟩ := List.mem_flatMap.1 hj
      have hlt := lt_of_mem_children hc
      have hle := (mem_preorder_iff.1 hj).le
      rw [decide_eq_false (by omega), Bool.false_or]
    rw [preorder_eq, List.filter_cons_of_pos (by simp), List.filter_congr hbelow,
      prune_eq, directoriesBelow, directoriesOfAll_eq_flatMap,
      directories_prune_directory, List.map_cons, List.filter_flatMap,
      List.map_flatMap, List.flatMap_map, entries_directory]
    refine congrArg (_ :: ·) ?_
    rw [flatMap_filter]
    refine List.flatMap_congr fun c hc => ?_
    split
    · rename_i hlive
      -- A live directory is kept on both sides.
      have hkept : ∀ j ∈ t.preorder c,
          t.live j = (decide (j = c) || t.live j) := by
        intro j _
        by_cases hj : j = c
        · rw [hj, hlive, Bool.or_true]
        · rw [decide_eq_false hj, Bool.false_or]
      rw [List.filter_congr hkept, ih c hc, segments_child hc, name_prune,
        name_directory]
    · rename_i hdead
      have hnone : (t.preorder c).filter t.live = [] := by
        rw [List.filter_eq_nil_iff]
        intro j hj
        exact not_live_of_below hdead (mem_preorder_iff.1 hj)
      rw [hnone]
      rfl

/-! ## Pruning -/

/-- The arena `u` is what pruning leaves of the arena `t`, and `count` directories
are gone. -/
structure IsPruned (t u : Arena) (count : Nat) : Prop where
  listing : u.entriesUnder 0 = t.entriesUnder 0
  kept : (u.preorder 0).map u.shown =
    ((t.preorder 0).filter fun i => i = 0 || t.live i).map t.shown
  count : u.size + count = t.size

/-- Every node is in the tree once, links go both ways, and the path of a directory
but the root names it. -/
structure IsWellFormed (t : Arena) : Prop where
  reached : (t.preorder 0).Perm (List.range t.size)
  linked : ∀ p c, c ∈ (t.node p).children ↔ (t.node c).parent = some p
  named : ∀ i, 0 < i → i < t.size → t.lookupDir (t.pathOf i) = some i

theorem Built.isWellFormed (h : Built t) : t.IsWellFormed where
  reached := t.preorder_perm
  linked _ _ := parent_eq_some_iff.symm
  named _ hpos hi := lookupDir_pathOf h.isNamed hpos hi

theorem isPruned_prune (t : Arena) : t.IsPruned t.prune t.dropped := by
  have hkept : (t.prune.preorder 0).map t.prune.shown =
      ((t.preorder 0).filter fun i => i = 0 || t.live i).map t.shown := by
    rw [map_shown_preorder, map_shown_filter_preorder, segments_root, segments_root]
    exact congrArg _ t.prune_tree
  refine ⟨?_, hkept, ?_⟩
  · rw [entriesUnder_directory, entriesUnder_directory, segments_root, segments_root,
      Directory.entriesUnder, Directory.entriesUnder,
      ← entriesBelow_prune [] (t.directory 0)]
    exact congrArg _ (congrArg _ t.prune_tree)
  · have hlength (t : Arena) : (t.preorder 0).length = t.size := by
      rw [t.preorder_perm.length_eq, List.length_range]
    have hsize := congrArg List.length hkept
    have hall := List.length_eq_countP_add_countP
      (fun i => decide (i = 0) || t.live i) (l := t.preorder 0)
    have hdropped : t.dropped = (t.preorder 0).countP fun i =>
        decide ¬ (decide (i = 0) || t.live i) = true := by
      refine List.countP_congr fun i _ => ?_
      simp
    rw [List.length_map, List.length_map, hlength, ← List.countP_eq_length_filter]
      at hsize
    rw [hlength, ← hdropped] at hall
    omega

/-- In a pruned arena no directory is dead. -/
theorem dropped_prune (t : Arena) : t.prune.dropped = 0 := by
  rw [dropped_tree, prune_tree, deadCount, prune_prune, Nat.sub_self]

theorem prune_prune_eq (t : Arena) : t.prune.prune = t.prune := by
  rw [prune, if_pos t.dropped_prune]

/-- Pruning drops the dead directories of an arena that is built, but never the root.
The passes leave the table of an arena in which the entries are listed as before and
the other directories are in their old order, and they count the directories that
are gone.  What they leave is built itself, so its links and names are sound.
Pruning it again drops nothing and leaves the same table. -/
theorem pruned_of_built (h : Built t) :
    (∀ i, t.live i ↔ ∃ j, t.Below i j ∧ (t.node j).entries ≠ []) ∧
    ∃ u count, t.pruneEmpty = (count, u.nodes) ∧ t.IsPruned u count ∧ Built u ∧
      u.IsWellFormed ∧ u.pruneEmpty = (0, u.nodes) := by
  have hbuilt : Built t.prune := h.behind (.change .prune)
  refine ⟨fun i => live_iff, t.prune, t.dropped, t.pruneEmpty_eq, t.isPruned_prune,
    hbuilt, hbuilt.isWellFormed, ?_⟩
  rw [pruneEmpty_eq, dropped_prune, prune_prune_eq]

/-- Two directories are left without an entry, and those behind them move up in the
table. -/
theorem pruned_of_purged_entry :
    let store (path : String) (n : Nat) : Call :=
      .change (.store path (.int (.ofNat n)) (.ofSecond n) n .retire)
    let t := empty.run [store "/a/b/x" 1, store "/c/d/y" 2,
      .change (.purge "/a/b/x")]
    t.nodes.map DirNode.name = ["", "a", "b", "c", "d"] ∧
      ∃ u : Arena, t.pruneEmpty = (2, u.nodes) ∧ u.size = 3 ∧
        (u.preorder 0).map u.segments = [[], ["c"], ["c", "d"]] ∧
        u.pruneEmpty = (0, u.nodes) := by
  intro store t
  have h : Built t := Built.empty.run _
  obtain ⟨-, u, count, hu, hpruned, -, -, hagain⟩ := pruned_of_built h
  have hdropped : t.dropped = 2 := by
    rw [dropped_tree, run_tree, tree_empty]
    decide +kernel
  have hcount : count = 2 := by
    rw [pruneEmpty_eq, hdropped] at hu
    exact (Prod.mk.inj hu).1.symm
  have hsize : t.size = 5 := by decide +kernel
  have hpaths : (directoriesBelow [] t.tree.prune).map Prod.fst =
      [[], ["c"], ["c", "d"]] := by
    rw [run_tree, tree_empty]
    decide +kernel
  refine ⟨by decide +kernel, u, hcount ▸ hu, ?_, ?_, hagain⟩
  · have hsum := hpruned.count
    omega
  · rw [← hpaths, tree, ← segments_root t, ← map_shown_filter_preorder,
      ← hpruned.kept, List.map_map]
    rfl

end Arena

end SettingsArchive
