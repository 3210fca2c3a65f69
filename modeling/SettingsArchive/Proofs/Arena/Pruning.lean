import SettingsArchive.Proofs.Arena.Changing

/-!
# Pruning arenas

Pruning an arena copies the nodes that are kept to a new one, which numbers them
afresh, in the order of `preorder`.  An arena that loses no directory stays as it
is, with the numbers that it has.

* `dropped_tree` says that the nodes that are not kept are as many as the
  directories that the tree loses.
* `Attached` is what the copy of a directory does to the arena that it is copied
  to: one node has more directories in it, and all others that were there stay.
* `prune_tree` puts both together.
-/

namespace SettingsArchive

namespace Directory

/-- Pruning changes the directories of a directory. -/
theorem prune_eq (d : Directory) :
    d.prune = ⟨d.name, d.entries, d.prune.directories⟩ := by
  obtain ⟨name, entries, directories⟩ := d
  rw [prune]

end Directory

namespace Arena

open Directory

variable {t u v w : Arena} {i j c p : Nat}

/-! ## Live directories -/

/-- Whether there is an entry at or below a directory. -/
def live (t : Arena) (i : Nat) : Bool :=
  !(t.node i).entries.isEmpty ||
    (t.node i).children.attach.any fun c => t.live c.1
termination_by t.size - i
decreasing_by exact size_sub_lt c.2

/-- How many directories pruning drops.  The root is never dropped. -/
def dropped (t : Arena) : Nat :=
  (t.preorder 0).countP fun i => i ≠ 0 && !t.live i

theorem live_eq (t : Arena) (i : Nat) :
    t.live i =
      (!(t.node i).entries.isEmpty || (t.node i).children.any t.live) := by
  rw [live, List.any_subtype (fun _ _ => rfl), List.unattach_attach]

theorem isLive_directory (t : Arena) (i : Nat) :
    (t.directory i).isLive = t.live i := by
  induction i using t.induction with
  | step i ih =>
    rw [isLive_eq, live_eq, entries_directory, directories_directory, List.any_map]
    have hany : (t.node i).children.any (isLive ∘ t.directory) =
        (t.node i).children.any t.live := by
      rw [Bool.eq_iff_iff, List.any_eq_true, List.any_eq_true]
      refine exists_congr fun c => and_congr_right fun hc => ?_
      rw [Function.comp_apply, ih c hc]
    rw [hany]

theorem directories_prune_directory (t : Arena) (i : Nat) :
    (t.directory i).prune.directories =
      ((t.node i).children.filter t.live).map fun c => (t.directory c).prune := by
  have hlive : isLive ∘ t.directory = t.live := funext t.isLive_directory
  rw [directories_prune, directories_directory, List.filter_map, hlive,
    List.map_map]
  rfl

/-! ## Counting -/

/-- The nodes below a node are the directories below its own. -/
theorem length_below (t : Arena) (i : Nat) :
    ((t.node i).children.flatMap t.preorder).length =
      (t.directory i).directoryCount := by
  induction i using t.induction with
  | step i ih =>
    rw [directoryCount_eq_sum, directories_directory, List.map_map,
      List.length_flatMap]
    refine congrArg _ (List.map_congr_left fun c hc => ?_)
    rw [preorder_eq, List.length_cons, ih c hc]
    rfl

/-- The live nodes below a node are the directories that are kept. -/
theorem countP_live_below (t : Arena) (i : Nat) :
    ((t.node i).children.flatMap t.preorder).countP t.live =
      (t.directory i).prune.directoryCount := by
  induction i using t.induction with
  | step i ih =>
    rw [directoryCount_eq_sum, directories_prune_directory, List.map_map,
      List.countP_flatMap]
    have hchild : ∀ c ∈ (t.node i).children,
        ((List.countP t.live ∘ t.preorder) c) =
          if t.live c then (t.directory c).prune.directoryCount + 1 else 0 := by
      intro c hc
      rw [Function.comp_apply, preorder_eq, List.countP_cons, ih c hc]
      split
      · rfl
      · rename_i hdead
        have hnone : (t.node c).children.filter t.live = [] := by
          rw [live_eq, Bool.or_eq_true, not_or] at hdead
          simpa using hdead.2
        rw [directoryCount_eq_sum, directories_prune_directory, hnone]
        rfl
    rw [List.map_congr_left hchild, List.sum_map_ite]
    simp [Function.comp_def]

/-- The nodes that are dropped are those below the root that are not live. -/
theorem dropped_eq (t : Arena) : t.dropped =
    ((t.node 0).children.flatMap t.preorder).countP fun i => ¬ t.live i := by
  rw [dropped, preorder_eq, List.countP_cons_of_neg (by simp)]
  refine List.countP_congr fun i hi => ?_
  obtain ⟨c, hc, hi⟩ := List.mem_flatMap.1 hi
  have hlt := lt_of_mem_children hc
  have hle := (mem_preorder_iff.1 hi).le
  have hroot : i ≠ 0 := by omega
  simp [hroot]

theorem dropped_tree (t : Arena) : t.dropped = t.tree.deadCount := by
  have hall := List.length_eq_countP_add_countP t.live
    (l := (t.node 0).children.flatMap t.preorder)
  rw [← dropped_eq, length_below, countP_live_below] at hall
  rw [deadCount, tree]
  omega

/-- Nothing is pruned where all directories below hold an entry. -/
theorem prune_directory_of_live
    (h : ∀ j ∈ (t.node i).children.flatMap t.preorder, t.live j) :
    (t.directory i).prune = t.directory i := by
  induction i using t.induction with
  | step i ih =>
    have hmem {c j : Nat} (hc : c ∈ (t.node i).children) (hj : j ∈ t.preorder c) :
        j ∈ (t.node i).children.flatMap t.preorder :=
      List.mem_flatMap.2 ⟨c, hc, hj⟩
    have hchildren : (t.directory i).prune.directories =
        (t.node i).children.map t.directory := by
      rw [directories_prune_directory, List.filter_eq_self.2 fun c hc =>
        h c (hmem hc (mem_preorder_iff.2 (Below.refl t c)))]
      refine List.map_congr_left fun c hc => ih c hc fun j hj => h j (hmem hc ?_)
      rw [preorder_eq]
      exact List.mem_cons_of_mem _ hj
    rw [prune_eq, hchildren, name_directory, entries_directory, ← directory_eq]

/-! ## Copying -/

/-- The arena `v` is `u` with these directories added to the directory `p`. -/
structure Attached (u : Arena) (p : Nat) (ds : List Directory) (v : Arena) :
    Prop where
  size : u.size ≤ v.size
  node : ∀ j < u.size, j ≠ p → v.node j = u.node j
  directory : v.directory p =
    { u.directory p with directories := (u.directory p).directories ++ ds }

theorem Attached.refl (u : Arena) (p : Nat) : Attached u p [] u := by
  refine ⟨Nat.le_refl _, fun _ _ _ => rfl, ?_⟩
  rw [List.append_nil]
  cases u.directory p
  rfl

theorem Attached.trans {ds es : List Directory} (h : Attached u p ds v)
    (h' : Attached v p es w) : Attached u p (ds ++ es) w where
  size := Nat.le_trans h.size h'.size
  node j hj hne :=
    (h'.node j (Nat.lt_of_lt_of_le hj h.size) hne).trans (h.node j hj hne)
  directory := by
    rw [h'.directory, h.directory, List.append_assoc]

/-- A new directory, and what is added to it, is added to the directory that it is
in. -/
theorem Attached.of_addChild {name : String} {entries : List Entry}
    {ds : List Directory} (hp : p < u.size)
    (h : Attached (u.addChild p name entries) u.size ds v) :
    Attached u p [⟨name, entries, ds⟩] v := by
  have hsize : (u.addChild p name entries).size = u.size + 1 := size_addChild hp
  have hold : ∀ j < u.size, v.node j = (u.addChild p name entries).node j :=
    fun j hj => h.node j (by omega) (Nat.ne_of_lt hj)
  refine ⟨by have := h.size; omega, fun j hj hne => ?_, ?_⟩
  · rw [hold j hj, node_addChild_of_ne hp (Nat.ne_of_lt hj) hne]
  · rw [directory_of_addChild hp hold, h.directory, directory_addChild_new hp,
      directory_eq u p]
    rfl

/-- Copies the directories below the node `i` that hold an entry to the node `p` of
another arena, one after the other. -/
def rebuild (t : Arena) (i : Nat) (u : Arena) (p : Nat) : Arena :=
  (t.node i).children.attach.foldl (fun u c =>
    if t.live c.1 then
      t.rebuild c.1 (u.addChild p (t.node c.1).name (t.node c.1).entries) u.size
    else u) u
termination_by t.size - i
decreasing_by exact size_sub_lt c.2

theorem rebuild_eq (t : Arena) (i : Nat) (u : Arena) (p : Nat) :
    t.rebuild i u p = ((t.node i).children.filter t.live).foldl (fun u c =>
      t.rebuild c (u.addChild p (t.node c).name (t.node c).entries) u.size) u := by
  rw [rebuild, List.foldl_filter]
  conv_rhs => rw [← List.attach_map_subtype_val (t.node i).children, List.foldl_map]

/-- The copy of a directory has the directories that pruning keeps. -/
theorem attached_rebuild (hp : p < u.size) :
    Attached u p (t.directory i).prune.directories (t.rebuild i u p) := by
  induction i using t.induction generalizing u p with
  | step i ih =>
    have hall {u : Arena} {cs : List Nat} (hcs : ∀ c ∈ cs, c ∈ (t.node i).children)
        (hp : p < u.size) : Attached u p (cs.map fun c => (t.directory c).prune)
          (cs.foldl (fun u c => t.rebuild c
            (u.addChild p (t.node c).name (t.node c).entries) u.size) u) := by
      induction cs generalizing u with
      | nil => exact Attached.refl u p
      | cons c cs ihc =>
        obtain ⟨hc, hcs⟩ := List.forall_mem_cons.1 hcs
        have hcopy : Attached u p [(t.directory c).prune]
            (t.rebuild c (u.addChild p (t.node c).name (t.node c).entries)
              u.size) := by
          rw [prune_eq, name_directory, entries_directory]
          refine Attached.of_addChild hp (ih c hc ?_)
          rw [size_addChild hp]
          exact Nat.lt_succ_self u.size
        exact hcopy.trans (ihc hcs (Nat.lt_of_lt_of_le hp hcopy.size))
    rw [rebuild_eq, directories_prune_directory]
    exact hall (fun c hc => List.mem_of_mem_filter hc) hp

/-! ## Pruning -/

/-- An arena of one directory. -/
def single (name : String) (entries : List Entry) : Arena where
  nodes := [{ name, entries }]
  layout := by
    have hnode : ∀ i, (nodeAt [({ name, entries } : DirNode)] i).parent = none ∧
        (nodeAt [({ name, entries } : DirNode)] i).children = [] := by
      intro i
      cases i <;> exact ⟨rfl, rfl⟩
    refine ⟨Nat.one_pos, fun i p => ?_, fun i p h => ?_, fun p => ?_,
      fun i hpos hi => ?_⟩
    · simp [hnode]
    · simp [hnode] at h
    · simp [hnode]
    · exact absurd hi (Nat.not_lt.2 hpos)

theorem directory_single (name : String) (entries : List Entry) :
    (single name entries).directory 0 = { name, entries } := by
  rw [directory_eq]
  rfl

/-- The arena without the directories that hold no entry. -/
def prune (t : Arena) : Arena :=
  if t.dropped = 0 then t
  else t.rebuild 0 (single (t.node 0).name (t.node 0).entries) 0

theorem prune_tree (t : Arena) : t.prune.tree = t.tree.prune := by
  unfold prune
  split
  · rename_i hnone
    refine (prune_directory_of_live fun j hj => ?_).symm
    rw [dropped_eq, List.countP_eq_zero] at hnone
    simpa using hnone j hj
  · have hcopy := (attached_rebuild (t := t) (i := 0)
      (size_pos (single (t.node 0).name (t.node 0).entries))).directory
    rw [tree, hcopy, directory_single, List.nil_append, tree, prune_eq,
      name_directory, entries_directory]

end Arena

end SettingsArchive
