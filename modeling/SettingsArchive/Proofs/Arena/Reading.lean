import SettingsArchive.Proofs.Arena
import SettingsArchive.Proofs.Directory.Equality

/-!
# Reading arenas

What is read from an arena is what is read from its tree.  `walk?` follows a path
down from node to node, and `segments` goes back up by the links to the parents.
Listings go down from the root, and counts take the nodes as they come, which is
the same because every node belongs to the tree once (`entries_perm`).

`beq_iff_tree` says that arenas are compared as their trees are.
-/

namespace SettingsArchive

/-- The entry of a path is in the directory that the path without its last
segment leads to. -/
theorem Directory.get?_concat (d : Directory) (above : Path) (name : String) :
    d.get? (above ++ [name]) = (d.find? above).bind (·.getOwn? name) := by
  induction above generalizing d with
  | nil => rfl
  | cons s above ih =>
    rw [List.cons_append, get?_cons (by simp), find?_cons, Option.bind_assoc]
    exact Option.bind_congr fun c _ => ih c

theorem Directory.get?_of_ne_nil (d : Directory) {path : Path} (h : path ≠ []) :
    d.get? path = (d.find? path.dropLast).bind (·.getOwn? (path.getLastD "")) := by
  have hpath : path = path.dropLast ++ [path.getLastD ""] := by
    rw [List.getLastD_eq_getLast?, List.getLast?_eq_some_getLast h,
      Option.getD_some, List.dropLast_append_getLast]
  conv_lhs => rw [hpath]
  exact get?_concat d _ _

namespace Arena

open Directory

variable {t u : Arena} {i j c p : Nat}

/-! ## Down a path -/

/-- The directory of this name within a directory. -/
def subdir? (t : Arena) (i : Nat) (name : String) : Option Nat :=
  (t.node i).children.find? fun c => (t.node c).name == name

/-- The directory that a path leads to from another one. -/
def walk? (t : Arena) (i : Nat) (path : Path) : Option Nat :=
  path.foldlM t.subdir? i

/-- The entry that a text names. -/
def lookup (t : Arena) (text : String) : Option Entry :=
  (Path.ofText? text).bind fun path =>
    (t.walk? 0 path.dropLast).bind fun i =>
      (t.node i).entries.find? (·.name == path.getLastD "")

/-- Refuses a value that the entry of a path cannot take: one of another kind, and
one dated before the head. -/
def checkWrite (t : Arena) (text : String) (value : Value) (time : Instant) :
    Except ArchiveError Unit :=
  match Path.ofText? text with
  | none => .error (.invalidPath text)
  | some _ =>
    match t.lookup text with
    | none => .ok ()
    | some e =>
      if e.kind ≠ value.kind then
        .error (.typeMismatch text e.kind value.kind)
      else if time < e.head.time then
        .error (.nonMonotonic text time e.head.time)
      else .ok ()

theorem subdir?_eq_some {name : String} (h : t.subdir? i name = some c) :
    c ∈ (t.node i).children ∧ (t.node c).name = name :=
  ⟨List.mem_of_find?_eq_some h, by simpa using List.find?_some h⟩

theorem child?_directory (t : Arena) (i : Nat) (name : String) :
    (t.directory i).child? name = (t.subdir? i name).map t.directory := by
  have hname : ((·.name == name) ∘ t.directory : Nat → Bool) =
      fun c => (t.node c).name == name := by
    funext c
    simp
  rw [child?, directories_directory, List.find?_map, hname]
  rfl

theorem find?_directory (t : Arena) (i : Nat) (path : Path) :
    (t.directory i).find? path = (t.walk? i path).map t.directory := by
  induction path generalizing i with
  | nil => rfl
  | cons name path ih =>
    rw [find?_cons, child?_directory, walk?, List.foldlM_cons]
    cases t.subdir? i name with
    | none => rfl
    | some c => exact ih c

theorem lookup_tree (t : Arena) (text : String) :
    t.lookup text = t.tree.lookup text := by
  unfold lookup Directory.lookup
  cases hpath : Path.ofText? text with
  | none => rfl
  | some path =>
    rw [Option.bind_some, Option.bind_some,
      get?_of_ne_nil _ (Path.ne_nil_of_ofText? hpath), tree, find?_directory,
      Option.bind_map]
    refine Option.bind_congr fun i _ => ?_
    rw [Function.comp_apply, getOwn?, entries_directory]

theorem checkWrite_tree (t : Arena) (text : String) (value : Value)
    (time : Instant) : t.checkWrite text value time =
      t.tree.checkWrite text value time := by
  unfold checkWrite Directory.checkWrite
  rw [lookup_tree, Directory.lookup]
  cases Path.ofText? text with
  | none => rfl
  | some path => rfl

/-! ## Up to the root -/

/-- The path of a directory, read by the links to the parents. -/
def segments (t : Arena) (i : Nat) : Path :=
  match _hp : (t.node i).parent with
  | none => []
  | some p => t.segments p ++ [(t.node i).name]
termination_by i
decreasing_by exact lt_of_mem_children (parent_eq_some_iff.1 ‹_›)

/-- The text of the path of a directory. -/
def pathOf (t : Arena) (i : Nat) : String :=
  "/" ++ "/".intercalate (t.segments i)

theorem segments_root (t : Arena) : t.segments 0 = [] := by
  rw [segments]
  split
  · rfl
  · rename_i p hp
    rw [parent_root] at hp
    cases hp

theorem segments_child (h : c ∈ (t.node i).children) :
    t.segments c = t.segments i ++ [(t.node c).name] := by
  have hparent := parent_eq_some_iff.2 h
  rw [segments]
  split
  · rename_i hnone
    rw [hparent] at hnone
    cases hnone
  · rename_i p hp
    obtain rfl := Option.some.inj (hparent.symm.trans hp)
    rfl

/-! ## Listings -/

/-- The entries at and below a directory with their texts. -/
def entriesUnder (t : Arena) (i : Nat) : List (String × Entry) :=
  (t.node i).entries.map (fun e => (Path.join (t.pathOf i) e.name, e)) ++
    (t.node i).children.attach.flatMap fun c => t.entriesUnder c.1
termination_by t.size - i
decreasing_by exact size_sub_lt c.2

theorem entriesUnder_directory (t : Arena) (i : Nat) :
    t.entriesUnder i =
      Directory.entriesUnder (t.segments i) (t.directory i) := by
  induction i using t.induction with
  | step i ih =>
    rw [entriesUnder, List.flatMap_subtype (fun _ _ => rfl), List.unattach_attach,
      Directory.entriesUnder, directory_eq, entriesBelow, entriesOfAll_eq_flatMap,
      List.map_append, List.map_map, List.map_flatMap, List.flatMap_map]
    refine congrArg₂ (· ++ ·) ?_ ?_
    · refine List.map_congr_left fun e _ => ?_
      rw [Function.comp_apply, List.dropLast_concat, pathOf, Path.text_eq]
    · refine List.flatMap_congr fun c hc => ?_
      rw [ih c hc, segments_child hc, name_directory]
      rfl

/-! ## Counts -/

/-- How many entries there are. -/
def entryCount (t : Arena) : Nat :=
  (t.nodes.map fun n => n.entries.length).sum

theorem map_snd_entriesBelow (t : Arena) (above : Path) (i : Nat) :
    (entriesBelow above (t.directory i)).map Prod.snd =
      (t.preorder i).flatMap fun j => (t.node j).entries := by
  induction i using t.induction generalizing above with
  | step i ih =>
    rw [directory_eq, entriesBelow, entriesOfAll_eq_flatMap, preorder_eq,
      List.flatMap_cons, List.map_append, List.map_map, List.map_flatMap,
      List.flatMap_map, List.flatMap_assoc]
    refine congrArg₂ (· ++ ·) ?_ ?_
    · exact List.map_id _
    · exact List.flatMap_congr fun c hc => ih c hc _

/-- The entries of the tree are those of all nodes. -/
theorem entries_perm (t : Arena) :
    (t.tree.allEntries.map Prod.snd).Perm (t.nodes.flatMap DirNode.entries) := by
  rw [allEntries, tree, map_snd_entriesBelow, ← t.map_node_range,
    List.flatMap_map]
  exact t.preorder_perm.flatMap_right _

theorem entryCount_tree (t : Arena) : t.entryCount = t.tree.entryCount := by
  have hlength := t.entries_perm.length_eq
  rw [List.length_map, allEntries, length_entriesBelow, List.length_flatMap]
    at hlength
  exact hlength.symm

/-! ## Equality -/

/-- Whether the trees at two nodes are equal. -/
def sameAt (t u : Arena) (i j : Nat) : Bool :=
  (t.node i).name == (u.node j).name && (t.node i).entries == (u.node j).entries
    && (t.node i).children.length == (u.node j).children.length
    && ((t.node i).children.attach.zip (u.node j).children).all fun x =>
      sameAt t u x.1.1 x.2
termination_by t.size - i
decreasing_by exact size_sub_lt x.1.2

/-- Arenas are compared from the root down. -/
instance : BEq Arena where
  beq t u := sameAt t u 0 0

theorem sameAt_unfold (t u : Arena) (i j : Nat) :
    sameAt t u i j = ((t.node i).name == (u.node j).name
      && (t.node i).entries == (u.node j).entries
      && (t.node i).children.length == (u.node j).children.length
      && ((t.node i).children.zip (u.node j).children).all fun x =>
        sameAt t u x.1 x.2) := by
  have hzip : (t.node i).children.zip (u.node j).children =
      ((t.node i).children.attach.zip (u.node j).children).map
        fun x => (x.1.1, x.2) := by
    conv_lhs => rw [← List.attach_map_subtype_val (t.node i).children]
    rw [List.zip_map_left]
    rfl
  rw [sameAt, hzip, List.all_map]
  rfl

theorem sameAt_eq (t u : Arena) (i j : Nat) :
    sameAt t u i j = (t.directory i == u.directory j) := by
  induction i using t.induction generalizing j with
  | step i ih =>
    have hchildren : List.Forall₂ (fun c k => (c == k) = true)
        ((t.node i).children.map t.directory)
        ((u.node j).children.map u.directory) ↔
          (t.node i).children.length = (u.node j).children.length ∧
            ∀ x ∈ (t.node i).children.zip (u.node j).children,
              sameAt t u x.1 x.2 := by
      rw [List.forall₂_map_left_iff, List.forall₂_map_right_iff,
        List.forall₂_iff_zip]
      refine and_congr_right fun _ => ⟨fun h x hx => ?_, fun h c e hce => ?_⟩
      · rw [ih x.1 (List.of_mem_zip hx).1]
        exact h hx
      · rw [← ih c (List.of_mem_zip hce).1]
        exact h _ hce
    rw [Bool.eq_iff_iff, Directory.beq_iff, directories_directory,
      directories_directory, hchildren, sameAt_unfold]
    simp only [Bool.and_eq_true, beq_iff_eq, List.all_eq_true, and_assoc,
      name_directory, entries_directory, beq_iff_forall₂]

theorem beq_iff_tree : (t == u) = true ↔ t.tree == u.tree := by
  have h : (t == u) = (t.tree == u.tree) := sameAt_eq t u 0 0
  rw [h]

end Arena

end SettingsArchive
