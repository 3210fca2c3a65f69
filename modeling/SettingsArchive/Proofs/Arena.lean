import SettingsArchive.Directory
import Mathlib.Algebra.Ring.Nat
import Mathlib.Data.List.Nodup
import Mathlib.Logic.Relation

/-!
# Arenas

A tree of settings may be laid out as a table.  Its nodes are the directories,
which name those in them, and the one that they are in, by numbers.  The numbers
come from the order in which directories were added, so a tree has many layouts.

* `IsLayout` is what all tables have in common: the links of a node and of the
  nodes in it agree, and they lead from smaller numbers to larger ones.  An
  `Arena` is a table with this property.
* `Arena.directory` is the tree at a node.  Recursion goes from a node to those in
  it, and `Arena.induction` is the induction for it.
* `Arena.Below` says which nodes make up the tree at a node.  It does not depend
  on others (`directory_congr`), and the trees at two nodes of one directory have
  none in common (`not_below_of_below`).
* `Arena.preorder` lists the nodes of a tree.  At the root these are all nodes,
  each once (`preorder_perm`).
-/

namespace SettingsArchive

/-- A directory in a table.  It knows the number of the directory that it is in,
and those of the directories in it. -/
structure DirNode where
  name : String
  parent : Option Nat := none
  entries : List Entry := []
  children : List Nat := []

instance : Inhabited DirNode := ⟨{ name := "" }⟩

/-- The node of a number, and one without links where there is none. -/
def nodeAt (nodes : List DirNode) (i : Nat) : DirNode :=
  nodes[i]?.getD default

/-- A table of nodes with sound links.  The first node is the root. -/
structure IsLayout (nodes : List DirNode) : Prop where
  root : 0 < nodes.length
  linked : ∀ i p, (nodeAt nodes i).parent = some p ↔ i ∈ (nodeAt nodes p).children
  forward : ∀ i p, i ∈ (nodeAt nodes p).children → p < i
  distinct : ∀ p, (nodeAt nodes p).children.Nodup
  rooted : ∀ i, 0 < i → i < nodes.length → ∃ p, (nodeAt nodes i).parent = some p

/-- A tree of settings as a table of nodes. -/
structure Arena where
  nodes : List DirNode
  layout : IsLayout nodes

theorem nodeAt_of_le {nodes : List DirNode} {i : Nat} (h : nodes.length ≤ i) :
    nodeAt nodes i = default := by
  rw [nodeAt, List.getElem?_eq_none h]
  rfl

/-- A table with the links of a layout is a layout. -/
theorem IsLayout.of_links {nodes others : List DirNode} (h : IsLayout nodes)
    (hlength : others.length = nodes.length)
    (hparent : ∀ i, (nodeAt others i).parent = (nodeAt nodes i).parent)
    (hchildren : ∀ i, (nodeAt others i).children = (nodeAt nodes i).children) :
    IsLayout others := by
  refine ⟨hlength ▸ h.root, ?_, ?_, ?_, ?_⟩
  · intro i p
    rw [hparent, hchildren]
    exact h.linked i p
  · intro i p hi
    rw [hchildren] at hi
    exact h.forward i p hi
  · intro p
    rw [hchildren]
    exact h.distinct p
  · intro i hpos hi
    rw [hparent]
    exact h.rooted i hpos (hlength ▸ hi)

namespace Arena

/-- How many nodes there are. -/
def size (t : Arena) : Nat :=
  t.nodes.length

/-- The node of a number. -/
def node (t : Arena) (i : Nat) : DirNode :=
  nodeAt t.nodes i

variable {t u : Arena} {i j c p : Nat}

/-! ## Links -/

theorem size_pos (t : Arena) : 0 < t.size :=
  t.layout.root

theorem node_of_le (h : t.size ≤ i) : t.node i = default :=
  nodeAt_of_le h

theorem parent_eq_some_iff : (t.node c).parent = some p ↔ c ∈ (t.node p).children :=
  t.layout.linked c p

theorem lt_of_mem_children (h : c ∈ (t.node p).children) : p < c :=
  t.layout.forward c p h

theorem lt_size_of_mem_children (h : c ∈ (t.node p).children) : c < t.size := by
  by_contra hc
  have hparent := parent_eq_some_iff.2 h
  rw [node_of_le (Nat.not_lt.1 hc)] at hparent
  cases hparent

/-- A node is in one directory. -/
theorem parent_unique {q : Nat} (hp : c ∈ (t.node p).children)
    (hq : c ∈ (t.node q).children) : p = q :=
  Option.some.inj
    ((parent_eq_some_iff.2 hp).symm.trans (parent_eq_some_iff.2 hq))

theorem parent_root (t : Arena) : (t.node 0).parent = none := by
  cases hp : (t.node 0).parent with
  | none => rfl
  | some p => exact absurd (lt_of_mem_children (parent_eq_some_iff.1 hp)) (by omega)

/-- There are fewer nodes behind a node of a directory than behind it. -/
theorem size_sub_lt (h : c ∈ (t.node p).children) : t.size - c < t.size - p := by
  have hlt := lt_of_mem_children h
  have hsize := lt_size_of_mem_children h
  omega

/-- What holds of a node if it holds of those in it holds of all nodes. -/
theorem induction (t : Arena) {P : Nat → Prop}
    (step : ∀ i, (∀ c ∈ (t.node i).children, P c) → P i) (i : Nat) : P i := by
  induction hn : t.size - i using Nat.strongRecOn generalizing i with
  | ind n ih =>
    refine step i fun c hc => ?_
    exact ih _ (hn ▸ size_sub_lt hc) c rfl

/-! ## The tree -/

/-- The directory of a node. -/
def directory (t : Arena) (i : Nat) : Directory :=
  ⟨(t.node i).name, (t.node i).entries,
    (t.node i).children.attach.map fun c => t.directory c.1⟩
termination_by t.size - i
decreasing_by exact size_sub_lt c.2

/-- The tree that is laid out. -/
def tree (t : Arena) : Directory :=
  t.directory 0

theorem directory_eq (t : Arena) (i : Nat) :
    t.directory i = ⟨(t.node i).name, (t.node i).entries,
      (t.node i).children.map t.directory⟩ := by
  rw [directory, List.attach_map_val (f := t.directory)]

@[simp] theorem name_directory (t : Arena) (i : Nat) :
    (t.directory i).name = (t.node i).name := by
  rw [directory_eq]

@[simp] theorem entries_directory (t : Arena) (i : Nat) :
    (t.directory i).entries = (t.node i).entries := by
  rw [directory_eq]

@[simp] theorem directories_directory (t : Arena) (i : Nat) :
    (t.directory i).directories = (t.node i).children.map t.directory := by
  rw [directory_eq]

/-! ## What makes up a tree -/

/-- The node `j` belongs to the tree at `i`. -/
def Below (t : Arena) (i j : Nat) : Prop :=
  Relation.ReflTransGen (fun p c => c ∈ (t.node p).children) i j

theorem below_iff :
    t.Below i j ↔ j = i ∨ ∃ c ∈ (t.node i).children, t.Below c j := by
  rw [Below, Relation.ReflTransGen.cases_head_iff, eq_comm]
  rfl

theorem Below.refl (t : Arena) (i : Nat) : t.Below i i :=
  Relation.ReflTransGen.refl

theorem Below.head (h : c ∈ (t.node i).children) (hj : t.Below c j) : t.Below i j :=
  Relation.ReflTransGen.head h hj

theorem Below.le (h : t.Below i j) : i ≤ j := by
  induction h with
  | refl => exact Nat.le_refl i
  | tail _ hc ih => exact Nat.le_trans ih (Nat.le_of_lt (lt_of_mem_children hc))

theorem Below.lt_size (h : t.Below i j) (hi : i < t.size) : j < t.size := by
  cases h with
  | refl => exact hi
  | tail _ hc => exact lt_size_of_mem_children hc

/-- All nodes belong to the tree at the root. -/
theorem below_root {j : Nat} (h : j < t.size) : t.Below 0 j := by
  induction j using Nat.strongRecOn with
  | ind j ih =>
    cases j with
    | zero => exact Below.refl t 0
    | succ j =>
      obtain ⟨p, hp⟩ := t.layout.rooted (j + 1) (Nat.succ_pos j) h
      have hmem : j + 1 ∈ (t.node p).children := parent_eq_some_iff.1 hp
      have hlt := lt_of_mem_children hmem
      exact (ih p hlt (Nat.lt_trans hlt h)).tail hmem

/-- The trees at two nodes of one directory have no node in common. -/
theorem not_below_of_below {d e : Nat} (hc : c ∈ (t.node d).children)
    (he : e ∈ (t.node d).children) (hne : c ≠ e) (h : t.Below c j) :
    ¬ t.Below e j := by
  -- The way up from a node is one, and it passes one node of the directory.
  have hnot {c e : Nat} (hc : c ∈ (t.node d).children)
      (he : e ∈ (t.node d).children) (hne : c ≠ e) : ¬ t.Below e c := by
    intro h
    rcases Relation.ReflTransGen.cases_tail h with heq | ⟨k, hk, hkc⟩
    · exact hne heq
    · obtain rfl := parent_unique hkc hc
      have hle := Below.le hk
      have hlt := lt_of_mem_children he
      omega
  induction h with
  | refl => exact hnot hc he hne
  | @tail k j hk hj ih =>
    intro h
    rcases Relation.ReflTransGen.cases_tail h with rfl | ⟨k', hk', hj'⟩
    · exact hnot he hc (Ne.symm hne) (hk.tail hj)
    · obtain rfl := parent_unique hj hj'
      exact ih hk'

/-- Where the nodes of a tree are the same, the tree is. -/
theorem directory_congr (h : ∀ j, t.Below i j → u.node j = t.node j) :
    u.directory i = t.directory i := by
  induction i using t.induction with
  | step i ih =>
    rw [directory_eq, directory_eq, h i (Below.refl t i)]
    congr 1
    refine List.map_congr_left fun c hc => ?_
    exact ih c hc fun j hj => h j (hj.head hc)

/-! ## The nodes of a tree -/

/-- The nodes of the tree at a node, a directory before those in it. -/
def preorder (t : Arena) (i : Nat) : List Nat :=
  i :: (t.node i).children.attach.flatMap fun c => t.preorder c.1
termination_by t.size - i
decreasing_by exact size_sub_lt c.2

theorem preorder_eq (t : Arena) (i : Nat) :
    t.preorder i = i :: (t.node i).children.flatMap t.preorder := by
  rw [preorder, List.flatMap_subtype (fun _ _ => rfl), List.unattach_attach]

theorem mem_preorder_iff : j ∈ t.preorder i ↔ t.Below i j := by
  induction i using t.induction with
  | step i ih =>
    rw [preorder_eq, List.mem_cons, List.mem_flatMap, below_iff]
    exact or_congr_right (exists_congr fun c => and_congr_right (ih c))

theorem nodup_preorder (t : Arena) (i : Nat) : (t.preorder i).Nodup := by
  induction i using t.induction with
  | step i ih =>
    rw [preorder_eq, List.nodup_cons, List.nodup_flatMap]
    refine ⟨?_, ih, ?_⟩
    · intro hi
      obtain ⟨c, hc, hi⟩ := List.mem_flatMap.1 hi
      have hle := (mem_preorder_iff.1 hi).le
      have hlt := lt_of_mem_children hc
      omega
    · refine (t.layout.distinct i).imp_of_mem ?_
      intro c e hc he hne j hj hj'
      exact not_below_of_below hc he hne (mem_preorder_iff.1 hj)
        (mem_preorder_iff.1 hj')

/-- At the root these are all nodes, each once. -/
theorem preorder_perm (t : Arena) : (t.preorder 0).Perm (List.range t.size) := by
  refine (List.perm_ext_iff_of_nodup (nodup_preorder t 0) List.nodup_range).2 ?_
  intro j
  rw [mem_preorder_iff, List.mem_range]
  exact ⟨fun h => h.lt_size t.size_pos, below_root⟩

/-- The nodes in the order of their numbers. -/
theorem map_node_range (t : Arena) : (List.range t.size).map t.node = t.nodes := by
  refine List.ext_getElem (by simp [size]) fun i hi hi' => ?_
  simp [node, nodeAt, hi']

end Arena

end SettingsArchive
