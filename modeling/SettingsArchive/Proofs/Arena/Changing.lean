import SettingsArchive.Proofs.Arena.Reading

/-!
# Changing arenas

What a change does to an arena it does to the tree.  A store walks down a path and
adds the directories that are missing, each as a new node at the end, and then it
changes the entries of one node.  A purge changes the entries of a node that is
there, and a trim those of all nodes.

`directory_alter` is about the first two.  It says which tree is left at the node
where the path begins, and that no node outside of that tree has changed, which is
what the trees beside it need.
-/

namespace SettingsArchive

/-! ## Changing a directory of a tree -/

namespace Directory

variable {name : String} {path : Path}

/-- Changes the entries of the directory that a path leads to.  Directories that
are missing on the way are added. -/
def alter (edit : List Entry → List Entry) : Path → Directory → Directory
  | [], d => { d with entries := edit d.entries }
  | name :: path, d =>
    { d with directories := putChild name (alter edit path) d.directories }

/-- A directory that is not there is added at the end. -/
theorem putChild_of_notMem (change : Directory → Directory)
    {ds : List Directory} (h : ∀ d ∈ ds, d.name ≠ name) :
    putChild name change ds = ds ++ [change { name }] := by
  induction ds with
  | nil => rfl
  | cons d ds ih =>
    obtain ⟨hd, hds⟩ := List.forall_mem_cons.1 h
    rw [putChild, if_neg hd, ih hds, List.cons_append]

theorem changeChild_of_mem (change : Directory → Directory)
    {ds : List Directory} (h : ∃ d ∈ ds, d.name = name) :
    changeChild name change ds = putChild name change ds := by
  induction ds with
  | nil => simp at h
  | cons d ds ih =>
    rw [changeChild, putChild]
    split
    · rfl
    · rename_i hd
      obtain ⟨e, he, hname⟩ := h
      rcases List.mem_cons.1 he with rfl | he
      · exact absurd hname hd
      · rw [ih ⟨e, he, hname⟩]

/-- Only the first directory of the name is changed. -/
theorem changeChild_congr {change other : Directory → Directory}
    {ds : List Directory}
    (h : ∀ d, ds.find? (·.name == name) = some d → change d = other d) :
    changeChild name change ds = changeChild name other ds := by
  induction ds with
  | nil => rfl
  | cons d ds ih =>
    rw [changeChild, changeChild]
    split
    · rename_i hd
      rw [h d (by simp [hd])]
    · rename_i hd
      rw [ih fun e he => h e (by simpa [hd] using he)]

theorem changeChild_id (ds : List Directory) : changeChild name id ds = ds := by
  induction ds with
  | nil => rfl
  | cons d ds ih => rw [changeChild, ih, id, ite_self]

theorem eraseEntry_of_notMem {es : List Entry} (h : ∀ e ∈ es, e.name ≠ name) :
    eraseEntry name es = es := by
  induction es with
  | nil => rfl
  | cons e es ih =>
    obtain ⟨he, hes⟩ := List.forall_mem_cons.1 h
    rw [eraseEntry, if_neg he, ih hes]

theorem put_eq_alter (change : Option Entry → Entry) (hpath : path ≠ [])
    (d : Directory) : put change path d =
      d.alter (putEntry (path.getLastD "") change) path.dropLast := by
  induction path generalizing d with
  | nil => exact absurd rfl hpath
  | cons s path ih =>
    cases path with
    | nil => rfl
    | cons s' path =>
      have hne : s' :: path ≠ [] := List.cons_ne_nil _ _
      rw [put_cons hne, List.dropLast_cons_of_ne_nil hne, alter,
        funext (ih hne)]
      rfl

/-- An entry that is not there is not removed. -/
theorem erase_eq_self {d : Directory} (h : d.get? path = none) :
    erase path d = d := by
  induction path generalizing d with
  | nil => rfl
  | cons s path ih =>
    by_cases hpath : path = []
    · subst hpath
      have hnone : ∀ e ∈ d.entries, e.name ≠ s := by
        simpa [get?_singleton, getOwn?] using h
      obtain ⟨name, entries, directories⟩ := d
      rw [erase, eraseEntry_of_notMem hnone]
    · have hsame : ∀ c, d.directories.find? (·.name == s) = some c →
          erase path c = id c := by
        intro c hc
        have hc : d.child? s = some c := hc
        rw [get?_cons hpath, hc] at h
        exact ih h
      rw [erase_cons hpath, changeChild_congr hsame, changeChild_id]
      cases d
      rfl

/-- Where the directory of a path is there, the entry is removed from it. -/
theorem erase_eq_alter (hpath : path ≠ []) {d c : Directory}
    (h : d.find? path.dropLast = some c) : erase path d =
      d.alter (eraseEntry (path.getLastD "")) path.dropLast := by
  induction path generalizing d with
  | nil => exact absurd rfl hpath
  | cons s path ih =>
    cases path with
    | nil => rfl
    | cons s' path =>
      have hne : s' :: path ≠ [] := List.cons_ne_nil _ _
      rw [List.dropLast_cons_of_ne_nil hne] at h ⊢
      rw [find?_cons] at h
      obtain ⟨child, hchild, h⟩ := Option.bind_eq_some_iff.1 h
      have hsame : ∀ c, d.directories.find? (·.name == s) = some c →
          erase (s' :: path) c =
            c.alter (eraseEntry ((s' :: path).getLastD ""))
              (s' :: path).dropLast := by
        intro c hc
        obtain rfl := Option.some.inj (hchild.symm.trans hc)
        exact ih hne h
      rw [erase_cons hne, changeChild_congr hsame,
        changeChild_of_mem _ ⟨child, Keyed.mem_of_find?_key Directory.name hchild⟩]
      rfl

end Directory

/-! ## Tables -/

theorem nodeAt_modify (nodes : List DirNode) (i j : Nat) (f : DirNode → DirNode) :
    nodeAt (nodes.modify i f) j =
      if i = j ∧ j < nodes.length then f (nodeAt nodes j) else nodeAt nodes j := by
  rw [nodeAt, List.getElem?_modify, nodeAt]
  by_cases hj : j < nodes.length
  · simp only [List.getElem?_eq_getElem hj]
    by_cases hij : i = j
    · simp [hij, hj]
    · simp [hij]
  · simp [hj]

theorem nodeAt_map {f : DirNode → DirNode} (h : f default = default)
    (nodes : List DirNode) (i : Nat) :
    nodeAt (nodes.map f) i = f (nodeAt nodes i) := by
  rw [nodeAt, nodeAt, List.getElem?_map]
  cases nodes[i]? with
  | none => exact h.symm
  | some n => rfl

theorem nodeAt_concat (nodes : List DirNode) (n : DirNode) (j : Nat) :
    nodeAt (nodes ++ [n]) j =
      if j = nodes.length then n else nodeAt nodes j := by
  rw [nodeAt, nodeAt, List.getElem?_append]
  split
  · rename_i hj
    rw [if_neg (Nat.ne_of_lt hj)]
  · rename_i hj
    split
    · rename_i heq
      simp [heq]
    · rename_i hne
      rw [List.getElem?_eq_none (by simp; omega),
        List.getElem?_eq_none (Nat.not_lt.1 hj)]

namespace Arena

open Directory

variable {t : Arena} {i j p : Nat}

/-! ## Changing a node -/

/-- Changes the entries of a node. -/
def editEntries (t : Arena) (i : Nat) (edit : List Entry → List Entry) :
    Arena where
  nodes := t.nodes.modify i fun n => { n with entries := edit n.entries }
  layout := by
    refine t.layout.of_links (List.length_modify ..) (fun j => ?_) (fun j => ?_)
    · rw [nodeAt_modify]
      split <;> rfl
    · rw [nodeAt_modify]
      split <;> rfl

theorem node_editEntries_self (hi : i < t.size)
    (edit : List Entry → List Entry) :
    (t.editEntries i edit).node i =
      { t.node i with entries := edit (t.node i).entries } := by
  rw [node, editEntries, nodeAt_modify, if_pos ⟨rfl, hi⟩]
  rfl

theorem node_editEntries_of_ne (h : j ≠ i) (edit : List Entry → List Entry) :
    (t.editEntries i edit).node j = t.node j := by
  rw [node, editEntries, nodeAt_modify, if_neg fun hij => h hij.1.symm]
  rfl

/-! ## Adding a node -/

/-- The nodes with a new one at the end, which is in the directory `p`. -/
def added (t : Arena) (p : Nat) (name : String) (entries : List Entry) :
    List DirNode :=
  (t.nodes.modify p fun n => { n with children := n.children ++ [t.size] }) ++
    [{ name, parent := some p, entries }]

section Added

variable {name : String} {entries : List Entry}

theorem length_added : (t.added p name entries).length = t.size + 1 := by
  simp [added, size]

theorem nodeAt_added_new :
    nodeAt (t.added p name entries) t.size =
      { name, parent := some p, entries } := by
  rw [added, nodeAt_concat, List.length_modify]
  exact if_pos rfl

theorem nodeAt_added_parent (hp : p < t.size) :
    nodeAt (t.added p name entries) p =
      { t.node p with children := (t.node p).children ++ [t.size] } := by
  have hne : p ≠ t.nodes.length := Nat.ne_of_lt hp
  rw [added, nodeAt_concat, List.length_modify, if_neg hne, nodeAt_modify,
    if_pos ⟨rfl, hp⟩]
  rfl

theorem nodeAt_added_of_ne (hsize : j ≠ t.size) (hp : j ≠ p) :
    nodeAt (t.added p name entries) j = t.node j := by
  have hne : j ≠ t.nodes.length := hsize
  rw [added, nodeAt_concat, List.length_modify, if_neg hne, nodeAt_modify,
    if_neg fun h => hp h.1.symm]
  rfl

theorem mem_children_added_iff (hp : p < t.size) {q : Nat} :
    i ∈ (nodeAt (t.added p name entries) q).children ↔
      i ∈ (t.node q).children ∨ q = p ∧ i = t.size := by
  by_cases hq : q = p
  · rw [hq, nodeAt_added_parent hp]
    simp
  · by_cases hsize : q = t.size
    · have hnone : (t.node t.size).children = [] := by
        rw [node_of_le (Nat.le_refl _)]
        rfl
      rw [hsize, nodeAt_added_new, hnone]
      simp [Ne.symm (Nat.ne_of_lt hp)]
    · rw [nodeAt_added_of_ne hsize hq]
      simp [hq]

theorem isLayout_added (hp : p < t.size) :
    IsLayout (t.added p name entries) := by
  have hnew {q : Nat} : t.size ∉ (t.node q).children := fun h =>
    Nat.lt_irrefl _ (lt_size_of_mem_children h)
  have hparent {i : Nat} (hi : i ≠ t.size) :
      (nodeAt (t.added p name entries) i).parent = (t.node i).parent := by
    by_cases hip : i = p
    · rw [hip, nodeAt_added_parent hp]
    · rw [nodeAt_added_of_ne hi hip]
  refine ⟨by rw [length_added]; omega, fun i q => ?_, fun i q hi => ?_,
    fun q => ?_, fun i hpos hi => ?_⟩
  · rw [mem_children_added_iff hp]
    by_cases hi : i = t.size
    · rw [hi, nodeAt_added_new]
      simp [hnew, eq_comm]
    · rw [hparent hi, parent_eq_some_iff]
      simp [hi]
  · rcases (mem_children_added_iff hp).1 hi with hi | ⟨rfl, rfl⟩
    · exact lt_of_mem_children hi
    · exact hp
  · by_cases hq : q = p
    · rw [hq, nodeAt_added_parent hp]
      exact List.nodup_append.2 ⟨t.layout.distinct p, List.nodup_singleton _,
        fun c hc e he hce => hnew (List.mem_singleton.1 he ▸ hce ▸ hc)⟩
    · by_cases hsize : q = t.size
      · rw [hsize, nodeAt_added_new]
        exact List.nodup_nil
      · rw [nodeAt_added_of_ne hsize hq]
        exact t.layout.distinct q
  · by_cases hsize : i = t.size
    · rw [hsize, nodeAt_added_new]
      exact ⟨p, rfl⟩
    · rw [length_added] at hi
      have hold : i < t.size := by omega
      rw [hparent hsize]
      exact t.layout.rooted i hpos hold

end Added

/-- Adds a directory to the directory `p`.  Nothing is added where there is no such
directory. -/
def addChild (t : Arena) (p : Nat) (name : String) (entries : List Entry) :
    Arena :=
  if hp : p < t.size then ⟨t.added p name entries, isLayout_added hp⟩ else t

section AddChild

variable {name : String} {entries : List Entry} (hp : p < t.size)

include hp

theorem nodes_addChild :
    (t.addChild p name entries).nodes = t.added p name entries := by
  rw [addChild, dif_pos hp]

theorem size_addChild : (t.addChild p name entries).size = t.size + 1 := by
  rw [size, nodes_addChild hp, length_added]

theorem node_addChild_new : (t.addChild p name entries).node t.size =
    { name, parent := some p, entries } := by
  rw [node, nodes_addChild hp, nodeAt_added_new]

theorem node_addChild_parent : (t.addChild p name entries).node p =
    { t.node p with children := (t.node p).children ++ [t.size] } := by
  rw [node, nodes_addChild hp, nodeAt_added_parent hp]

theorem node_addChild_of_ne (hsize : j ≠ t.size) (hj : j ≠ p) :
    (t.addChild p name entries).node j = t.node j := by
  rw [node, nodes_addChild hp, nodeAt_added_of_ne hsize hj]

/-- A new directory has no directories in it. -/
theorem directory_addChild_new :
    (t.addChild p name entries).directory t.size = { name, entries } := by
  rw [directory_eq, node_addChild_new hp]
  rfl

/-- Where only the new directory was changed, its tree is the last one in the
directory that it was added to. -/
theorem directory_of_addChild {u : Arena}
    (hold : ∀ j < t.size, u.node j = (t.addChild p name entries).node j) :
    u.directory p = ⟨(t.node p).name, (t.node p).entries,
      (t.node p).children.map t.directory ++ [u.directory t.size]⟩ := by
  have hself := (hold p hp).trans (node_addChild_parent hp)
  have hchildren : ∀ k ∈ (t.node p).children, u.directory k = t.directory k := by
    intro k hk
    refine directory_congr fun j hj => ?_
    have hlt := lt_of_mem_children hk
    have hle := hj.le
    have hjsize := hj.lt_size (lt_size_of_mem_children hk)
    rw [hold j hjsize, node_addChild_of_ne hp (by omega) (by omega)]
  rw [directory_eq, hself, List.map_append, List.map_congr_left hchildren,
    List.map_singleton]

end AddChild

/-! ## Down a path -/

/-- The directory of this name within a directory, which is added if it is
missing. -/
def ensureDir (t : Arena) (p : Nat) (name : String) : Arena × Nat :=
  match t.subdir? p name with
  | some c => (t, c)
  | none => (t.addChild p name [], t.size)

/-- The directory that a path leads to.  Those that are missing are added. -/
def ensureDirs (t : Arena) (p : Nat) (path : Path) : Arena × Nat :=
  path.foldl (fun x name => x.1.ensureDir x.2 name) (t, p)

/-- Changes the entries of the directory that a path leads to.  Directories that
are missing on the way are added. -/
def alter (t : Arena) (edit : List Entry → List Entry) (path : Path) (p : Nat) :
    Arena :=
  (t.ensureDirs p path).1.editEntries (t.ensureDirs p path).2 edit

section Alter

variable {edit : List Entry → List Entry} {name : String} {path : Path}

theorem ensureDirs_cons_of_some (h : t.subdir? p name = some i) :
    t.ensureDirs p (name :: path) = t.ensureDirs i path := by
  rw [ensureDirs, List.foldl_cons, ensureDir, h]
  rfl

theorem ensureDirs_cons_of_none (h : t.subdir? p name = none) :
    t.ensureDirs p (name :: path) =
      (t.addChild p name []).ensureDirs t.size path := by
  rw [ensureDirs, List.foldl_cons, ensureDir, h]
  rfl

/-- Where the directory of a path is there, none is added. -/
theorem ensureDirs_of_walk? (h : t.walk? p path = some i) :
    t.ensureDirs p path = (t, i) := by
  induction path generalizing p with
  | nil =>
    obtain rfl : p = i := Option.some.inj h
    rfl
  | cons name path ih =>
    rw [walk?, List.foldlM_cons] at h
    obtain ⟨c, hc, h⟩ := Option.bind_eq_some_iff.1 h
    rw [ensureDirs_cons_of_some hc]
    exact ih h

/-- The tree at a directory that one of its directories `c` was changed in, which
was the first one of its name. -/
theorem putChild_map {change : Directory → Directory} {F G : Nat → Directory}
    {cs : List Nat} {c : Nat} (hn : cs.Nodup)
    (hfind : cs.find? (fun k => (F k).name == name) = some c)
    (hc : G c = change (F c)) (hothers : ∀ k ∈ cs, k ≠ c → G k = F k) :
    cs.map G = putChild name change (cs.map F) := by
  induction cs with
  | nil => cases hfind
  | cons k cs ih =>
    obtain ⟨hk, hn⟩ := List.nodup_cons.1 hn
    rw [List.find?_cons] at hfind
    rw [List.map_cons, List.map_cons, putChild]
    split at hfind
    · rename_i hname
      obtain rfl := Option.some.inj hfind
      rw [if_pos (beq_iff_eq.1 hname), hc]
      refine congrArg _ (List.map_congr_left fun e he => ?_)
      exact hothers e (List.mem_cons_of_mem _ he) fun heq => hk (heq ▸ he)
    · rename_i hname
      have hkc : k ≠ c := by
        rintro rfl
        exact hk (List.mem_of_find?_eq_some hfind)
      rw [if_neg (by simpa using hname), hothers k List.mem_cons_self hkc,
        ih hn hfind fun e he => hothers e (List.mem_cons_of_mem _ he)]

/-- The tree is changed as the arena is, and nodes outside of it stay. -/
theorem directory_alter (hp : p < t.size) :
    (t.alter edit path p).directory p = (t.directory p).alter edit path ∧
      ∀ j < t.size, ¬ t.Below p j → (t.alter edit path p).node j = t.node j := by
  induction path generalizing t p with
  | nil =>
    have hothers : ∀ j, j ≠ p → (t.alter edit [] p).node j = t.node j :=
      fun j hj => node_editEntries_of_ne hj edit
    refine ⟨?_, fun j _ hj => hothers j ?_⟩
    · have hself : (t.alter edit [] p).node p =
          { t.node p with entries := edit (t.node p).entries } :=
        node_editEntries_self hp edit
      rw [directory_eq, hself, directory_eq, Directory.alter]
      refine congrArg _ (List.map_congr_left fun c hc => ?_)
      refine directory_congr fun j hj => hothers j ?_
      have hlt := lt_of_mem_children hc
      have hle := hj.le
      omega
    · rintro rfl
      exact hj (Below.refl t j)
  | cons name path ih =>
    cases hc : t.subdir? p name with
    | some c =>
      obtain ⟨hmem, -⟩ := subdir?_eq_some hc
      have hstep : t.alter edit (name :: path) p = t.alter edit path c := by
        rw [alter, ensureDirs_cons_of_some hc]
        rfl
      obtain ⟨htree, hframe⟩ := ih (lt_size_of_mem_children hmem)
      rw [hstep]
      constructor
      · have hself : (t.alter edit path c).node p = t.node p := by
          refine hframe p hp fun h => ?_
          have hlt := lt_of_mem_children hmem
          have hle := h.le
          omega
        have hchildren : (t.node p).children.map (t.alter edit path c).directory =
            putChild name (Directory.alter edit path)
              ((t.node p).children.map t.directory) := by
          refine putChild_map (t.layout.distinct p) ?_ htree ?_
          · simpa [subdir?] using hc
          · -- The tree of another directory has none of the changed nodes.
            intro k hk hkc
            refine directory_congr fun j hj => hframe j ?_ ?_
            · exact hj.lt_size (lt_size_of_mem_children hk)
            · exact not_below_of_below hk hmem hkc hj
        rw [directory_eq, hself, hchildren, directory_eq, Directory.alter]
      · exact fun j hj hnot => hframe j hj fun h => hnot (h.head hmem)
    | none =>
      have hstep : t.alter edit (name :: path) p =
          (t.addChild p name []).alter edit path t.size := by
        rw [alter, ensureDirs_cons_of_none hc]
        rfl
      have hsize : (t.addChild p name []).size = t.size + 1 := size_addChild hp
      obtain ⟨htree, hframe⟩ := ih (t := t.addChild p name []) (p := t.size)
        (by omega)
      rw [directory_addChild_new hp] at htree
      have hold : ∀ j < t.size,
          ((t.addChild p name []).alter edit path t.size).node j =
            (t.addChild p name []).node j := by
        intro j hj
        refine hframe j (by omega) fun h => ?_
        have hle := h.le
        omega
      rw [hstep]
      constructor
      · have hmissing : ∀ d ∈ (t.node p).children.map t.directory,
            d.name ≠ name := by
          simpa [subdir?] using hc
        rw [directory_of_addChild hp hold, htree, directory_eq, Directory.alter,
          putChild_of_notMem _ hmissing]
      · intro j hj hnot
        have hjp : j ≠ p := by
          rintro rfl
          exact hnot (Below.refl t j)
        rw [hold j hj]
        exact node_addChild_of_ne hp (Nat.ne_of_lt hj) hjp

end Alter

/-! ## Storing and purging -/

/-- Writes a value, unless the entry of the path cannot take it. -/
def store (t : Arena) (text : String) (value : Value) (time : Instant) (id : Nat)
    (mask : Mask) : Except ArchiveError Arena := do
  t.checkWrite text value time
  match Path.ofText? text with
  | none => throw (.invalidPath text)
  | some path =>
    let name := path.getLastD ""
    return t.alter (putEntry name (appended name ⟨id, time, value, mask, false⟩))
      path.dropLast 0

/-- The entry that a text names, and the arena without it. -/
def purge (t : Arena) (text : String) : Option Entry × Arena :=
  match Path.ofText? text with
  | none => (none, t)
  | some path =>
    match t.walk? 0 path.dropLast with
    | none => (none, t)
    | some i =>
      match (t.node i).entries.find? (·.name == path.getLastD "") with
      | none => (none, t)
      | some e => (some e, t.editEntries i (eraseEntry (path.getLastD "")))

theorem store_tree (t : Arena) (text : String) (value : Value) (time : Instant)
    (id : Nat) (mask : Mask) :
    (t.store text value time id mask).map tree =
      t.tree.store text value time id mask := by
  unfold store Directory.store
  rw [checkWrite_tree]
  cases t.tree.checkWrite text value time with
  | error e => rfl
  | ok =>
    cases hpath : Path.ofText? text with
    | none => rfl
    | some path =>
      have hne := Path.ne_nil_of_ofText? hpath
      refine congrArg Except.ok ?_
      rw [write, put_eq_alter _ hne]
      exact (directory_alter t.size_pos).1

theorem purge_tree (t : Arena) (text : String) :
    ((t.purge text).1, (t.purge text).2.tree) = t.tree.purge text := by
  unfold purge Directory.purge
  cases hpath : Path.ofText? text with
  | none => rfl
  | some path =>
    have hne := Path.ne_nil_of_ofText? hpath
    have hwalk : t.tree.find? path.dropLast =
        (t.walk? 0 path.dropLast).map t.directory := t.find?_directory 0 _
    have hget := t.tree.get?_of_ne_nil hne
    rw [hwalk] at hget
    dsimp only
    cases hi : t.walk? 0 path.dropLast with
    | none =>
      rw [hi] at hget
      rw [hget, erase_eq_self hget]
      rfl
    | some i =>
      rw [hi, Option.map_some, Option.bind_some, getOwn?, entries_directory]
        at hget
      dsimp only
      cases he : (t.node i).entries.find? (·.name == path.getLastD "") with
      | none =>
        rw [he] at hget
        rw [hget, erase_eq_self hget]
      | some e =>
        have halter :
            (t.alter (eraseEntry (path.getLastD "")) path.dropLast 0).tree =
              t.tree.alter (eraseEntry (path.getLastD "")) path.dropLast :=
          (directory_alter t.size_pos).1
        rw [alter, ensureDirs_of_walk? hi] at halter
        rw [hi] at hwalk
        rw [he] at hget
        rw [hget, erase_eq_alter hne hwalk, ← halter]

/-! ## Trimming -/

/-- Trims every entry. -/
def trim (t : Arena) (kept : Nat) : Arena where
  nodes := t.nodes.map fun n => { n with entries := n.entries.map (·.trim kept) }
  layout := by
    refine t.layout.of_links (List.length_map ..) (fun i => ?_) (fun i => ?_)
    · rw [nodeAt_map rfl]
    · rw [nodeAt_map rfl]

/-- How many revisions a trim drops. -/
def excess (t : Arena) (kept : Nat) : Nat :=
  ((t.nodes.flatMap DirNode.entries).map (·.excess kept)).sum

theorem node_trim (t : Arena) (kept i : Nat) :
    (t.trim kept).node i =
      { t.node i with entries := (t.node i).entries.map (·.trim kept) } :=
  nodeAt_map rfl t.nodes i

theorem directory_trim (t : Arena) (kept i : Nat) :
    (t.trim kept).directory i = (t.directory i).trim kept := by
  induction i using t.induction with
  | step i ih =>
    rw [directory_eq, node_trim, directory_eq, trim_eq_mapEntries, mapEntries,
      mapEntriesOfAll_eq_map, List.map_map]
    refine congrArg _ (List.map_congr_left fun c hc => ?_)
    rw [ih c hc, trim_eq_mapEntries]
    rfl

theorem trim_tree (t : Arena) (kept : Nat) :
    (t.trim kept).tree = t.tree.trim kept :=
  directory_trim t kept 0

theorem excess_tree (t : Arena) (kept : Nat) :
    t.excess kept = t.tree.excess kept := by
  rw [excess_eq_sum]
  exact (t.entries_perm.map _).symm.sum_nat

end Arena

end SettingsArchive
