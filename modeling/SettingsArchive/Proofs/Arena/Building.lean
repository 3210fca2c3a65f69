import SettingsArchive.Proofs.Arena.Layouts

/-!
# Arenas that are built

An arena begins empty.  The calls of `Layouts` change it, and so does the reader of
a saved text, which adds a directory or an entry at a time to a directory that it
is in.  `Arena.Built` has all arenas that come about in this way.

What they have in common is that their names are sound, node by node (`IsNamed`).
In such an arena the text of the path of a directory, which is read up to the root,
leads down again to the directory (`lookupDir_pathOf`).
-/

namespace SettingsArchive

namespace Directory

/-- Every change keeps a tree sound. -/
theorem Sound.perform {d : Directory} (h : d.Sound) (c : Change) :
    (Directory.perform d c).Sound :=
  (h.represents.perform c).sound

end Directory

namespace Arena

open Directory

variable {t : Arena} {i j c p : Nat} {name : String}

/-! ## Names -/

/-- The names of the entries and the directories in a directory are segments, and
none repeats. -/
structure IsNamed (t : Arena) (i : Nat) : Prop where
  entryNames : ((t.node i).entries.map Entry.name).Nodup
  entrySegments : ∀ e ∈ (t.node i).entries, Path.isSegment e.name
  directoryNames : ((t.node i).children.map fun c => (t.node c).name).Nodup
  directorySegments : ∀ c ∈ (t.node i).children, Path.isSegment (t.node c).name

/-- Where entries and directories stay, and the directories keep their names, the
names are sound as before. -/
theorem IsNamed.of_eq {u : Arena} (h : t.IsNamed i)
    (hentries : (u.node i).entries = (t.node i).entries)
    (hchildren : (u.node i).children = (t.node i).children)
    (hnames : ∀ c ∈ (t.node i).children, (u.node c).name = (t.node c).name) :
    u.IsNamed i where
  entryNames := hentries ▸ h.entryNames
  entrySegments := hentries ▸ h.entrySegments
  directoryNames := by
    rw [hchildren, List.map_congr_left hnames]
    exact h.directoryNames
  directorySegments := by
    intro c hc
    rw [hchildren] at hc
    rw [hnames c hc]
    exact h.directorySegments c hc

/-- A tree is sound if the names are in all its nodes. -/
theorem sound_directory_iff :
    (t.directory i).Sound ↔ ∀ j, t.Below i j → t.IsNamed j := by
  induction i using t.induction with
  | step i ih =>
    have hnames : (t.directory i).directories.map Directory.name =
        (t.node i).children.map fun c => (t.node c).name := by
      simp [Function.comp_def]
    constructor
    · intro h j hj
      rcases below_iff.1 hj with rfl | ⟨c, hc, hj⟩
      · refine ⟨by simpa using h.entryNames, by simpa using h.entrySegments,
          hnames ▸ h.directoryNames, fun c hc => ?_⟩
        have hmem : t.directory c ∈ (t.directory j).directories := by
          rw [directories_directory]
          exact List.mem_map_of_mem hc
        simpa using h.directorySegments _ hmem
      · refine (ih c hc).1 (h.children _ ?_) j hj
        rw [directories_directory]
        exact List.mem_map_of_mem hc
    · intro h
      have hi := h i (Below.refl t i)
      have hchildren : ∀ d ∈ (t.node i).children.map t.directory,
          Path.isSegment d.name ∧ d.Sound := by
        intro d hd
        obtain ⟨c, hc, rfl⟩ := List.mem_map.1 hd
        rw [name_directory]
        exact ⟨hi.directorySegments c hc,
          (ih c hc).2 fun j hj => h j (hj.head hc)⟩
      rw [directory_eq]
      refine ⟨hi.entryNames, hi.entrySegments, ?_,
        fun d hd => (hchildren d hd).1, fun d hd => (hchildren d hd).2⟩
      rw [directories_directory] at hnames
      exact hnames ▸ hi.directoryNames

/-- The tree of an arena is sound if the names are in all nodes. -/
theorem sound_tree_iff : t.tree.Sound ↔ ∀ i, t.IsNamed i := by
  rw [tree, sound_directory_iff]
  constructor
  · intro h i
    rcases Nat.lt_or_ge i t.size with hi | hi
    · exact h i (below_root hi)
    · -- There is nothing in a node that is not there.
      have hnone : t.node i = { name := "" } := node_of_le hi
      refine ⟨?_, ?_, ?_, ?_⟩ <;> simp [hnone]
  · intro h i _
    exact h i

/-! ## Up and down -/

/-- The directory that a text names. -/
def lookupDir (t : Arena) (text : String) : Option Nat :=
  (Path.ofText? text).bind (t.walk? 0)

theorem walk?_concat (t : Arena) (i : Nat) (path : Path) (name : String) :
    t.walk? i (path ++ [name]) = (t.walk? i path).bind (t.subdir? · name) := by
  rw [walk?, List.foldlM_append]
  refine Option.bind_congr fun j _ => ?_
  rw [List.foldlM_cons]
  exact bind_pure _

/-- Where no name repeats, a directory is found by its name. -/
theorem subdir?_of_mem (h : t.IsNamed i) (hc : c ∈ (t.node i).children) :
    t.subdir? i (t.node c).name = some c := by
  cases hfind : t.subdir? i (t.node c).name with
  | none =>
    rw [subdir?, List.find?_eq_none] at hfind
    exact absurd (beq_self_eq_true _) (hfind c hc)
  | some d =>
    obtain ⟨hd, hname⟩ := subdir?_eq_some hfind
    rw [List.inj_on_of_nodup_map h.directoryNames hd hc hname]

theorem segments_of_parent_none (h : (t.node i).parent = none) :
    t.segments i = [] := by
  rw [segments]
  split
  · rfl
  · rename_i p hp
    rw [h] at hp
    cases hp

section Paths

variable (h : ∀ i, t.IsNamed i)

include h

theorem isSegment_of_mem_segments {s : String} (hs : s ∈ t.segments i) :
    Path.isSegment s := by
  induction i using Nat.strongRecOn with
  | ind i ih =>
    cases hp : (t.node i).parent with
    | none =>
      rw [segments_of_parent_none hp] at hs
      cases hs
    | some p =>
      have hmem := parent_eq_some_iff.1 hp
      rw [segments_child hmem, List.mem_append, List.mem_singleton] at hs
      rcases hs with hs | rfl
      · exact ih p (lt_of_mem_children hmem) hs
      · exact (h p).directorySegments i hmem

/-- The names on the way up lead down again. -/
theorem walk?_segments (hi : i < t.size) : t.walk? 0 (t.segments i) = some i := by
  induction i using Nat.strongRecOn with
  | ind i ih =>
    cases i with
    | zero =>
      rw [segments_root]
      rfl
    | succ i =>
      obtain ⟨p, hp⟩ := t.layout.rooted (i + 1) (Nat.succ_pos i) hi
      have hmem : i + 1 ∈ (t.node p).children := parent_eq_some_iff.1 hp
      have hlt := lt_of_mem_children hmem
      rw [segments_child hmem, walk?_concat, ih p hlt (Nat.lt_trans hlt hi),
        Option.bind_some, subdir?_of_mem (h p) hmem]

/-- The text of a directory but the root is read as the names from the root
down. -/
theorem ofText?_pathOf (hpos : 0 < i) (hi : i < t.size) :
    Path.ofText? (t.pathOf i) = some (t.segments i) := by
  obtain ⟨p, hp⟩ := t.layout.rooted i hpos hi
  have hne : t.segments i ≠ [] := by
    rw [segments_child (parent_eq_some_iff.1 hp)]
    simp
  rw [pathOf, ← Path.text_eq]
  exact Path.ofText?_text hne fun s hs => isSegment_of_mem_segments h hs

/-- The text of a directory but the root names the directory. -/
theorem lookupDir_pathOf (hpos : 0 < i) (hi : i < t.size) :
    t.lookupDir (t.pathOf i) = some i := by
  rw [lookupDir, ofText?_pathOf h hpos hi, Option.bind_some, walk?_segments h hi]

end Paths

/-! ## Building -/

/-- Adds an entry to a directory, unless there is one of its name, and says whether
it was added. -/
def insertEntry (t : Arena) (i : Nat) (e : Entry) : Arena × Bool :=
  if (t.node i).entries.any (·.name == e.name) then (t, false)
  else (t.editEntries i (· ++ [e]), true)

/-- The arenas that calls lead to, and the reader of a text, which adds directories
and entries with valid names to a directory that is there. -/
inductive Built : Arena → Prop where
  | empty : Built empty
  | behind {t : Arena} (h : Built t) (call : Call) : Built (t.behind call)
  | ensureDir {t : Arena} (h : Built t) {p : Nat} (hp : p < t.size)
      {name : String} (valid : Path.isSegment name) :
      Built (t.ensureDir p name).1
  | insertEntry {t : Arena} (h : Built t) {i : Nat} (hi : i < t.size)
      {e : Entry} (valid : Path.isSegment e.name) : Built (t.insertEntry i e).1

theorem Built.run (h : Built t) (calls : List Call) : Built (t.run calls) := by
  induction calls generalizing t with
  | nil => exact h
  | cons call calls ih => exact ih (h.behind call)

theorem isNamed_addChild (h : ∀ i, t.IsNamed i) (hp : p < t.size)
    (valid : Path.isSegment name)
    (hnew : ∀ c ∈ (t.node p).children, (t.node c).name ≠ name) (i : Nat) :
    (t.addChild p name []).IsNamed i := by
  have hname {q : Nat} : ∀ c ∈ (t.node q).children,
      ((t.addChild p name []).node c).name = (t.node c).name := by
    intro c hc
    have hne := Nat.ne_of_lt (lt_size_of_mem_children hc)
    by_cases hcp : c = p
    · rw [hcp, node_addChild_parent hp]
    · rw [node_addChild_of_ne hp hne hcp]
  have hlast : (t.addChild p name []).node t.size =
      { name, parent := some p } := node_addChild_new hp
  by_cases hi : i = t.size
  · refine ⟨?_, ?_, ?_, ?_⟩ <;> simp [hi, hlast]
  · by_cases hip : i = p
    · subst hip
      have hself : (t.addChild i name []).node i =
          { t.node i with children := (t.node i).children ++ [t.size] } :=
        node_addChild_parent hp
      refine ⟨?_, ?_, ?_, ?_⟩
      · rw [hself]
        exact (h i).entryNames
      · rw [hself]
        exact (h i).entrySegments
      · rw [hself]
        apply Keyed.nodup_map_concat
        · rw [List.map_congr_left hname]
          exact (h i).directoryNames
        · rw [List.map_congr_left hname, hlast]
          intro hmem
          obtain ⟨c, hc, heq⟩ := List.mem_map.1 hmem
          exact hnew c hc heq
      · intro c hc
        rw [hself] at hc
        rcases List.mem_append.1 hc with hc | hc
        · rw [hname c hc]
          exact (h i).directorySegments c hc
        · rw [List.mem_singleton.1 hc, hlast]
          exact valid
    · have hself : (t.addChild p name []).node i = t.node i :=
        node_addChild_of_ne hp hi hip
      exact (h i).of_eq (by rw [hself]) (by rw [hself]) hname

theorem isNamed_ensureDir (h : ∀ i, t.IsNamed i) (hp : p < t.size)
    (valid : Path.isSegment name) (i : Nat) :
    (t.ensureDir p name).1.IsNamed i := by
  unfold ensureDir
  cases hfind : t.subdir? p name with
  | some c => exact h i
  | none =>
    refine isNamed_addChild h hp valid (fun c hc => ?_) i
    simpa using List.find?_eq_none.1 hfind c hc

theorem isNamed_insertEntry (h : ∀ i, t.IsNamed i) (hi : i < t.size) {e : Entry}
    (valid : Path.isSegment e.name) (j : Nat) :
    (t.insertEntry i e).1.IsNamed j := by
  unfold insertEntry
  split
  · exact h j
  · rename_i hnew
    show (t.editEntries i (· ++ [e])).IsNamed j
    have hself : (t.editEntries i (· ++ [e])).node i =
        { t.node i with entries := (t.node i).entries ++ [e] } :=
      node_editEntries_self hi _
    have hother {k : Nat} (hk : k ≠ i) :
        (t.editEntries i (· ++ [e])).node k = t.node k :=
      node_editEntries_of_ne hk _
    have hname (c : Nat) : ((t.editEntries i (· ++ [e])).node c).name =
        (t.node c).name := by
      by_cases hc : c = i
      · rw [hc, hself]
      · rw [hother hc]
    by_cases hj : j = i
    · subst hj
      refine ⟨?_, ?_, ?_, ?_⟩
      · rw [hself]
        apply Keyed.nodup_map_concat (h j).entryNames
        intro hmem
        obtain ⟨d, hd, heq⟩ := List.mem_map.1 hmem
        exact hnew (List.any_eq_true.2 ⟨d, hd, beq_iff_eq.2 heq⟩)
      · intro d hd
        rw [hself] at hd
        rcases List.mem_append.1 hd with hd | hd
        · exact (h j).entrySegments d hd
        · rw [List.mem_singleton.1 hd]
          exact valid
      · simp only [hname]
        rw [hself]
        exact (h j).directoryNames
      · intro c hc
        rw [hself] at hc
        rw [hname]
        exact (h j).directorySegments c hc
    · exact (h j).of_eq (by rw [hother hj]) (by rw [hother hj]) fun c _ => hname c

/-- In an arena that is built all names are sound. -/
theorem Built.isNamed (h : Built t) (i : Nat) : t.IsNamed i := by
  induction h generalizing i with
  | empty =>
    refine sound_tree_iff.1 ?_ i
    rw [tree_empty]
    exact sound_empty ""
  | @behind t _ call ih =>
    refine sound_tree_iff.1 ?_ i
    rw [behind_tree]
    cases call with
    | change c => exact (sound_tree_iff.2 ih).perform c
    | check _ _ _ => exact sound_tree_iff.2 ih
    | lookup _ => exact sound_tree_iff.2 ih
    | count => exact sound_tree_iff.2 ih
    | list => exact sound_tree_iff.2 ih
  | ensureDir _ hp valid ih => exact isNamed_ensureDir ih hp valid i
  | insertEntry _ hi valid ih => exact isNamed_insertEntry ih hi valid i

end Arena

end SettingsArchive
