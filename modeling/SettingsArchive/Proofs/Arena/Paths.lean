import SettingsArchive.Proofs.Arena.Building
import SettingsArchive.Proofs.Loop

/-!
# Texts and places

A text names a path, and a path is a place in a tree.  The two ways between texts and
places are functions of strings on the one side and links of a table on the other.

* `Path.ofText?_eq_some_iff` says which texts name a path: the segments with slashes
  between them, and this text with one slash in front.  So two texts of one path differ
  by that slash at most (`Path.eq_iff_of_ofText?`), and texts of different paths are
  told apart by some tree (`lookup_alike_iff`).
* A name that is joined to a text goes to the end of the path (`Path.ofText?_join`).
* The text of the path of a directory is put together by a loop that follows the links
  to the parents.  In any table this could go on for ever.  In an arena the numbers of
  the nodes fall on the way up, so the loop ends at the root (`Ascent.exists_answer`).

`paths_correspond` has all of it.
-/

namespace SettingsArchive

/-! ## Texts of a path -/

namespace Path

variable {t : String} {path : Path} {name : String}

/-- A slash in front of a text that has one is the end of an empty segment. -/
theorem ofText?_slash_of_isAnchored (h : IsAnchored t) : ofText? ("/" ++ t) = none := by
  obtain ⟨cs, hcs⟩ := h
  have hchars : ("/" ++ t).toList = '/' :: '/' :: cs := by
    rw [String.toList_append, hcs]
    rfl
  rw [ofText?, hchars]
  exact if_pos List.mem_cons_self

/-- A slash in front of a text that has none may be left out. -/
theorem ofText?_slash (h : ¬ IsAnchored t) : ofText? ("/" ++ t) = ofText? t := by
  have hchars : ("/" ++ t).toList = '/' :: t.toList := by
    rw [String.toList_append]
    rfl
  have hdrop : dropSlash t.toList = t.toList := by
    unfold dropSlash
    split
    · rename_i cs hcs
      exact absurd ⟨cs, hcs⟩ h
    · rfl
  rw [ofText?, ofText?, hchars, hdrop]
  rfl

/-- The text of a valid path begins with one slash. -/
theorem IsValid.not_isAnchored (h : path.IsValid) :
    ¬ IsAnchored ("/".intercalate path) := by
  intro hanchored
  have hpath := ofText?_text_of_isValid h
  rw [text_eq, ofText?_slash_of_isAnchored hanchored] at hpath
  cases hpath

/-- The texts that name a path are the segments with slashes between them, and this
with a slash in front. -/
theorem ofText?_eq_some_iff :
    ofText? t = some path ↔ path.IsValid ∧
      (t = "/".intercalate path ∨ t = "/" ++ "/".intercalate path) := by
  constructor
  · intro h
    refine ⟨isValid_of_ofText? h, ?_⟩
    by_cases ht : IsAnchored t
    · right
      rw [← text_eq, text_of_ofText? ht h]
    · left
      rw [← ofText?_slash ht] at h
      have htext := text_of_ofText? (isAnchored_append ⟨[], rfl⟩ t) h
      rw [text_eq, String.append_right_inj] at htext
      exact htext.symm
  · rintro ⟨hvalid, rfl | rfl⟩
    · rw [← ofText?_slash hvalid.not_isAnchored, ← text_eq]
      exact ofText?_text_of_isValid hvalid
    · rw [← text_eq]
      exact ofText?_text_of_isValid hvalid

/-- Two texts of paths name one path if they are equal up to one slash in front. -/
theorem eq_iff_of_ofText? {u : String} {other : Path} (ht : ofText? t = some path)
    (hu : ofText? u = some other) :
    path = other ↔ t = u ∨ t = "/" ++ u ∨ u = "/" ++ t := by
  -- A slash in front of a text is one too many or makes no difference.
  have hslash {t : String} {path other : Path} (ht : ofText? ("/" ++ t) = some path)
      (hu : ofText? t = some other) : path = other := by
    by_cases hanchored : IsAnchored t
    · rw [ofText?_slash_of_isAnchored hanchored] at ht
      cases ht
    · rw [ofText?_slash hanchored, hu] at ht
      exact (Option.some.inj ht).symm
  constructor
  · rintro rfl
    obtain ⟨-, rfl | rfl⟩ := ofText?_eq_some_iff.1 ht
    · obtain ⟨-, rfl | rfl⟩ := ofText?_eq_some_iff.1 hu
      · exact Or.inl rfl
      · exact Or.inr (Or.inr rfl)
    · obtain ⟨-, rfl | rfl⟩ := ofText?_eq_some_iff.1 hu
      · exact Or.inr (Or.inl rfl)
      · exact Or.inl rfl
  · rintro (rfl | rfl | rfl)
    · exact Option.some.inj (ht.symm.trans hu)
    · exact hslash ht hu
    · exact (hslash hu ht).symm

/-! ## Joining -/

/-- A text that names a path does not end with a slash. -/
theorem rdropWhile_of_ofText? (h : ofText? t = some path) :
    t.toList.rdropWhile (· == '/') = t.toList := by
  obtain ⟨hvalid, rfl | rfl⟩ := ofText?_eq_some_iff.1 h
  · have htext := rdropWhile_text hvalid.2 hvalid.1
    rw [text_eq, String.toList_append, List.rdropWhile_eq_self_iff] at htext
    rw [List.rdropWhile_eq_self_iff]
    intro hne
    have hlast := htext (List.append_ne_nil_of_right_ne_nil _ hne)
    rwa [List.getLast_append_of_ne_nil _ hne] at hlast
  · rw [← text_eq]
    exact rdropWhile_text hvalid.2 hvalid.1

theorem join_eq (h : ofText? t = some path) (hname : isSegment name) :
    join t name = t ++ "/" ++ name := by
  have hdrop : name.toList.dropWhile (· == '/') = name.toList := by
    rw [List.dropWhile_eq_self_iff]
    intro hlen hslash
    rw [beq_iff_eq] at hslash
    exact slash_notMem_of_isSegment hname (hslash ▸ List.getElem_mem hlen)
  rw [join, hdrop, ← List.rdropWhile, rdropWhile_of_ofText? h, ← String.toList_inj]
  simp

/-- A name that is joined to the text of a path is the last segment of the path that
they name. -/
theorem ofText?_join (h : ofText? t = some path) (hname : isSegment name) :
    ofText? (join t name) = some (path ++ [name]) := by
  obtain ⟨hvalid, htext⟩ := ofText?_eq_some_iff.1 h
  have hconcat : "/".intercalate (path ++ [name]) =
      "/".intercalate path ++ "/" ++ name := by
    rw [String.intercalate_append_of_ne_nil hvalid.1 (by simp),
      String.intercalate_singleton]
  rw [join_eq h hname, ofText?_eq_some_iff, hconcat]
  refine ⟨isValid_concat hvalid hname, ?_⟩
  rcases htext with rfl | rfl
  · exact Or.inl rfl
  · right
    simp only [String.append_assoc]

/-- A name that is joined to a slash is the only segment. -/
theorem ofText?_join_slash (hname : isSegment name) :
    ofText? (join "/" name) = some [name] := by
  have hjoin : join (text []) name = text ([] ++ [name]) :=
    join_text (fun s hs => by cases hs) hname
  have hslash : text [] = "/" := rfl
  rw [hslash] at hjoin
  rw [hjoin]
  exact ofText?_text_of_isValid (isValid_singleton hname)

end Path

namespace Arena

open Directory

variable {t : Arena} {i : Nat}

/-! ## Entries -/

/-- Texts of one path name the same entry in every arena, and texts of different paths
do not in an arena with one of the two entries. -/
theorem lookup_alike_iff {s u : String} {path other : Path}
    (hs : Path.ofText? s = some path) (hu : Path.ofText? u = some other) :
    (∀ t, Built t → t.lookup s = t.lookup u) ↔ path = other := by
  constructor
  · intro halike
    by_contra hne
    have hstore : empty.tree.store s (.bool true) (.ofSecond 0) 1 .retire =
        .ok (empty.tree.write path ⟨1, .ofSecond 0, .bool true, .retire, false⟩) := by
      refine store_eq_ok_iff.2 ⟨path, hs, ?_, rfl⟩
      intro e he
      rw [tree_empty, Directory.empty, get?_empty] at he
      cases he
    let t := empty.behind (.change (.store s (.bool true) (.ofSecond 0) 1 .retire))
    have htree : t.tree =
        empty.tree.write path ⟨1, .ofSecond 0, .bool true, .retire, false⟩ := by
      rw [behind_tree, Directory.behind, Directory.perform, hstore]
    have halike := halike t (Built.empty.behind _)
    rw [lookup_tree, lookup_tree, Directory.lookup, Directory.lookup, hs, hu,
      Option.bind_some, Option.bind_some, htree,
      get?_write (Path.ne_nil_of_ofText? hs), get?_write (Path.ne_nil_of_ofText? hs),
      if_pos rfl, if_neg (Ne.symm hne), tree_empty, Directory.empty, get?_empty,
      get?_empty] at halike
    cases halike
  · rintro rfl t -
    rw [lookup, lookup, hs, hu]

/-! ## The way up -/

/-- Where the loop is on the way up: the names that it has passed, and the next
directory. -/
structure Ascent where
  names : List String
  next : Option Nat

namespace Ascent

/-- Follows the link of one directory.  The root has no name to be noted. -/
def round (nodes : List DirNode) (a : Ascent) : Round Ascent (List String) :=
  match a.next with
  | none => .done a.names
  | some i =>
    let node := nodeAt nodes i
    .next ⟨if node.parent.isSome then a.names ++ [node.name] else a.names, node.parent⟩

/-- All names from the first directory up to the root. -/
def all (t : Arena) (a : Ascent) : List String :=
  a.names ++ (a.next.elim [] t.segments).reverse

/-- How many rounds there are still to come at most, before the last one. -/
def left (a : Ascent) : Nat :=
  a.next.elim 0 (· + 1)

/-- A round leaves the names as they are all together, and goes on to a directory of a
smaller number. -/
theorem meets_round (t : Arena) (a : Ascent) :
    (a.round t.nodes).Meets (fun names => names = a.all t)
      fun b => b.all t = a.all t ∧ b.left < a.left := by
  cases hnext : a.next with
  | none =>
    have hround : a.round t.nodes = .done a.names := by
      rw [round, hnext]
    have hall : a.all t = a.names := by
      simp [all, hnext]
    rw [hround]
    exact hall.symm
  | some i =>
    cases hp : (t.node i).parent with
    | none =>
      have hround : a.round t.nodes = .next ⟨a.names, none⟩ := by
        have hnode : (nodeAt t.nodes i).parent = none := hp
        simp [round, hnext, hnode]
      rw [hround]
      refine ⟨?_, ?_⟩
      · simp [all, hnext, segments_of_parent_none hp]
      · simp [left, hnext]
    | some p =>
      have hmem := parent_eq_some_iff.1 hp
      have hround : a.round t.nodes = .next ⟨a.names ++ [(t.node i).name], some p⟩ := by
        have hnode : (nodeAt t.nodes i).parent = some p := hp
        simp only [round, hnext, hnode, Option.isSome_some, if_true]
        rfl
      rw [hround]
      refine ⟨?_, ?_⟩
      · simp [all, hnext, segments_child hmem]
      · simpa [left, hnext] using lt_of_mem_children hmem

/-- The loop ends at the root, with the names on the way in the order in which it
passes them. -/
theorem exists_answer (t : Arena) (i : Nat) {rounds : Nat} (h : i + 1 < rounds) :
    Round.answer? (round t.nodes) rounds ⟨[], some i⟩ =
      some (t.segments i).reverse := by
  have hround (a : Ascent) (ha : a.all t = (t.segments i).reverse) :
      (a.round t.nodes).Meets (· = (t.segments i).reverse)
        fun b => b.all t = (t.segments i).reverse ∧ b.left < a.left := by
    have hmeets := meets_round t a
    rwa [ha] at hmeets
  obtain ⟨names, rfl, hends⟩ :=
    Round.exists_answer hround (s := ⟨[], some i⟩) (List.nil_append _)
  exact hends rounds h

end Ascent

/-- The text of the path of a directory, with so many rounds for the way up. -/
def pathWithin (nodes : List DirNode) (i rounds : Nat) : Option String :=
  (Round.answer? (Ascent.round nodes) rounds ⟨[], some i⟩).map fun names =>
    "/" ++ "/".intercalate names.reverse

theorem pathWithin_eq (t : Arena) (i : Nat) {rounds : Nat} (h : i + 1 < rounds) :
    pathWithin t.nodes i rounds = some (t.pathOf i) := by
  rw [pathWithin, Ascent.exists_answer t i h, Option.map_some, List.reverse_reverse,
    pathOf]

/-- The path of a directory has the names of the directories on the way down to it. -/
theorem exists_way (hi : i < t.size) :
    ∃ way : List Nat, (0 :: way).IsChain (fun p c => c ∈ (t.node p).children) ∧
      (0 :: way).getLast? = some i ∧
      t.segments i = way.map fun c => (t.node c).name := by
  induction i using Nat.strongRecOn with
  | ind i ih =>
    cases i with
    | zero => exact ⟨[], .singleton 0, rfl, segments_root t⟩
    | succ i =>
      obtain ⟨p, hp⟩ := t.layout.rooted (i + 1) (Nat.succ_pos i) hi
      have hmem : i + 1 ∈ (t.node p).children := parent_eq_some_iff.1 hp
      have hlt := lt_of_mem_children hmem
      obtain ⟨way, hchain, hlast, hnames⟩ := ih p hlt (Nat.lt_trans hlt hi)
      refine ⟨way ++ [i + 1], ?_, ?_, ?_⟩
      · rw [← List.cons_append, List.isChain_append]
        refine ⟨hchain, .singleton _, ?_⟩
        intro q hq c hc
        rw [hlast] at hq
        cases hq
        cases hc
        exact hmem
      · rw [← List.cons_append, List.getLast?_concat]
      · rw [segments_child hmem, hnames, List.map_append]
        rfl

/-- Texts, paths and directories correspond.  A text names a path exactly if it is the
segments of the path with slashes between them, with or without a slash in front, so
texts of paths name the same entry in all arenas exactly if they are equal up to this
slash.  A name that is joined to a text goes to the end of its path.  In an arena that
is built the way up from a directory ends, and the text that it makes up names the
directory and has the names from the root down. -/
theorem paths_correspond :
    (∀ text path, Path.ofText? text = some path ↔ path.IsValid ∧
      (text = "/".intercalate path ∨ text = "/" ++ "/".intercalate path)) ∧
    (∀ s u, (Path.ofText? s).isSome → (Path.ofText? u).isSome →
      ((∀ t, Built t → t.lookup s = t.lookup u) ↔
        s = u ∨ s = "/" ++ u ∨ u = "/" ++ s)) ∧
    (∀ text path name, Path.ofText? text = some path → Path.isSegment name →
      Path.ofText? (Path.join text name) = some (path ++ [name])) ∧
    (∀ name, Path.isSegment name →
      Path.ofText? (Path.join "/" name) = some [name]) ∧
    ∀ t, Built t → ∀ i, 0 < i → i < t.size →
      (∀ rounds, t.size < rounds →
        pathWithin t.nodes i rounds = some (t.pathOf i)) ∧
      t.lookupDir (t.pathOf i) = some i ∧
      ∃ way : List Nat, (0 :: way).IsChain (fun p c => c ∈ (t.node p).children) ∧
        (0 :: way).getLast? = some i ∧
        Path.ofText? (t.pathOf i) = some (way.map fun c => (t.node c).name) := by
  refine ⟨fun text path => Path.ofText?_eq_some_iff, ?_,
    fun text path name => Path.ofText?_join, fun name => Path.ofText?_join_slash, ?_⟩
  · intro s u hs hu
    obtain ⟨path, hs⟩ := Option.isSome_iff_exists.1 hs
    obtain ⟨other, hu⟩ := Option.isSome_iff_exists.1 hu
    rw [lookup_alike_iff hs hu, Path.eq_iff_of_ofText? hs hu]
  · intro t h i hpos hi
    obtain ⟨way, hchain, hlast, hnames⟩ := exists_way hi
    refine ⟨fun rounds hrounds => pathWithin_eq t i (by omega),
      lookupDir_pathOf h.isNamed hpos hi, way, hchain, hlast, ?_⟩
    rw [← hnames]
    exact ofText?_pathOf h.isNamed hpos hi

/-- A directory within another one, and two texts of its entry. -/
theorem paths_of_nested_directory :
    let t := empty.run
      [.change (.store "/a/b/x" (.bool true) (.ofSecond 1) 1 .retire)]
    Built t ∧ t.size = 3 ∧ t.pathOf 2 = "/a/b" ∧ t.lookupDir "/a/b" = some 2 ∧
      Path.ofText? (Path.join (t.pathOf 2) "x") = some ["a", "b", "x"] ∧
      t.lookup "a/b/x" = t.lookup "/a/b/x" ∧
      Path.ofText? (Path.join "/" "a") = some ["a"] := by
  intro t
  have h : Built t := Built.empty.run _
  have hsize : t.size = 3 := by decide +kernel
  have hwithin : pathWithin t.nodes 2 4 = some "/a/b" := by decide +kernel
  obtain ⟨hread, halike, hjoin, hslash, hdirectories⟩ := paths_correspond
  obtain ⟨hends, hnamed, -⟩ := hdirectories t h 2 (by decide) (by omega)
  have hpath : t.pathOf 2 = "/a/b" :=
    Option.some.inj ((hends 4 (by omega)).symm.trans hwithin)
  have htext : Path.ofText? "/a/b" = some ["a", "b"] :=
    (hread "/a/b" ["a", "b"]).2 ⟨⟨by simp, by decide⟩, Or.inr rfl⟩
  rw [hpath] at hnamed ⊢
  refine ⟨h, hsize, rfl, hnamed, hjoin _ _ _ htext (by decide), ?_,
    hslash "a" (by decide)⟩
  exact (halike "a/b/x" "/a/b/x" (by decide) (by decide)).2 (Or.inr (Or.inr rfl)) t h

end Arena

end SettingsArchive
