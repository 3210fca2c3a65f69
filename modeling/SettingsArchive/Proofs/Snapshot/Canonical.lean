import SettingsArchive.Proofs.Snapshot.Reading
import SettingsArchive.Proofs.Snapshot.Storing

/-!
# One document for equal settings

A snapshot is put together one setting after the other, in the order of their
places.  Each step keeps the children of every directory arranged (`IsArranged`):
first the entries and then the directories, both in the order of their names.  And
each step adds an entry behind those of the same path (`AddsBehind`), so settings of
one path stand in the document in the order in which they were given.

The document does not list its settings in the order of their places: an entry
stands in front of directories with smaller names.  But a sorted list is known by
what it has at each path (`eq_of_atPath`), and sorting keeps that
(`atPath_inOrder`).  So the settings that are read from a snapshot are sorted as
those that it was made of, and their snapshot is the same
(`exists_ofElement_toElement`).
-/

namespace SettingsArchive.Snapshot

open Xml (Element)

/-! ## What a list has at a path -/

section AtPath

variable {α : Type} {path : Path} {xs ys : List (Path × α)}

/-- What a list has at a path, in its order. -/
def atPath (path : Path) (xs : List (Path × α)) : List (Path × α) :=
  xs.filter fun x => x.1 = path

theorem mem_atPath_iff {x : Path × α} :
    x ∈ atPath path xs ↔ x ∈ xs ∧ x.1 = path := by
  simp [atPath]

theorem atPath_append (path : Path) (xs ys : List (Path × α)) :
    atPath path (xs ++ ys) = atPath path xs ++ atPath path ys :=
  List.filter_append xs ys

theorem atPath_cons_self (x : Path × α) (xs : List (Path × α)) :
    atPath x.1 (x :: xs) = x :: atPath x.1 xs :=
  List.filter_cons_of_pos (by simp)

theorem atPath_eq_nil (h : ∀ x ∈ xs, x.1 ≠ path) : atPath path xs = [] :=
  List.filter_eq_nil_iff.2 fun x hx => by simpa using h x hx

/-- The paths stand in their order. -/
def IsSorted (xs : List (Path × α)) : Prop :=
  xs.Pairwise fun x y => x.1.notAfter y.1

/-- The list in the order of its paths. -/
def inOrder (xs : List (Path × α)) : List (Path × α) :=
  xs.mergeSort fun x y => x.1.notAfter y.1

theorem inOrder_perm (xs : List (Path × α)) : (inOrder xs).Perm xs :=
  List.mergeSort_perm xs _

theorem isSorted_inOrder (xs : List (Path × α)) : IsSorted (inOrder xs) := by
  refine List.pairwise_mergeSort ?_ ?_ xs
  · intro x y z hxy hyz
    exact Path.notAfter_trans hxy hyz
  · intro x y
    exact Path.notAfter_total x.1 y.1

/-- Sorting keeps the order of what is at one path. -/
theorem atPath_inOrder (path : Path) (xs : List (Path × α)) :
    atPath path (inOrder xs) = atPath path xs := by
  have hsorted : IsSorted (atPath path xs) := by
    refine List.pairwise_of_forall_mem_list fun x hx y hy => ?_
    rw [(mem_atPath_iff.1 hx).2, (mem_atPath_iff.1 hy).2]
    exact Path.notAfter_refl path
  have hsublist : (atPath path xs).Sublist (inOrder xs) := by
    refine List.sublist_mergeSort ?_ ?_ hsorted List.filter_sublist
    · intro x y z hxy hyz
      exact Path.notAfter_trans hxy hyz
    · intro x y
      exact Path.notAfter_total x.1 y.1
  have hatPath : (atPath path xs).Sublist (atPath path (inOrder xs)) := by
    have h := hsublist.filter fun x => decide (x.1 = path)
    simpa [atPath, List.filter_filter] using h
  exact (hatPath.eq_of_length ((inOrder_perm xs).filter _).length_eq.symm).symm

theorem IsSorted.head_notAfter {x y : Path × α} (h : IsSorted (x :: xs))
    (hy : y ∈ x :: xs) : x.1.notAfter y.1 := by
  rcases List.mem_cons.1 hy with rfl | hy
  · exact Path.notAfter_refl y.1
  · exact List.rel_of_pairwise_cons h hy

theorem mem_iff_of_atPath (h : ∀ path, atPath path xs = atPath path ys)
    (x : Path × α) : x ∈ xs ↔ x ∈ ys := by
  have hx : x ∈ atPath x.1 xs ↔ x ∈ atPath x.1 ys := by rw [h x.1]
  simpa only [mem_atPath_iff, and_true] using hx

/-- A sorted list is known by what it has at each path. -/
theorem eq_of_atPath (hx : IsSorted xs) (hy : IsSorted ys)
    (h : ∀ path, atPath path xs = atPath path ys) : xs = ys := by
  induction xs generalizing ys with
  | nil =>
    have hnone (y : Path × α) : y ∉ ys :=
      mt (mem_iff_of_atPath h y).2 List.not_mem_nil
    exact (List.eq_nil_iff_forall_not_mem.2 hnone).symm
  | cons x xs ih =>
    have hmem := mem_iff_of_atPath h
    cases ys with
    | nil => exact absurd ((hmem x).1 List.mem_cons_self) List.not_mem_nil
    | cons y ys =>
      -- Each of the heads is a member of the other list.
      have hpath : x.1 = y.1 := Path.notAfter_antisymm
        (hx.head_notAfter ((hmem y).2 List.mem_cons_self))
        (hy.head_notAfter ((hmem x).1 List.mem_cons_self))
      have hhead := h x.1
      rw [atPath_cons_self, hpath, atPath_cons_self] at hhead
      obtain rfl : x = y := (List.cons.inj hhead).1
      have htail (path : Path) : atPath path xs = atPath path ys := by
        have hcons : atPath path ([x] ++ xs) = atPath path ([x] ++ ys) := h path
        rw [atPath_append, atPath_append] at hcons
        exact List.append_cancel_left hcons
      rw [ih (List.Pairwise.of_cons hx) (List.Pairwise.of_cons hy) htail]

/-- One member more, behind those of its path.  All others stay in their order. -/
def IsAdded (x : Path × α) (xs ys : List (Path × α)) : Prop :=
  ∀ path, atPath path ys = atPath path xs ++ atPath path [x]

theorem isAdded_nil (x : Path × α) : IsAdded x [] [x] :=
  fun _ => rfl

theorem IsAdded.append_left {x : Path × α} (h : IsAdded x xs ys)
    (front : List (Path × α)) : IsAdded x (front ++ xs) (front ++ ys) := by
  intro path
  rw [atPath_append, atPath_append, h path, List.append_assoc]

/-- Members behind it do not count where they have other paths. -/
theorem IsAdded.append_right {x : Path × α} (h : IsAdded x xs ys)
    {back : List (Path × α)} (hback : ∀ y ∈ back, y.1 ≠ x.1) :
    IsAdded x (xs ++ back) (ys ++ back) := by
  intro path
  rw [atPath_append, atPath_append, h path, List.append_assoc, List.append_assoc,
    List.append_cancel_left_eq]
  by_cases hpath : x.1 = path
  · subst hpath
    rw [atPath_eq_nil hback, List.append_nil, List.nil_append]
  · have hnone : atPath path [x] = [] :=
      atPath_eq_nil (List.forall_mem_singleton.2 hpath)
    rw [hnone, List.append_nil, List.nil_append]

theorem IsAdded.eq_or_mem {x y : Path × α} (h : IsAdded x xs ys) (hy : y ∈ ys) :
    y ∈ xs ∨ y = x := by
  have hmem : y ∈ atPath y.1 ys := mem_atPath_iff.2 ⟨hy, rfl⟩
  rw [h y.1] at hmem
  refine (List.mem_append.1 hmem).imp (fun hx => (mem_atPath_iff.1 hx).1) ?_
  exact fun hx => List.mem_singleton.1 (mem_atPath_iff.1 hx).1

end AtPath

/-! ## Arranged children -/

/-- The name that an element is given. -/
def nameGiven (e : Element) : String :=
  (e.attribute? "name").getD ""

/-- Children that are entries and behind them directories.  Both are in the order of
their names, no two directories have one name, and in each directory there are
children, which are arranged as well. -/
inductive IsArranged : List Element → Prop
  | intro {entries dirs : List Element}
      (entry : ∀ e ∈ entries, e.name = "entry")
      (dir : ∀ d ∈ dirs, d.name = "dir")
      (sorted : (entries.map nameGiven).Pairwise (· ≤ ·))
      (distinct : (dirs.map nameGiven).Pairwise (· < ·))
      (filled : ∀ d ∈ dirs, d.children ≠ [])
      (inner : ∀ d ∈ dirs, IsArranged d.children) :
      IsArranged (entries ++ dirs)

theorem isArranged_nil : IsArranged [] :=
  @IsArranged.intro [] [] nofun nofun .nil .nil nofun nofun

theorem entriesOf_entry {e : Element} (h : e.name = "entry") (above : Path) :
    entriesOf above e = [(above ++ [nameGiven e], e)] := by
  obtain ⟨kind, attributes, children, text⟩ := e
  exact if_pos h

theorem entriesOf_dir {e : Element} (h : e.name = "dir") (above : Path) :
    entriesOf above e = entriesAmong (above ++ [nameGiven e]) e.children := by
  obtain ⟨kind, attributes, children, text⟩ := e
  obtain rfl : kind = "dir" := h
  rw [entriesOf, if_neg (by decide), if_pos rfl]
  rfl

theorem entriesAmong_append (above : Path) (es fs : List Element) :
    entriesAmong above (es ++ fs) = entriesAmong above es ++ entriesAmong above fs := by
  induction es with
  | nil => rfl
  | cons e es ih =>
    rw [List.cons_append, entriesAmong, entriesAmong, ih, List.append_assoc]

theorem mem_entriesAmong_iff {above : Path} {es : List Element} {x : Path × Element} :
    x ∈ entriesAmong above es ↔ ∃ e ∈ es, x ∈ entriesOf above e := by
  induction es with
  | nil => simp [entriesAmong]
  | cons e es ih => simp [entriesAmong, ih]

theorem mem_entriesAmong_of_entry {above : Path} {es : List Element} {e : Element}
    (he : e ∈ es) (hkind : e.name = "entry") :
    (above ++ [nameGiven e], e) ∈ entriesAmong above es := by
  refine mem_entriesAmong_iff.2 ⟨e, he, ?_⟩
  rw [entriesOf_entry hkind]
  exact List.mem_singleton_self _

theorem mem_entriesAmong_of_dir {above : Path} {es : List Element} {d : Element}
    (hd : d ∈ es) (hkind : d.name = "dir") {x : Path × Element}
    (hx : x ∈ entriesAmong (above ++ [nameGiven d]) d.children) :
    x ∈ entriesAmong above es :=
  mem_entriesAmong_iff.2 ⟨d, hd, entriesOf_dir hkind above ▸ hx⟩

/-- The entries of directories lie below their names. -/
theorem exists_dir_of_mem_entriesAmong {above : Path} {dirs : List Element}
    (hdir : ∀ d ∈ dirs, d.name = "dir") {x : Path × Element}
    (hx : x ∈ entriesAmong above dirs) :
    ∃ d ∈ dirs, ∃ rest, rest ≠ [] ∧ x.1 = above ++ nameGiven d :: rest := by
  obtain ⟨d, hd, hx⟩ := mem_entriesAmong_iff.1 hx
  rw [entriesOf_dir (hdir d hd)] at hx
  obtain ⟨rest, hne, hrest⟩ := exists_rest_of_mem_entriesAmong _ _ hx
  exact ⟨d, hd, rest, hne, by rw [hrest, List.append_assoc, List.singleton_append]⟩

/-- Arranged children have an entry among or below them, if there are any. -/
theorem IsArranged.exists_entry {children : List Element} (h : IsArranged children)
    (hne : children ≠ []) (above : Path) : ∃ x, x ∈ entriesAmong above children := by
  induction h generalizing above with
  | @intro entries dirs entry dir _ _ filled _ ih =>
    obtain ⟨e, he⟩ := List.exists_mem_of_ne_nil _ hne
    rcases List.mem_append.1 he with hentry | hdir
    · exact ⟨_, mem_entriesAmong_of_entry he (entry e hentry)⟩
    · obtain ⟨x, hx⟩ := ih e hdir (filled e hdir) (above ++ [nameGiven e])
      exact ⟨x, mem_entriesAmong_of_dir he (dir e hdir) hx⟩

/-! ## Changing arranged children -/

/-- An entry is put between the entries and the directories. -/
theorem insertEntry_append {entries dirs : List Element}
    (hentry : ∀ e ∈ entries, e.name = "entry") (hdir : ∀ d ∈ dirs, d.name = "dir")
    (e : Element) : insertEntry e (entries ++ dirs) = entries ++ e :: dirs := by
  induction entries with
  | nil =>
    cases dirs with
    | nil => rfl
    | cons d dirs => exact if_pos (hdir d List.mem_cons_self)
  | cons c entries ih =>
    obtain ⟨hc, hentry⟩ := List.forall_mem_cons.1 hentry
    rw [List.cons_append, insertEntry, if_neg (by rw [hc]; decide), ih hentry,
      List.cons_append]

/-- A directory is looked for behind the entries. -/
theorem inDirectory_append {entries : List Element}
    (hentry : ∀ e ∈ entries, e.name = "entry") (name : String)
    (change : List Element → List Element) (dirs : List Element) :
    inDirectory name change (entries ++ dirs) =
      entries ++ inDirectory name change dirs := by
  induction entries with
  | nil => rfl
  | cons c entries ih =>
    obtain ⟨hc, hentry⟩ := List.forall_mem_cons.1 hentry
    have hneg : ¬(c.name = "dir" ∧ c.attribute? "name" = some name) := by
      rw [hc]
      exact fun h => absurd h.1 (by decide)
    rw [List.cons_append, inDirectory, if_neg hneg, ih hentry, List.cons_append]

theorem attribute?_eq_some_iff_nameGiven {name : String} (hname : Path.isSegment name)
    (e : Element) : e.attribute? "name" = some name ↔ nameGiven e = name := by
  unfold nameGiven
  cases e.attribute? "name" with
  | none =>
    refine iff_of_false nofun fun h => ?_
    subst h
    exact absurd hname (by decide)
  | some other => simp

/-- The first directory of the name is changed, or one is put behind the others. -/
theorem inDirectory_cases {name : String} (hname : Path.isSegment name)
    (change : List Element → List Element) {dirs : List Element}
    (hdir : ∀ d ∈ dirs, d.name = "dir") :
    (∃ before d after, dirs = before ++ d :: after ∧ nameGiven d = name ∧
      inDirectory name change dirs =
        before ++ { d with children := change d.children } :: after) ∨
    (∀ d ∈ dirs, nameGiven d ≠ name) ∧
      inDirectory name change dirs = dirs ++
        [{ name := "dir", attributes := [("name", name)], children := change [] }] := by
  induction dirs with
  | nil => exact .inr ⟨nofun, rfl⟩
  | cons d dirs ih =>
    obtain ⟨hd, hdir⟩ := List.forall_mem_cons.1 hdir
    have hiff := attribute?_eq_some_iff_nameGiven hname d
    rw [inDirectory]
    by_cases hgiven : nameGiven d = name
    · exact .inl ⟨[], d, dirs, rfl, hgiven, if_pos ⟨hd, hiff.2 hgiven⟩⟩
    · rw [if_neg fun h => hgiven (hiff.1 h.2)]
      rcases ih hdir with ⟨before, c, after, rfl, hc, heq⟩ | ⟨hnone, heq⟩
      · exact .inl ⟨d :: before, c, after, rfl, hc, by rw [heq, List.cons_append]⟩
      · refine .inr ⟨List.forall_mem_cons.2 ⟨hgiven, hnone⟩, ?_⟩
        rw [heq, List.cons_append]

/-! ## Putting a value at its place -/

theorem nameGiven_entryOf (name : String) (value : Value) :
    nameGiven (entryOf name value) = name := by
  rw [nameGiven, attribute?_entryOf, Option.getD_some]

theorem insertAt_ne_nil (value : Value) {place : Path} (hplace : place.IsValid)
    (children : List Element) : insertAt value place children ≠ [] := by
  induction place, hplace using Path.IsValid.induction with
  | single name h =>
    obtain ⟨before, after, -, hinsert⟩ :=
      exists_insertEntry (entryOf name value) children
    rw [insertAt_singleton, hinsert]
    simp
  | longer name rest h hrest =>
    rw [insertAt_cons value name hrest.1]
    cases children with
    | nil => exact List.cons_ne_nil _ _
    | cons c cs =>
      rw [inDirectory]
      split <;> exact List.cons_ne_nil _ _

/-- A change of arranged children that adds one entry, behind those of its path. -/
def AddsBehind (above : Path) (x : Path × Element)
    (change : List Element → List Element) : Prop :=
  ∀ children, IsArranged children →
    IsAdded x (entriesAmong above children) (entriesAmong above (change children))

theorem addsBehind_insertEntry {e : Element} (he : e.name = "entry") (above : Path) :
    AddsBehind above (above ++ [nameGiven e], e) (insertEntry e) := by
  rintro _ ⟨hentry, hdir, -, -, -, -⟩
  rw [insertEntry_append hentry hdir, entriesAmong_append, entriesAmong_append,
    entriesAmong, entriesOf_entry he]
  refine IsAdded.append_left ?_ _
  refine (isAdded_nil _).append_right fun y hy => ?_
  obtain ⟨d, -, rest, hne, hy⟩ := exists_dir_of_mem_entriesAmong hdir hy
  rw [hy]
  simp [hne]

/-- An addition below a directory is one around it. -/
theorem addsBehind_inDirectory {name : String} (hname : Path.isSegment name)
    {above rest : Path} {e : Element} {change : List Element → List Element}
    (h : AddsBehind (above ++ [name]) (above ++ name :: rest, e) change) :
    AddsBehind above (above ++ name :: rest, e) (inDirectory name change) := by
  rintro _ @⟨entries, dirs, hentry, hdir, -, hdistinct, -, hinner⟩
  rw [inDirectory_append hentry, entriesAmong_append, entriesAmong_append]
  refine IsAdded.append_left ?_ _
  rcases inDirectory_cases hname change hdir with
    ⟨before, d, after, rfl, rfl, heq⟩ | ⟨-, heq⟩
  · have hd : d ∈ before ++ d :: after := by simp
    let changed : Element := { d with children := change d.children }
    have hkind : changed.name = "dir" := hdir d hd
    have hchanged : entriesOf above changed =
        entriesAmong (above ++ [nameGiven d]) (change d.children) :=
      entriesOf_dir hkind above
    rw [heq, entriesAmong_append, entriesAmong_append, entriesAmong, entriesAmong,
      entriesOf_dir (hdir d hd), hchanged]
    refine IsAdded.append_left ?_ _
    refine (h d.children (hinner d hd)).append_right fun y hy => ?_
    -- The directories behind have greater names.
    have hafter : ∀ c ∈ after, c.name = "dir" := fun c hc => hdir c (by simp [hc])
    obtain ⟨c, hc, tail, -, hy⟩ := exists_dir_of_mem_entriesAmong hafter hy
    rw [List.map_append, List.map_cons, List.pairwise_append] at hdistinct
    have hlt := List.rel_of_pairwise_cons hdistinct.2.1 (List.mem_map_of_mem hc)
    rw [hy]
    intro hpath
    obtain ⟨heq, -⟩ := List.cons.inj (List.append_cancel_left hpath)
    exact String.lt_irrefl _ (heq ▸ hlt)
  · have hnew := (h [] isArranged_nil).append_left (entriesAmong above dirs)
    rw [heq, entriesAmong_append, entriesAmong, entriesAmong, List.append_nil,
      entriesOf_dir rfl]
    rwa [entriesAmong, List.append_nil] at hnew

/-- A value that is put at its place is read there, behind what is read there
already. -/
theorem exists_addsBehind_insertAt (value : Value) {place : Path}
    (hplace : place.IsValid) :
    ∃ entry, Value.ofElement entry = .ok value.canonical ∧
      ∀ above, AddsBehind above (above ++ place, entry) (insertAt value place) := by
  induction place, hplace using Path.IsValid.induction with
  | single name h =>
    refine ⟨entryOf name value, ofElement_entryOf name value, fun above => ?_⟩
    have hadds := addsBehind_insertEntry (name_entryOf name value) above
    rwa [nameGiven_entryOf] at hadds
  | longer name rest h hrest ih =>
    obtain ⟨entry, hentry, hadds⟩ := ih
    refine ⟨entry, hentry, fun above => ?_⟩
    have hbelow := hadds (above ++ [name])
    rw [← List.append_cons] at hbelow
    rw [insertAt_cons value name hrest.1]
    exact addsBehind_inDirectory h.head hbelow

/-! ## Keeping children arranged -/

theorem pairwise_map_concat {r : String → String → Prop} {es : List Element}
    {e : Element} (h : (es.map nameGiven).Pairwise r)
    (hlast : ∀ c ∈ es, r (nameGiven c) (nameGiven e)) :
    ((es ++ [e]).map nameGiven).Pairwise r := by
  rw [List.map_append, List.map_singleton, List.pairwise_append]
  refine ⟨h, List.pairwise_singleton _ _, ?_⟩
  simpa using hlast

/-- The name of a directory does not come after a path that no entry comes after. -/
theorem lt_or_eq_of_notAfter {above rest : Path} {name : String}
    {children : List Element}
    (hlast : ∀ x ∈ entriesAmong above children,
      x.1.notAfter (above ++ name :: rest))
    {d : Element} (hd : d ∈ children) (hkind : d.name = "dir")
    (hfilled : d.children ≠ []) (hinner : IsArranged d.children) :
    nameGiven d < name ∨ nameGiven d = name := by
  obtain ⟨x, hx⟩ := hinner.exists_entry hfilled (above ++ [nameGiven d])
  obtain ⟨tail, -, htail⟩ := exists_rest_of_mem_entriesAmong _ _ hx
  have hle := hlast x (mem_entriesAmong_of_dir hd hkind hx)
  rw [htail, ← List.append_cons, Path.notAfter_append_left,
    Path.notAfter_cons_iff] at hle
  exact hle.imp_right And.left

/-- An entry that comes after those of its directory is put in its place. -/
theorem isArranged_insertEntry {e : Element} (he : e.name = "entry") {above : Path}
    {children : List Element} (h : IsArranged children)
    (hlast : ∀ x ∈ entriesAmong above children,
      x.1.notAfter (above ++ [nameGiven e])) :
    IsArranged (insertEntry e children) := by
  obtain @⟨entries, dirs, hentry, hdir, hsorted, hdistinct, hfilled, hinner⟩ := h
  rw [insertEntry_append hentry hdir, List.append_cons]
  refine .intro ?_ hdir (pairwise_map_concat hsorted fun c hc => ?_) hdistinct hfilled
    hinner
  · exact List.forall_mem_append.2 ⟨hentry, List.forall_mem_singleton.2 he⟩
  · have hle := hlast _
      (mem_entriesAmong_of_entry (List.mem_append_left dirs hc) (hentry c hc))
    rw [Path.notAfter_append_left, Path.notAfter_cons_iff] at hle
    rcases hle with hlt | ⟨heq, -⟩
    · exact String.not_lt.1 (String.lt_asymm hlt)
    · exact heq ▸ String.le_refl _

/-- A change keeps the children of a directory arranged if it does so below and no
entry around comes after its path. -/
theorem isArranged_inDirectory {name : String} (hname : Path.isSegment name)
    {above rest : Path} {change : List Element → List Element}
    (hne : ∀ children, change children ≠ [])
    (h : ∀ children, IsArranged children →
      (∀ x ∈ entriesAmong (above ++ [name]) children,
        x.1.notAfter (above ++ name :: rest)) → IsArranged (change children))
    {children : List Element} (hchildren : IsArranged children)
    (hlast : ∀ x ∈ entriesAmong above children,
      x.1.notAfter (above ++ name :: rest)) :
    IsArranged (inDirectory name change children) := by
  obtain @⟨entries, dirs, hentry, hdir, hsorted, hdistinct, hfilled, hinner⟩ :=
    hchildren
  rw [inDirectory_append hentry]
  rcases inDirectory_cases hname change hdir with
    ⟨before, d, after, rfl, rfl, heq⟩ | ⟨hnone, heq⟩
  · have hd : d ∈ before ++ d :: after := by simp
    have hchanged : IsArranged (change d.children) := by
      refine h d.children (hinner d hd) fun x hx => ?_
      exact hlast x (mem_entriesAmong_of_dir (List.mem_append_right entries hd)
        (hdir d hd) hx)
    have hkind := hdir d hd
    rw [List.map_append, List.map_cons] at hdistinct
    simp only [List.forall_mem_append, List.forall_mem_cons] at hdir hfilled hinner
    rw [heq]
    refine .intro hentry ?_ hsorted ?_ ?_ ?_
    · simpa only [List.forall_mem_append, List.forall_mem_cons] using
        ⟨hdir.1, hkind, hdir.2.2⟩
    · rwa [List.map_append, List.map_cons]
    · simpa only [List.forall_mem_append, List.forall_mem_cons] using
        ⟨hfilled.1, hne _, hfilled.2.2⟩
    · simpa only [List.forall_mem_append, List.forall_mem_cons] using
        ⟨hinner.1, hchanged, hinner.2.2⟩
  · rw [heq]
    refine .intro hentry ?_ hsorted (pairwise_map_concat hdistinct fun d hd => ?_) ?_ ?_
    · exact List.forall_mem_append.2 ⟨hdir, List.forall_mem_singleton.2 rfl⟩
    · have hle := lt_or_eq_of_notAfter hlast (List.mem_append_right entries hd)
        (hdir d hd) (hfilled d hd) (hinner d hd)
      exact hle.resolve_right (hnone d hd)
    · exact List.forall_mem_append.2 ⟨hfilled, List.forall_mem_singleton.2 (hne _)⟩
    · refine List.forall_mem_append.2 ⟨hinner, List.forall_mem_singleton.2 ?_⟩
      exact h [] isArranged_nil nofun

/-- A value whose place comes after all entries keeps the children arranged. -/
theorem isArranged_insertAt (value : Value) {place : Path} (hplace : place.IsValid)
    {above : Path} {children : List Element} (h : IsArranged children)
    (hlast : ∀ x ∈ entriesAmong above children, x.1.notAfter (above ++ place)) :
    IsArranged (insertAt value place children) := by
  induction place, hplace using Path.IsValid.induction
    generalizing above children with
  | single name hname =>
    rw [insertAt_singleton]
    exact isArranged_insertEntry (name_entryOf name value) h
      ((nameGiven_entryOf name value).symm ▸ hlast)
  | longer name rest hplace hrest ih =>
    rw [insertAt_cons value name hrest.1]
    refine isArranged_inDirectory hplace.head (insertAt_ne_nil value hrest) ?_ h hlast
    intro inner hinner hle
    rw [List.append_cons above name rest] at hle
    exact ih hinner hle

/-- Values that are put in place in the order of their places are arranged, and each
is read behind those of its path. -/
theorem exists_added_of_putAll {above : Path} {items : List (Path × Value)}
    (hitems : ∀ x ∈ items, x.1.IsValid) (hsorted : IsSorted items)
    {children : List Element} (h : IsArranged children)
    (hlast : ∀ x ∈ entriesAmong above children, ∀ y ∈ items,
      x.1.notAfter (above ++ y.1)) :
    IsArranged (putAll items children) ∧ ∃ added,
      List.Forall₂ ReadAs added (items.map fun x => (above ++ x.1, x.2.canonical)) ∧
      ∀ path, atPath path (entriesAmong above (putAll items children)) =
        atPath path (entriesAmong above children) ++ atPath path added := by
  induction items generalizing children with
  | nil => exact ⟨h, [], .nil, fun path => (List.append_nil _).symm⟩
  | cons x items ih =>
    obtain ⟨hx, hitems⟩ := List.forall_mem_cons.1 hitems
    obtain ⟨hfirst, hsorted⟩ := List.pairwise_cons.1 hsorted
    obtain ⟨entry, hentry, hadds⟩ := exists_addsBehind_insertAt x.2 hx
    have hadded := hadds above children h
    have harranged : IsArranged (insertAt x.2 x.1 children) :=
      isArranged_insertAt x.2 hx h fun y hy => hlast y hy x List.mem_cons_self
    obtain ⟨hall, added, hread, hpaths⟩ := ih hitems hsorted harranged (by
      intro y hy z hz
      rcases hadded.eq_or_mem hy with hy | rfl
      · exact hlast y hy z (List.mem_cons_of_mem x hz)
      · rw [Path.notAfter_append_left]
        exact hfirst z hz)
    refine ⟨hall, (above ++ x.1, entry) :: added, .cons ⟨rfl, hentry⟩ hread, ?_⟩
    intro path
    rw [putAll_cons, hpaths path, hadded path, List.append_assoc, ← atPath_append,
      List.singleton_append]

/-! ## The settings of a backend -/

/-- The path that a text names, if it begins with the backend and goes on. -/
def pathBelow? (backend text : String) : Option Path :=
  (Path.ofText? text).filter fun path =>
    path.head? = some backend ∧ 2 ≤ path.length

/-- The settings with a path below a backend. -/
def below (backend : String) (items : List (String × Value)) : List (Path × Value) :=
  items.filterMap fun (text, value) => (pathBelow? backend text).map (·, value)

variable {backend : String} {items : List (String × Value)}

theorem pathBelow?_eq_some_iff {text : String} {path : Path} :
    pathBelow? backend text = some path ↔
      Path.ofText? text = some path ∧ path.IsBelow (some backend) := by
  rw [pathBelow?, Option.filter_eq_some_iff, decide_eq_true_iff]
  refine and_congr_right fun _ => ⟨?_, fun h => ?_⟩
  · rintro ⟨hhead, hlength⟩ _ ⟨⟩
    match path, hlength with
    | b :: name :: rest, _ =>
      obtain rfl : b = backend := Option.some.inj hhead
      exact ⟨name :: rest, List.cons_ne_nil name rest, rfl⟩
  · obtain ⟨rest, hne, rfl⟩ := h backend rfl
    exact ⟨rfl, Nat.succ_le_succ (List.length_pos_iff.2 hne)⟩

theorem placeOf?_eq (backend text : String) :
    placeOf? (some backend) text =
      (pathBelow? backend text).map (place (some backend)) := by
  unfold placeOf? pathBelow?
  cases Path.ofText? text with
  | none => rfl
  | some path =>
    cases path with
    | nil => rfl
    | cons b rest =>
      simp [Option.filter_some, Nat.succ_le_iff, List.length_pos_iff, place]

/-- A snapshot takes the settings of its backend only. -/
theorem placed_eq (backend : String) (items : List (String × Value)) :
    placed (some backend) items =
      (below backend items).map fun x => (place (some backend) x.1, x.2) := by
  rw [placed, below, List.map_filterMap]
  simp only [placeOf?_eq, Option.map_map, Function.comp_def]

theorem of_mem_below {x : Path × Value} (hx : x ∈ below backend items) :
    x.1.IsValid ∧ x.1.IsBelow (some backend) := by
  obtain ⟨⟨text, value⟩, -, hx⟩ := List.mem_filterMap.1 hx
  obtain ⟨path, hpath, rfl⟩ := Option.map_eq_some_iff.1 hx
  obtain ⟨htext, hbelow⟩ := pathBelow?_eq_some_iff.1 hpath
  exact ⟨Path.isValid_of_ofText? htext, hbelow⟩

theorem placed_named_below (backend : String) (items : List (String × Value)) :
    placed (some backend) (named (below backend items)) =
      placed (some backend) items := by
  rw [placed_eq backend items, placed_named (fun x hx => (of_mem_below hx).1)
    fun x hx => (of_mem_below hx).2]

theorem toElement_named_below (backend : String) (items : List (String × Value)) :
    toElement (some backend) (named (below backend items)) =
      toElement (some backend) items := by
  have hsorted : sorted (some backend) (named (below backend items)) =
      sorted (some backend) items := by
    rw [sorted_eq, sorted_eq, placed_named_below]
  rw [toElement, hsorted, toElement]

theorem cons_place {path : Path} (h : path.IsBelow (some backend)) :
    [backend] ++ place (some backend) path = path := by
  obtain ⟨rest, -, rfl⟩ := h backend rfl
  rfl

/-- An entry is read in one way. -/
theorem rightUnique_readAs : Relator.RightUnique ReadAs :=
  fun _ _ _ hx hy => Prod.ext (hx.1.symm.trans hy.1)
    (Except.ok.inj (hx.2.symm.trans hy.2))

theorem atPath_readAs {entries : List (Path × Element)}
    {settings : List (Path × Value)} (h : List.Forall₂ ReadAs entries settings)
    (path : Path) :
    List.Forall₂ ReadAs (atPath path entries) (atPath path settings) :=
  List.rel_filter (fun _ _ hx => by simp [hx.1]) h

theorem isSorted_canonical {settings : List (Path × Value)} (h : IsSorted settings) :
    IsSorted (canonical settings) :=
  List.pairwise_map.2 h

section Below

variable {kept : List (Path × Value)} (hv : ∀ x ∈ kept, x.1.IsValid)
  (hbelow : ∀ x ∈ kept, x.1.IsBelow (some backend))

include hv hbelow

/-- Settings below one backend are sorted by their paths. -/
theorem sorted_named : sorted (some backend) (named kept) =
    (inOrder kept).map fun x => (place (some backend) x.1, x.2) := by
  rw [sorted_eq, placed_named hv hbelow]
  refine (List.map_mergeSort fun x hx y hy => ?_).symm
  have h := Path.notAfter_append_left [backend] (place (some backend) x.1)
    (place (some backend) y.1)
  rwa [cons_place (hbelow x hx), cons_place (hbelow y hy)] at h

/-- The entries of a snapshot are at each path as the settings are in their order. -/
theorem exists_added_of_toElement :
    IsArranged (toElement (some backend) (named kept)).children ∧ ∃ added,
      List.Forall₂ ReadAs added (canonical (inOrder kept)) ∧
      ∀ path, atPath path added = atPath path
        (entriesAmong [backend] (toElement (some backend) (named kept)).children) := by
  have hnone : ∀ x ∈ entriesAmong [backend] [],
      ∀ y ∈ sorted (some backend) (named kept), x.1.notAfter ([backend] ++ y.1) := nofun
  obtain ⟨harranged, added, hread, hpaths⟩ :=
    exists_added_of_putAll (isValid_of_mem_sorted hv hbelow) (pairwise_sorted _ _)
      isArranged_nil hnone
  refine ⟨harranged, added, ?_, fun path => (hpaths path).symm⟩
  have hplace : (sorted (some backend) (named kept)).map
      (fun x => ([backend] ++ x.1, x.2.canonical)) = canonical (inOrder kept) := by
    rw [sorted_named hv hbelow, List.map_map]
    refine List.map_congr_left fun x hx => ?_
    exact Prod.ext (cons_place (hbelow x ((inOrder_perm kept).mem_iff.1 hx))) rfl
  exact hplace ▸ hread

/-- Whatever is read from a snapshot is in its order what the settings are. -/
theorem inOrder_of_readAs {settings : List (Path × Value)}
    (hread : List.Forall₂ ReadAs
      (entriesAmong [backend] (toElement (some backend) (named kept)).children)
      settings) : inOrder settings = canonical (inOrder kept) := by
  obtain ⟨-, added, hadded, hpaths⟩ := exists_added_of_toElement hv hbelow
  refine eq_of_atPath (isSorted_inOrder settings)
    (isSorted_canonical (isSorted_inOrder kept)) fun path => ?_
  have hleft := atPath_readAs hread path
  rw [← hpaths path] at hleft
  rw [atPath_inOrder]
  exact List.right_unique_forall₂' rightUnique_readAs hleft (atPath_readAs hadded path)

/-- A snapshot reads back as its settings, and what is read has the same snapshot. -/
theorem exists_ofElement_toElement (hb : Location.isValidBackend backend) :
    ∃ found, ofElement (toElement (some backend) (named kept)) backend = .ok found ∧
      found.Perm (named (canonical kept)) ∧
      toElement (some backend) found = toElement (some backend) (named kept) := by
  obtain ⟨found, hfound, hperm⟩ := readChildren_toElement hv hbelow
  refine ⟨found, (if_pos rfl).trans hfound, ?_, ?_⟩
  · refine hperm.trans (.of_eq ?_)
    rw [named, canonical, List.map_map]
    rfl
  · rw [aboveOf, ← Path.text_singleton] at hfound
    obtain ⟨settings, rfl, hread, hvalid⟩ :=
      exists_placed_of_readChildren (Path.isValid_singleton hb) _ hfound
    have horder := inOrder_of_readAs hv hbelow hread
    have hsettings : ∀ x ∈ settings, x.1.IsBelow (some backend) := by
      intro x hx
      have hx := (inOrder_perm settings).mem_iff.2 hx
      rw [horder] at hx
      obtain ⟨y, hy, rfl⟩ := List.mem_map.1 hx
      exact hbelow y ((inOrder_perm kept).mem_iff.1 hy)
    have hsorted : sorted (some backend) (named settings) =
        sorted (some backend) (canonical (named kept)) := by
      rw [sorted_canonical, sorted_named hvalid hsettings, sorted_named hv hbelow,
        horder, canonical, canonical, List.map_map, List.map_map]
      rfl
    rw [← toElement_canonical _ (named kept), toElement, toElement, hsorted]

end Below

/-- The snapshot of any settings can be read below its backend.  What is read are the
settings with a valid path below the backend, under the text of this path, with
canonical values and in some order.  It has the same snapshot.  In each directory of a
snapshot the entries stand first and then the directories, both in the order of their
names, and no two directories have one name.  If the paths are different, the settings
have the same snapshot in any order. -/
theorem ofElement_toElement_of_isValidBackend
    (hb : Location.isValidBackend backend) (items : List (String × Value)) :
    let document := toElement (some backend) items
    (∃ found, ofElement document backend = .ok found ∧
      found.Perm (named (canonical (below backend items))) ∧
      toElement (some backend) found = document) ∧
    IsArranged document.children ∧
    (((below backend items).map Prod.fst).Nodup → ∀ others, others.Perm items →
      toElement (some backend) others = document) := by
  have hv : ∀ x ∈ below backend items, x.1.IsValid :=
    fun x hx => (of_mem_below hx).1
  have hbelow : ∀ x ∈ below backend items, x.1.IsBelow (some backend) :=
    fun x hx => (of_mem_below hx).2
  refine ⟨?_, ?_, fun hn others hothers => ?_⟩
  · rw [← toElement_named_below]
    exact exists_ofElement_toElement hv hbelow hb
  · rw [← toElement_named_below]
    exact (exists_added_of_toElement hv hbelow).1
  · refine (toElement_congr hothers.symm ?_).symm
    rw [← placed_named_below]
    exact nodup_placed hv hbelow hn

/-- A path that comes twice, once without the slash in front, texts that name no path,
a path of another backend, an entry beside a directory of its name, and a NaN are read
back in the order of the document.  Settings with different paths have one snapshot. -/
theorem ofElement_toElement_of_mixed_settings :
    let items : List (String × Value) :=
      [("/app/view/size", .int 3), ("/app/view", .bool true), ("app/view/size", .int 4),
        ("/app//view", .int 5), ("/other/view", .int 6), ("/app", .int 7),
        ("/app/zoom", .float (.ofMagnitude true Binary64.nan.magnitude)),
        ("/app/look/mode", .struct [("a", .string " x")])]
    let found : List (String × Value) :=
      [("/app/view", .bool true), ("/app/zoom", .float .nan),
        ("/app/look/mode", .struct [("a", .string " x")]),
        ("/app/view/size", .int 3), ("/app/view/size", .int 4)]
    let document := toElement (some "app") items
    Location.isValidBackend "app" ∧
    (ofElement document "app" = .ok found ∧
      found.Perm (named (canonical (below "app" items))) ∧
      toElement (some "app") found = document) ∧
    IsArranged document.children ∧
    ((below "app" (items.take 2)).map Prod.fst).Nodup ∧
    toElement (some "app") (items.take 2).reverse =
      toElement (some "app") (items.take 2) := by
  intro items found document
  let listed : List (Path × Value) :=
    [(["view", "size"], .int 3), (["view"], .bool true), (["view", "size"], .int 4),
      (["zoom"], .float (.ofMagnitude true Binary64.nan.magnitude)),
      (["look", "mode"], .struct [("a", .string " x")])]
  let ordered : List (Path × Value) :=
    [(["look", "mode"], .struct [("a", .string " x")]), (["view"], .bool true),
      (["view", "size"], .int 3), (["view", "size"], .int 4),
      (["zoom"], .float (.ofMagnitude true Binary64.nan.magnitude))]
  have hsorted : sorted (some "app") items = ordered := by
    have horder : IsSorted ordered := by
      unfold IsSorted
      decide +kernel
    refine eq_of_atPath (pairwise_sorted (some "app") items) horder fun path => ?_
    have hkept : atPath path (sorted (some "app") items) = atPath path listed :=
      atPath_inOrder path listed
    rw [hkept]
    simp only [atPath, listed, ordered, List.filter_cons, List.filter_nil]
    grind
  have hfound : ofElement document "app" = .ok found := by
    simp only [document, toElement, hsorted]
    rfl
  have hvalid : Location.isValidBackend "app" := by decide
  obtain ⟨⟨_, hread, hperm, hsame⟩, harranged, -⟩ :=
    ofElement_toElement_of_isValidBackend hvalid items
  obtain rfl := Except.ok.inj (hfound.symm.trans hread)
  obtain ⟨-, -, hcongr⟩ :=
    ofElement_toElement_of_isValidBackend hvalid (items.take 2)
  have hnodup : ((below "app" (items.take 2)).map Prod.fst).Nodup := by decide +kernel
  exact ⟨hvalid, ⟨hfound, hperm, hsame⟩, harranged, hnodup,
    hcongr hnodup _ (List.reverse_perm _)⟩

end SettingsArchive.Snapshot
