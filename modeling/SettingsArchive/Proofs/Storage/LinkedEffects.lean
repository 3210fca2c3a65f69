import SettingsArchive.Proofs.Storage.LinkedDisk

/-!
# What operations do on a disk with links

Each operation has one lemma here, which says where its path leads and what the
disk is then.

The file that a path leads to is the one with the content
(`content?_eq_some_iff`).  The temporary file of a database stands beside what
bears the name of the database (`names_of_temporaryOf`), which may be a link to
a file somewhere else.
-/

namespace SettingsArchive.LinkedDisk

open FilePath FileSystem
open Disk (End IsTaken maxName)

variable {d e : LinkedDisk} {path : String} {p : Place} {number : Nat}
  {bytes : ByteArray}

/-! ## The content of a file -/

/-- The content of the file that a path leads to. -/
def content? (d : LinkedDisk) (path : String) : Option ByteArray :=
  match d.find path with
  | .ok (.file number) => some (d.data number)
  | _ => none

theorem find_eq_file_iff :
    d.find path = .ok (.file number) ↔
      ∃ p, d.Leads path p ∧ d.node? p = some (.file number) := by
  constructor
  · intro h
    obtain ⟨r, hr, h⟩ := bind_eq_ok h
    cases r with
    | «at» place => cases h
    | named place name slash =>
      obtain ⟨node, hlook, h⟩ := bind_eq_ok h
      obtain ⟨hsize, hnode⟩ := look_eq_ok hlook
      split at h
      · cases h
      · cases h
      · cases h
      · obtain rfl := Except.ok.inj h
        exact ⟨place ++ [name], ⟨place, name, rfl, hsize, hr⟩, hnode⟩
  · rintro ⟨_, ⟨place, name, rfl, hsize, hr⟩, hnode⟩
    rw [find, hr]
    simp only [bind, Except.bind, look_eq hsize, hnode]
    rfl

theorem content?_eq_some_iff :
    d.content? path = some bytes ↔
      ∃ p number, d.Leads path p ∧ d.node? p = some (.file number) ∧
        d.data number = bytes := by
  constructor
  · intro h
    unfold content? at h
    split at h
    · rename_i number hfind
      obtain ⟨p, hleads, hnode⟩ := find_eq_file_iff.1 hfind
      exact ⟨p, number, hleads, hnode, Option.some.inj h⟩
    · cases h
  · intro ⟨p, number, hleads, hnode, hdata⟩
    rw [content?, find_eq_file_iff.2 ⟨p, hleads, hnode⟩]
    exact congrArg some hdata

/-! ## Making directories -/

/-- A disk on which nothing happened but that directories were made. -/
structure Grows (d e : LinkedDisk) : Prop where
  node? : ∀ p node, d.node? p = some node → e.node? p = some node
  directory : ∀ p node, d.node? p = none → e.node? p = some node →
    node = .directory
  data : e.data = d.data
  nextNumber : e.nextNumber = d.nextNumber
  workingDirectory : e.workingDirectory = d.workingDirectory
  locked : e.locked = d.locked

namespace Grows

theorem refl (d : LinkedDisk) : Grows d d where
  node? _ _ h := h
  directory _ _ h h' := absurd (h.symm.trans h') (by simp)
  data := rfl
  nextNumber := rfl
  workingDirectory := rfl
  locked := rfl

theorem trans {f : LinkedDisk} (h : Grows d e) (h' : Grows e f) : Grows d f where
  node? p node hp := h'.node? p node (h.node? p node hp)
  directory p node hp hf := by
    cases he : e.node? p with
    | none => exact h'.directory p node he hf
    | some node' =>
      obtain rfl := Option.some.inj ((h'.node? p node' he).symm.trans hf)
      exact h.directory p node' hp he
  data := h'.data.trans h.data
  nextNumber := h'.nextNumber.trans h.nextNumber
  workingDirectory := h'.workingDirectory.trans h.workingDirectory
  locked := h'.locked.trans h.locked

theorem ext (h : Grows d e) : Extends d e where
  directory p := h.node? p _
  link p _ := h.node? p _
  workingDirectory := h.workingDirectory

/-- What is no directory was there before. -/
theorem node?_of_ne {node : LinkedNode} (h : Grows d e)
    (hp : e.node? p = some node) (hne : node ≠ .directory) :
    d.node? p = some node := by
  cases hd : d.node? p with
  | none => exact absurd (h.directory p node hd hp) hne
  | some node' => rw [← hp, h.node? p node' hd]

theorem isLink_eq (h : Grows d e) (p : Place) : e.isLink p = d.isLink p := by
  rw [Bool.eq_iff_iff, isLink_iff, isLink_iff]
  constructor
  · intro ⟨target, ht⟩
    exact ⟨target, h.node?_of_ne ht nofun⟩
  · intro ⟨target, ht⟩
    exact ⟨target, h.node? p _ ht⟩

theorem leads (h : Grows d e) (hp : d.Leads path p) : e.Leads path p := by
  apply hp.mono h.ext id
  intro
  rw [h.isLink_eq, hp.isLink_eq]

/-- A file that a path led to is the one that it leads to, with its content. -/
theorem content?_eq_some (h : Grows d e) (hd : d.content? path = some bytes) :
    e.content? path = some bytes := by
  obtain ⟨p, number, hleads, hnode, hdata⟩ := content?_eq_some_iff.1 hd
  refine content?_eq_some_iff.2
    ⟨p, number, h.leads hleads, h.node? p _ hnode, ?_⟩
  rw [h.data, hdata]

end Grows

theorem grows_makeDirectory (h : d.makeDirectory path = .ok e) : Grows d e := by
  obtain ⟨r, -, h⟩ := bind_eq_ok h
  cases r with
  | «at» place => cases h
  | named place name slash =>
    obtain ⟨node, hlook, h⟩ := bind_eq_ok h
    obtain ⟨-, hnone⟩ := look_eq_ok hlook
    cases node with
    | some node => cases h
    | none =>
      obtain rfl := Except.ok.inj h
      have hplace : place ++ [name] ≠ [] := by simp
      refine { Grows.refl d with node? := ?_, directory := ?_, nextNumber := ?_ }
      · intro p node hp
        rw [node?_put d hplace, if_neg, hp]
        rintro rfl
        simp [hnone] at hp
      · intro p node hp hnode
        rw [node?_put d hplace] at hnode
        split at hnode
        · exact (Option.some.inj hnode).symm
        · simp [hp] at hnode
      · exact Nat.max_eq_left (Nat.zero_le _)

/-! ## Files -/

/-- A file that was filled has the content.  It was there, or it was made where
the path leads. -/
theorem fill_eq_ok (h : d.fill path bytes = .ok e) :
    ∃ p number, d.Leads path p ∧
      (d.node? p = some (.file number) ∧ e = d.store number bytes ∨
        d.node? p = none ∧ number = d.nextNumber ∧
          e = (d.make p).store number bytes) := by
  obtain ⟨⟨number, f⟩, hopen, hf⟩ := bind_eq_ok h
  obtain rfl := Except.ok.inj hf
  obtain ⟨r, hr, hopen⟩ := bind_eq_ok hopen
  cases r with
  | «at» place => cases hopen
  | named place name slash =>
    cases slash with
    | true => cases hopen
    | false =>
      obtain ⟨node, hlook, hopen⟩ := bind_eq_ok hopen
      obtain ⟨hsize, hnode⟩ := look_eq_ok hlook
      refine ⟨place ++ [name], number, ⟨place, name, rfl, hsize, hr⟩, ?_⟩
      split at hopen
      · cases hopen
      · obtain ⟨rfl, rfl⟩ := Prod.mk.inj (Except.ok.inj hopen)
        exact .inl ⟨hnode, rfl⟩
      · cases hopen
      · obtain ⟨rfl, rfl⟩ := Prod.mk.inj (Except.ok.inj hopen)
        exact .inr ⟨hnode, rfl, rfl⟩

/-- A file that was given another name has it, and the old one is gone, unless
both were names of the file before. -/
theorem rename_eq_ok {source target : String} (hsource : d.Names source p)
    (hfile : d.node? p = some (.file number))
    (h : d.rename source target = .ok e) :
    ∃ q, d.Names target q ∧ d.node? q ≠ some .directory ∧
      (e = (d.clear p).put q (.file number) ∨
        d.node? q = some (.file number) ∧ e = d) := by
  obtain ⟨place, name, rfl, hsize, hr⟩ := hsource
  obtain ⟨r, hr', h⟩ := bind_eq_ok h
  obtain ⟨s, htarget, h⟩ := bind_eq_ok h
  obtain rfl := Except.ok.inj (hr.symm.trans hr')
  cases s with
  | «at» there => cases h
  | named there newName slash =>
    obtain ⟨node, hlook, h⟩ := bind_eq_ok h
    rw [look_eq hsize, hfile] at hlook
    obtain rfl := Except.ok.inj hlook
    obtain ⟨found, hlook, h⟩ := bind_eq_ok h
    obtain ⟨hsize', hnode⟩ := look_eq_ok hlook
    cases slash with
    | true => cases h
    | false =>
      refine ⟨there ++ [newName], ⟨there, newName, rfl, hsize', htarget⟩, ?_⟩
      rw [hnode]
      simp only [Bool.or_false, Bool.false_eq_true, if_false] at h
      split at h
      · cases h
      · rename_i other heq
        obtain rfl := LinkedNode.file.inj heq
        refine ⟨by simp, ?_⟩
        split at h
        · rename_i hsame
          obtain rfl := Except.ok.inj h
          exact .inr ⟨by rw [hsame], rfl⟩
        · exact .inl (Except.ok.inj h).symm
      · rename_i hdirectory _
        exact ⟨fun hd => hdirectory hd, .inl (Except.ok.inj h).symm⟩

/-- A name of a file is removed. -/
theorem remove_of_names (h : d.Names path p)
    (hfile : d.node? p = some (.file number)) :
    d.remove path = .ok (d.clear p) := by
  obtain ⟨place, name, rfl, hsize, hr⟩ := h
  rw [remove, hr]
  simp only [bind, Except.bind, look_eq hsize, hfile]
  rfl

/-! ## Names -/

/-- A name is the last one on its path, and a slash behind it is behind the
path. -/
theorem Route.last_eq {links : Nat} {slash ends : Bool} {place there : Place}
    {route : List String} {name : String}
    (h : Route d false links slash place route (.named there name ends)) :
    IsPlain name ∧ ends = slash ∧ ∃ front, route = front ++ [name] := by
  generalize hr : End.named there name ends = r at h
  induction h with
  | done => cases hr
  | dot h ih =>
    obtain ⟨hname, hends, front, rfl⟩ := ih hr
    exact ⟨hname, hends, "." :: front, rfl⟩
  | dots h ih =>
    obtain ⟨hname, hends, front, rfl⟩ := ih hr
    exact ⟨hname, hends, ".." :: front, rfl⟩
  | last hname hlink =>
    obtain ⟨rfl, rfl, rfl⟩ := End.named.inj hr
    exact ⟨hname, rfl, [], rfl⟩
  | @enter links slash place first rest r hfirst hrest hnode h ih =>
    obtain ⟨hname, hends, front, rfl⟩ := ih hr
    exact ⟨hname, hends, first :: front, rfl⟩
  | @jump links slash place first target rest r hfirst hrest hnode h ih =>
    obtain ⟨hname, hends, front, heq⟩ := ih hr
    have hne : rest ≠ [] := fun hnil => by simpa using hrest hnil
    rw [List.isEmpty_eq_false_iff.2 hne, Bool.false_and, Bool.or_false] at hends
    obtain ⟨front', last, hconcat⟩ := List.eq_nil_or_concat rest |>.resolve_left hne
    rw [hconcat, List.concat_eq_append, ← List.append_assoc] at heq
    obtain ⟨-, hlast⟩ := List.append_inj' heq rfl
    rw [hconcat, List.concat_eq_append, hlast]
    exact ⟨hname, hends, first :: front', rfl⟩

/-- A path that is a name ends in it. -/
theorem isName_of_names (h : d.Names path p) :
    isName (fileName path) ∧ ∃ place, p = place ++ [fileName path] := by
  obtain ⟨place, name, rfl, -, hr⟩ := h
  obtain ⟨-, hne, hroute⟩ := resolve_eq_ok_iff.1 hr
  obtain ⟨hname, hends, front, hfront⟩ := hroute.last_eq
  have hlast : fileName path ≠ "" := by
    intro hempty
    rcases fileName_eq_empty_iff.1 hempty with hp | hs
    · exact hne hp
    · rw [hs] at hends
      cases hends
  rw [names, filter_parts, if_neg hlast] at hfront
  obtain rfl := List.singleton_inj.1 (List.append_inj' hfront rfl).2
  exact ⟨isName_iff.2 ⟨hlast, hname.dot, hname.dots⟩, place, rfl⟩

/-- A route to a name could end at any other one there. -/
theorem Route.replace {links : Nat} {slash ends : Bool} {place there : Place}
    {route : List String} {name other : String}
    (h : Route d false links slash place route (.named there name ends))
    (hother : IsPlain other) :
    Route d false links slash place (route.dropLast ++ [other])
      (.named there other ends) := by
  have hne : ∀ {links slash place rest},
      Route d false links slash place rest (.named there name ends) →
        rest ≠ [] := by
    intro links slash place rest h
    obtain ⟨-, -, front, rfl⟩ := h.last_eq
    simp
  generalize hr : End.named there name ends = r at h
  induction h with
  | done => cases hr
  | dot h ih =>
    subst hr
    rw [List.dropLast_cons_of_ne_nil (hne h)]
    exact .dot (ih rfl)
  | dots h ih =>
    subst hr
    rw [List.dropLast_cons_of_ne_nil (hne h)]
    exact .dots (ih rfl)
  | last hname hlink =>
    obtain ⟨rfl, rfl, rfl⟩ := End.named.inj hr
    exact .last hother nofun
  | enter hname hrest hnode h ih =>
    rw [List.dropLast_cons_of_ne_nil hrest]
    exact .enter hname (by simp) hnode (ih hr)
  | @jump links slash place first target rest r hname hrest hnode h ih =>
    have hrest' : rest ≠ [] := fun hnil => by simpa using hrest hnil
    rw [List.dropLast_cons_of_ne_nil hrest']
    have hmore : rest.dropLast ++ [other] ≠ [] := by simp
    have hroute := ih hr
    rw [List.dropLast_append_of_ne_nil hrest', List.append_assoc,
      List.isEmpty_eq_false_iff.2 hrest'] at hroute
    apply Route.jump hname (fun hnil => absurd hnil hmore) hnode
    rwa [List.isEmpty_eq_false_iff.2 hmore]

/-! ## The temporary file -/

/-- The temporary file of a database stands beside what bears the name of the
database. -/
theorem names_of_temporaryOf (hname : isName (fileName path))
    (h : d.Names (temporaryOf path) p) :
    ∃ place, p = place ++ [fileName path ++ ".tmp"] ∧
      d.Names path (place ++ [fileName path]) := by
  have hname' : isName (fileName path ++ ".tmp") := isName_append _ (by decide)
  obtain ⟨hne, hdot, hdots⟩ := isName_iff.1 hname
  have hslash : '/' ∉ ".tmp".toList := by decide
  have hnames : names (temporaryOf path)
      = directories path ++ [fileName path ++ ".tmp"] := by
    rw [temporaryOf, names, Disk.filter_parts_of_isName] <;>
      rw [fileName_append hslash]
    · rw [directories_append hslash]
    · exact hname'
  have hempty : path ≠ "" := fun hp => hne (fileName_eq_empty_iff.2 (.inl hp))
  have hend : path.endsWith "/" = false := by
    rw [← Bool.not_eq_true]
    exact fun hs => hne (fileName_eq_empty_iff.2 (.inr hs))
  have hbase : base d.workingDirectory (temporaryOf path)
      = base d.workingDirectory path := by
    unfold base
    congr 1
    rw [Bool.eq_iff_iff, String.startsWith_string_iff,
      String.startsWith_string_iff, temporaryOf, String.toList_append]
    obtain ⟨c, cs, hcs⟩ := List.exists_cons_of_ne_nil
      (mt String.toList_eq_nil_iff.1 hempty)
    simp [hcs]
  obtain ⟨place, name, rfl, hlong, hr⟩ := h
  obtain ⟨htaken, -, hroute⟩ := resolve_eq_ok_iff.1 hr
  rw [hnames, hbase] at hroute
  obtain ⟨-, hends, front, hfront⟩ := hroute.last_eq
  obtain ⟨-, hlast⟩ := List.append_inj' hfront rfl
  obtain rfl := List.singleton_inj.1 hlast
  have hsize : (fileName path).utf8ByteSize ≤ maxName := by
    rw [String.utf8ByteSize_append] at hlong
    omega
  have hother := hroute.replace ⟨hdot, hdots⟩
  rw [List.dropLast_concat, ← hends] at hother
  refine ⟨place, rfl, place, fileName path, rfl, hsize, ?_⟩
  rw [resolve_eq_ok_iff, names, Disk.filter_parts_of_isName hname, hend]
  exact ⟨htaken.of_append, hempty, hother⟩

end SettingsArchive.LinkedDisk
