import SettingsArchive.Proofs.Storage.Stopping
import SettingsArchive.Proofs.Storage.Unlinked

/-!
# Writing a database in one step

A database is written to a temporary file beside it, which is then given its
name.  Up to the renaming only the temporary file is touched, and after it the
database has its new content, so it makes no difference where the process
stops: the database is always complete.

This needs a temporary file that is nobody else's (`LinkedDisk.IsClear`), since
a file is opened through a link that has its name, and is emptied under all of
its names.  On a disk without links it always is.  Whatever else is on the disk makes no difference: there may be a
database or none, at the end of a link or not, a temporary file from an earlier
attempt, or a directory in the way of either.  Where the name of the temporary
file leads to the database itself, a process that stops leaves half of it, and
where a database is asked for with a slash behind its name, the temporary file
stands in the directory of this name (`Host.not_commits_or_keeps`).
-/

namespace SettingsArchive

open FilePath FileSystem

namespace LinkedDisk

variable {d e f : LinkedDisk} {path : String} {data : ByteArray} {p q : Place}
  {number : Nat}

/-- A disk on which the temporary file of a database gets in nobody's way. -/
structure IsClear (path : String) (d : LinkedDisk) : Prop where
  /-- What is opened under the name of the temporary file has this name. -/
  named : ∀ p, d.Leads (temporaryOf path) p → d.node? p ≠ some .directory →
    d.Names (temporaryOf path) p
  /-- It has no other name. -/
  single : ∀ p q number, d.Leads (temporaryOf path) p →
    d.node? p = some (.file number) → d.node? q = some (.file number) → q = p
  /-- The database is not reached through a link to it. -/
  apart : ∀ p, d.Leads (temporaryOf path) p → d.node? p ≠ some .directory →
    ¬ d.Leads path p
  /-- A link that the database is reached through is not passed on the way to
  it. -/
  way : ∀ q target, d.Names path q → d.node? q = some (.link target) →
    (d.clear q).Names path q

/-- A disk without links is clear for any database. -/
theorem IsUnlinked.isClear (h : d.IsUnlinked) (path : String) :
    IsClear path d where
  named _ hp _ := h.names hp
  single p q number _ hp hq := h.single p q number hp hq
  apart p htemporary _ hpath := by
    have hp := h.names hpath
    obtain ⟨hname, -⟩ := isName_of_names hp
    obtain ⟨place, rfl, hbeside⟩ := names_of_temporaryOf hname (h.names htemporary)
    have heq := List.append_cancel_left (hbeside.unique hp)
    exact append_ne_self (by decide) (List.singleton_inj.1 heq).symm
  way q target _ hq := by
    have hlink := isLink_of_link hq
    rw [h.link] at hlink
    cases hlink

/-- Nor does it matter which directories are made on such a disk. -/
theorem IsUnlinked.isClear_of_grows (h : d.IsUnlinked) (path : String)
    (hgrows : d.Grows e) : IsClear path e :=
  (h.grows hgrows).isClear path

/-- A disk that is clear for a database whose directory is there stays clear
when directories are made. -/
theorem IsClear.grows (h : IsClear path d) (hgrows : d.Grows e) {r : Place}
    (htemporary : d.Leads (temporaryOf path) p) (hleads : d.Leads path q)
    (hnames : d.Names path r) : IsClear path e := by
  have hdirectory : ∀ {p}, e.node? p ≠ some .directory →
      d.node? p ≠ some .directory :=
    fun hp hd => hp (hgrows.node? _ _ hd)
  have hunique : ∀ {p'}, e.Leads (temporaryOf path) p' → p' = p :=
    fun hp => hp.unique (hgrows.leads htemporary)
  exact {
    named := by
      intro p' hp hnode
      obtain rfl := hunique hp
      exact (h.named _ htemporary (hdirectory hnode)).names_mono hgrows.ext
    single := by
      intro p' q' number hp hnode hq
      obtain rfl := hunique hp
      exact h.single _ q' number htemporary (hgrows.node?_of_ne hnode nofun)
        (hgrows.node?_of_ne hq nofun)
    apart := by
      intro p' hp hnode hpath
      obtain rfl := hunique hp
      obtain rfl := hpath.unique (hgrows.leads hleads)
      exact h.apart _ htemporary (hdirectory hnode) hleads
    way := by
      intro q' target hq hlink
      obtain rfl := hq.unique (hnames.names_mono hgrows.ext)
      have hway := h.way _ target hnames (hgrows.node?_of_ne hlink nofun)
      exact hway.names_mono (hgrows.ext.clear_clear hnames.ne_nil) }

/-- The place and the number of a temporary file, which is there or would be
made. -/
structure IsOwn (path : String) (p : Place) (number : Nat) (d : LinkedDisk) :
    Prop where
  named : d.Names (temporaryOf path) p
  file : d.node? p = none ∨ d.node? p = some (.file number)
  single : ∀ q, d.node? q = some (.file number) → q = p
  apart : ¬ d.Leads path p

/-- Two disks that differ in a temporary file alone. -/
structure Beside (p : Place) (number : Nat) (d e : LinkedDisk) : Prop where
  before : d.node? p = none ∨ d.node? p = some (.file number)
  behind : e.node? p = none ∨ e.node? p = some (.file number)
  node? : ∀ q ≠ p, e.node? q = d.node? q
  data : ∀ n ≠ number, e.data n = d.data n
  workingDirectory : e.workingDirectory = d.workingDirectory

namespace Beside

theorem symm (h : Beside p number d e) : Beside p number e d where
  before := h.behind
  behind := h.before
  node? q hq := (h.node? q hq).symm
  data n hn := (h.data n hn).symm
  workingDirectory := h.workingDirectory.symm

/-- What is neither a file nor nothing is the same. -/
theorem node?_of_ne {node : LinkedNode} (h : Beside p number d e)
    (hq : d.node? q = some node) (hne : node ≠ .file number) :
    e.node? q = some node := by
  rw [h.node? q, hq]
  rintro rfl
  rcases h.before with hp | hp <;> rw [hp] at hq <;> cases hq
  exact hne rfl

theorem ext (h : Beside p number d e) : Extends d e where
  directory _ hq := h.node?_of_ne hq nofun
  link _ _ hq := h.node?_of_ne hq nofun
  workingDirectory := h.workingDirectory

theorem isLink_of_isLink (h : Beside p number d e) (hq : d.isLink q) :
    e.isLink q := by
  obtain ⟨target, ht⟩ := isLink_iff.1 hq
  exact isLink_of_link (h.ext.link q target ht)

theorem isLink_eq (h : Beside p number d e) (q : Place) :
    e.isLink q = d.isLink q :=
  Bool.eq_iff_iff.2 ⟨h.symm.isLink_of_isLink, h.isLink_of_isLink⟩

theorem leads (h : Beside p number d e) (hq : d.Leads path q) :
    e.Leads path q := by
  apply hq.mono h.ext id
  intro
  rw [h.isLink_eq, hq.isLink_eq]

end Beside

/-- A file under another name is no temporary file. -/
theorem IsOwn.ne (h : IsOwn path p number d) {n : Nat} (hq : q ≠ p)
    (hfile : d.node? q = some (.file n)) : n ≠ number := by
  rintro rfl
  exact hq (h.single q hfile)

theorem IsOwn.ne_of_not_names (h : IsOwn path p number d)
    (hq : ¬ d.Names (temporaryOf path) q) : q ≠ p := by
  rintro rfl
  exact hq h.named

/-- A file that a path leads to is the same beside the temporary one. -/
theorem IsOwn.content?_of_some (h : IsOwn path p number d)
    (hbeside : Beside p number d e) {bytes : ByteArray}
    (hd : d.content? path = some bytes) : e.content? path = some bytes := by
  obtain ⟨q, n, hleads, hnode, hdata⟩ := content?_eq_some_iff.1 hd
  have hq : q ≠ p := by
    rintro rfl
    exact h.apart hleads
  refine content?_eq_some_iff.2 ⟨q, n, hbeside.leads hleads, ?_, ?_⟩
  · rw [hbeside.node? q hq, hnode]
  · rw [hbeside.data n (h.ne hq hnode), hdata]

theorem IsOwn.of_beside (h : IsOwn path p number d)
    (hbeside : Beside p number d e) : IsOwn path p number e where
  named := h.named.names_mono hbeside.ext
  file := hbeside.behind
  single q hq := by
    by_cases heq : q = p
    · exact heq
    · rw [hbeside.node? q heq] at hq
      exact h.single q hq
  apart hleads := h.apart (hbeside.symm.leads hleads)

/-- The database is the same. -/
theorem IsOwn.content?_eq (h : IsOwn path p number d)
    (hbeside : Beside p number d e) : e.content? path = d.content? path := by
  ext bytes
  exact ⟨(h.of_beside hbeside).content?_of_some hbeside.symm,
    h.content?_of_some hbeside⟩

/-- A disk on which nothing but the temporary file of a database has changed. -/
structure Spared (path : String) (d e : LinkedDisk) : Prop where
  content : e.content? path = d.content? path
  others : ∀ q, ¬ d.Names (temporaryOf path) q → e.node? q = d.node? q
  files : ∀ q n, ¬ d.Names (temporaryOf path) q → d.node? q = some (.file n) →
    e.data n = d.data n

theorem Spared.refl (path : String) (d : LinkedDisk) : Spared path d d where
  content := rfl
  others _ _ := rfl
  files _ _ _ _ := rfl

theorem IsOwn.spared (h : IsOwn path p number d)
    (hbeside : Beside p number d e) : Spared path d e where
  content := h.content?_eq hbeside
  others q hq := hbeside.node? q (h.ne_of_not_names hq)
  files _ n hq hnode := hbeside.data n (h.ne (h.ne_of_not_names hq) hnode)

/-- A disk on which a database was given its content through the temporary
file, of which nothing is left. -/
structure Replaced (path : String) (data : ByteArray) (d e : LinkedDisk) :
    Prop where
  content : e.content? path = some data
  temporary : ∃ p, d.Names (temporaryOf path) p ∧ e.node? p = none
  others : ∀ q, ¬ d.Names (temporaryOf path) q → ¬ d.Names path q →
    e.node? q = d.node? q
  files : ∀ q n, ¬ d.Names (temporaryOf path) q → d.node? q = some (.file n) →
    e.data n = d.data n

/-! ## A temporary file that is there -/

/-- A temporary file is there, and it is all that happened. -/
structure Holds (path : String) (p : Place) (number : Nat) (d e : LinkedDisk) :
    Prop where
  own : IsOwn path p number d
  beside : Beside p number d e
  file : e.node? p = some (.file number)

/-- The temporary file that is opened on a clear disk. -/
theorem IsClear.holds (h : IsClear path d)
    (hfill : d.fill (temporaryOf path) data = .ok e) :
    ∃ p number, Holds path p number d e := by
  obtain ⟨p, number, hleads, hcases⟩ := fill_eq_ok hfill
  refine ⟨p, number, ?_⟩
  rcases hcases with ⟨hnode, rfl⟩ | ⟨hnone, rfl, rfl⟩
  · have hdirectory : d.node? p ≠ some .directory := by simp [hnode]
    exact {
      own := {
        named := h.named p hleads hdirectory
        file := .inr hnode
        single := fun q => h.single p q number hleads hnode
        apart := h.apart p hleads hdirectory }
      beside := {
        before := .inr hnode
        behind := .inr hnode
        node? := fun _ _ => rfl
        data := fun n hn => if_neg hn
        workingDirectory := rfl }
      file := hnode }
  · have hdirectory : d.node? p ≠ some .directory := by simp [hnone]
    have hnode : ((d.make p).store d.nextNumber data).node? p
        = some (.file d.nextNumber) := by
      rw [node?_store, node?_make d hleads.ne_nil, if_pos rfl]
    exact {
      own := {
        named := h.named p hleads hdirectory
        file := .inl hnone
        single := fun q hq => absurd (lt_nextNumber hq) (Nat.lt_irrefl _)
        apart := h.apart p hleads hdirectory }
      beside := {
        before := .inl hnone
        behind := .inr hnode
        node? := fun q hq => by
          rw [node?_store, node?_make d hleads.ne_nil, if_neg hq]
        data := fun n hn => (if_neg hn).trans (if_neg hn)
        workingDirectory := rfl }
      file := hnode }

namespace Holds

theorem names (h : Holds path p number d e) : e.Names (temporaryOf path) p :=
  h.own.named.names_mono h.beside.ext

theorem isLink_eq (h : Holds path p number d e) : e.isLink p = false := by
  rw [isLink, h.file]

/-- A temporary file that is filled again. -/
theorem fill (h : Holds path p number d e)
    (hfill : e.fill (temporaryOf path) data = .ok f) :
    Holds path p number d f ∧ f.data number = data := by
  obtain ⟨q, n, hleads, hcases⟩ := fill_eq_ok hfill
  obtain rfl := (h.names.leads h.isLink_eq).unique hleads
  rcases hcases with ⟨hnode, rfl⟩ | ⟨hnone, -, -⟩
  · rw [h.file] at hnode
    obtain rfl := LinkedNode.file.inj (Option.some.inj hnode)
    refine ⟨{ h with beside := ?_ }, if_pos rfl⟩
    exact { h.beside with
      data := fun m hm => (if_neg hm).trans (h.beside.data m hm) }
  · rw [h.file] at hnone
    cases hnone

/-- A temporary file that is removed. -/
theorem remove (h : Holds path p number d e) :
    e.remove (temporaryOf path) = .ok (e.clear p) ∧
      Beside p number d (e.clear p) ∧ (e.clear p).node? p = none := by
  have hp := h.own.named.ne_nil
  have hgone : (e.clear p).node? p = none := by
    rw [node?_clear e hp, if_pos rfl]
  refine ⟨remove_of_names h.names h.file, ?_, hgone⟩
  exact { h.beside with
    behind := .inl hgone
    node? := fun q hq => by
      rw [node?_clear e hp, if_neg hq, h.beside.node? q hq] }

/-- A temporary file that is given the name of its database replaces it. -/
theorem rename (h : Holds path p number d e) (hclear : IsClear path d)
    (hdata : e.data number = data)
    (hrename : e.rename (temporaryOf path) path = .ok f) :
    Replaced path data d f := by
  obtain ⟨q, hnames, hdirectory, hcases⟩ := rename_eq_ok h.names h.file hrename
  have hp := h.own.named.ne_nil
  have hq := hnames.ne_nil
  have hdnames : d.Names path q := hnames.names_mono h.beside.symm.ext
  have hne : q ≠ p := by
    rintro rfl
    exact h.own.apart (h.beside.symm.leads (hnames.leads h.isLink_eq))
  rw [h.beside.node? q hne] at hdirectory
  obtain rfl : f = (e.clear p).put q (.file number) := by
    rcases hcases with hf | ⟨hsame, -⟩
    · exact hf
    · rw [h.beside.node? q hne] at hsame
      exact absurd (h.own.single q hsame) hne
  have hnode : ∀ r, ((e.clear p).put q (.file number)).node? r
      = if r = q then some (.file number) else if r = p then none
        else e.node? r := by
    intro r
    rw [node?_put _ hq, node?_clear e hp]
  -- the way to the database does not depend on what has its name
  have hway : (d.clear q).Names path q := by
    cases hlink : d.isLink q with
    | true =>
      obtain ⟨target, htarget⟩ := isLink_iff.1 hlink
      exact hclear.way q target hdnames htarget
    | false => exact hdnames.names_mono (.clear hq hdirectory hlink)
  have hleads : ((e.clear p).put q (.file number)).Leads path q := by
    have hkeeps : ∀ r node, node ≠ .file number →
        (d.clear q).node? r = some node →
        ((e.clear p).put q (.file number)).node? r = some node := by
      intro r node hfile hr
      rw [node?_clear d hq] at hr
      obtain ⟨hrq, hr⟩ := Option.ite_none_left_eq_some.1 hr
      have hrp : r ≠ p := by
        rintro rfl
        rcases h.own.file with hd | hd <;> rw [hd] at hr <;> cases hr
        exact hfile rfl
      rw [hnode, if_neg hrq, if_neg hrp, h.beside.node? r hrp, hr]
    refine hway.mono ⟨fun r => hkeeps r _ nofun, fun r _ => hkeeps r _ nofun,
      h.beside.workingDirectory⟩ nofun fun _ => ?_
    rw [isLink, hnode, if_pos rfl]
  exact {
    content := content?_eq_some_iff.2
      ⟨q, number, hleads, by rw [hnode, if_pos rfl], hdata⟩
    temporary := by
      refine ⟨p, h.own.named, ?_⟩
      rw [hnode, if_neg (Ne.symm hne), if_pos rfl]
    others := by
      intro r hrp hrq
      have hrp' := h.own.ne_of_not_names hrp
      have hrq' : r ≠ q := by
        rintro rfl
        exact hrq hdnames
      rw [hnode, if_neg hrq', if_neg hrp', h.beside.node? r hrp']
    files := fun r n hr hn =>
      h.beside.data n (h.own.ne (h.own.ne_of_not_names hr) hn) }

end Holds

/-- A file with a text is read as a database. -/
theorem readDatabase_of_content? {text : String}
    (h : d.content? path = some text.toUTF8) :
    (readDatabase path : StateM LinkedDisk _) d = (.ok (some text), d) := by
  obtain ⟨p, number, hleads, hnode, hdata⟩ := content?_eq_some_iff.1 h
  have hfind := find_eq_file_iff.2 ⟨p, hleads, hnode⟩
  have hthere : (isThere path : StateM LinkedDisk _) d = (true, d) := by
    change ((d.find path).toBool, d) = _
    rw [hfind]
    rfl
  have hread : (FileSystem.readText path : StateM LinkedDisk _) d
      = (.ok text, d) := by
    change Disk.act (fun d => (·, d) <$> LinkedDisk.readText path d) d = _
    rw [Disk.act, readText, hfind]
    simp only [bind, Except.bind, hdata, Disk.fromUTF8?_toUTF8]
    rfl
  rw [readDatabase, FaultyDisk.bind_apply, hthere]
  simp only [if_true]
  rw [FaultyDisk.bind_apply, hread]
  rfl

end LinkedDisk

namespace Host

open LinkedDisk

variable {s : Host LinkedDisk} {path : String} {data : ByteArray} {p : Place}
  {number : Nat}

/-! ## The steps of a write -/

theorem isGrowth_grows : IsGrowth LinkedDisk.Grows where
  refl := .refl
  trans := .trans
  isDirectory _ _ := rfl
  makeDirectory path :=
    ⟨LinkedDisk.makeDirectory path, rfl, fun _ _ => grows_makeDirectory⟩

theorem runs_create (h : IsClear path s.disk) :
    Runs (create (temporaryOf path)) s
      (fun r t => (r = .ok () ∧ ∃ p number, Holds path p number s.disk t.disk) ∨
        ∃ e, r = .error e ∧ t.disk = s.disk ∧ t.log = s.log)
      (fun t => Spared path s.disk t.disk) := by
  apply (runs_whole (fill (temporaryOf path) .empty) rfl fun _ _ => rfl).mono
  · intro r t ht
    rcases ht with ⟨hr, hfill, -⟩ | ⟨e, hr, hdisk, hlog⟩
    · exact .inl ⟨hr, h.holds hfill⟩
    · exact .inr ⟨e, hr, hdisk, hlog.elim And.right id⟩
  · intro t ht
    rcases ht with ⟨hdisk, -⟩ | ⟨hfill, -⟩
    · rw [hdisk]
      exact .refl _ _
    · obtain ⟨p, number, hholds⟩ := h.holds hfill
      exact hholds.own.spared hholds.beside

/-- A write that breaks off has touched the temporary file at most. -/
theorem holds_write {d e : LinkedDisk} (h : Holds path p number d e)
    (part : ByteArray) :
    Holds path p number d
      ((write (temporaryOf path) part : StateM LinkedDisk _) e).2 := by
  change Holds path p number d (Disk.change (fill (temporaryOf path) part) e).2
  rcases change_cases (fill (temporaryOf path) part) e with
    ⟨err, x, -, hchange⟩ | ⟨f, hfill, hchange⟩ <;> rw [hchange]
  · exact h
  · exact (h.fill hfill).1

theorem runs_write {d : LinkedDisk} (h : Holds path p number d s.disk)
    (data : ByteArray) :
    Runs (write (temporaryOf path) data) s
      (fun r t => Holds path p number d t.disk ∧
        (r = .ok () → t.disk.data number = data))
      (fun t => Holds path p number d t.disk) := by
  apply (runs_perform (fill (temporaryOf path) data) rfl).mono
  · intro r t ht
    rcases ht with ⟨-, hfill, -⟩ | ⟨e, rfl, ⟨-, hdisk, -⟩ | ⟨part, hdisk, -⟩⟩
    · exact ⟨(h.fill hfill).1, fun _ => (h.fill hfill).2⟩
    · rw [hdisk]
      exact ⟨h, nofun⟩
    · rw [hdisk]
      exact ⟨holds_write h part, nofun⟩
  · intro t ht
    rcases ht with ⟨hdisk, -⟩ | ⟨hfill, -⟩ | ⟨part, hdisk, -⟩
    · rwa [hdisk]
    · exact (h.fill hfill).1
    · rw [hdisk]
      exact holds_write h part

/-- How a write of a database that began on the disk `d` may end, with its
answer or without. -/
inductive Ends (path : String) (data : ByteArray) (d : LinkedDisk)
    (t : Host LinkedDisk) : Option (Except StorageError Unit) → Prop where
  | done (h : Replaced path data d t.disk) : Ends path data d t (some (.ok ()))
  | failed (e : StorageError) (h : Spared path d t.disk)
      (hgone : .created (temporaryOf path) ∈ t.log →
        (∃ p, d.Names (temporaryOf path) p ∧ t.disk.node? p = none) ∨
          .notRemoved (temporaryOf path) ∈ t.log) :
      Ends path data d t (some (.error e))
  | before (h : Spared path d t.disk) : Ends path data d t none
  | after (h : Replaced path data d t.disk) : Ends path data d t none

/-- The temporary file of an attempt that failed is removed, unless that fails
too. -/
theorem ends_giveUp {d : LinkedDisk} (h : Holds path p number d s.disk)
    (err : StorageError) (data : ByteArray) :
    Runs (giveUp (temporaryOf path) err) s
      (fun r t => Ends path data d t (some r)) (Ends path data d · none) := by
  obtain ⟨hremove, hbeside, hgone⟩ := h.remove
  have hruns : Runs (FileSystem.remove (temporaryOf path)) s
      (fun _ t => Spared path d t.disk ∧
        (t.disk.node? p = none ∨ .notRemoved (temporaryOf path) ∈ t.log))
      (fun t => Spared path d t.disk) := by
    apply (runs_whole (LinkedDisk.remove (temporaryOf path)) rfl
      fun _ _ => rfl).mono
    · intro r t ht
      rcases ht with ⟨-, hok, -⟩ | ⟨e, -, hdisk, ⟨⟨err, herr⟩, -⟩ | hlog⟩
      · obtain heq := Except.ok.inj (hremove.symm.trans hok)
        rw [← heq]
        exact ⟨h.own.spared hbeside, .inl hgone⟩
      · -- the disk does not refuse to remove the file
        rw [hremove] at herr
        cases herr
      · rw [hdisk, hlog]
        exact ⟨h.own.spared h.beside, .inr List.mem_cons_self⟩
    · intro t ht
      rcases ht with ⟨hdisk, -⟩ | ⟨hok, -⟩
      · rw [hdisk]
        exact h.own.spared h.beside
      · obtain heq := Except.ok.inj (hremove.symm.trans hok)
        rw [← heq]
        exact h.own.spared hbeside
  exact hruns.bind (fun _ ht => .before ht) fun _ t ht =>
    runs_pure (.failed err ht.1 fun _ => ht.2.imp_left fun hnone =>
      ⟨p, h.own.named, hnone⟩)

theorem ends_atomicWrite {d : LinkedDisk}
    (hclear : ∀ e, d.Grows e → IsClear path e) (data : ByteArray)
    (fates : List Fate) :
    Runs (atomicWrite path data) { disk := d, fates }
      (fun r t => ∃ e, d.Grows e ∧ Ends path data e t (some r))
      (fun t => ∃ e, d.Grows e ∧ Ends path data e t none) := by
  apply (isGrowth_grows.makeRoomFor path _).bind
  · exact fun t ht => ⟨t.disk, ht.1, .before (.refl _ _)⟩
  intro r t ht
  have hlog : .created (temporaryOf path) ∉ t.log := by
    rw [ht.2]
    exact List.not_mem_nil
  cases r with
  | error e =>
    exact runs_pure
      ⟨t.disk, ht.1, .failed e (.refl _ _) fun h => absurd h hlog⟩
  | ok _ =>
    -- the directories are made, and nothing that follows makes another one
    refine Runs.mono ?_
      (fun r u (hends : Ends path data t.disk u (some r)) => ⟨t.disk, ht.1, hends⟩)
      fun u (hends : Ends path data t.disk u none) => ⟨t.disk, ht.1, hends⟩
    have hcleared := hclear t.disk ht.1
    apply (runs_create hcleared).bind
    · exact fun u hu => .before hu
    intro r u hu
    rcases hu with ⟨rfl, p, number, hholds⟩ | ⟨e, rfl, hdisk, hsame⟩
    · apply (runs_write hholds data).bind
      · exact fun v hv => .before (hv.own.spared hv.beside)
      intro r v hv
      obtain ⟨hheld, hdata⟩ := hv
      cases r with
      | error e => exact ends_giveUp hheld _ data
      | ok _ =>
        apply (runs_whole (LinkedDisk.rename (temporaryOf path) path) rfl
          fun _ _ => rfl).bind
        · intro w hw
          rcases hw with ⟨hdisk, -⟩ | ⟨hrename, -⟩
          · rw [← hdisk] at hheld
            exact .before (hheld.own.spared hheld.beside)
          · exact .after (hheld.rename hcleared (hdata rfl) hrename)
        intro r w hw
        rcases hw with ⟨rfl, hrename, -⟩ | ⟨e, rfl, hdisk, -⟩
        · exact runs_pure (.done (hheld.rename hcleared (hdata rfl) hrename))
        · rw [← hdisk] at hheld
          exact ends_giveUp hheld _ data
    · -- nothing was created, so nothing has to be gone
      refine runs_pure (.failed _ ?_ fun h => absurd (hsame ▸ h) hlog)
      rw [hdisk]
      exact .refl _ _

/-! ## Whatever becomes of the steps -/

/-- What may be said of a write of `data` to `path` that was begun on the disk
`d`, by its answer, if it came to one, and the host behind it. -/
structure CommitsOrKeeps (path : String) (data : ByteArray) (d : LinkedDisk)
    (answer : Option (Except StorageError Unit)) (t : Host LinkedDisk) : Prop where
  /-- The database is complete, with its old content or with the new one. -/
  complete : t.disk.content? path = d.content? path ∨
    t.disk.content? path = some data
  /-- Nothing but the database and its temporary file has another file, or
  none, to its name. -/
  others : ∀ q, ¬ d.Names (temporaryOf path) q → ¬ d.Names path q →
    t.disk.node? q = d.node? q
  /-- No file but the temporary one has another content. -/
  files : ∀ q n, ¬ d.Names (temporaryOf path) q → d.node? q = some (.file n) →
    t.disk.data n = d.data n
  /-- The temporary file stands beside what bears the name of the database. -/
  sibling : isName (fileName path) → ∀ p, d.Names (temporaryOf path) p →
    ∃ place, p = place ++ [fileName path ++ ".tmp"] ∧
      d.Names path (place ++ [fileName path])
  /-- After a success the new content is there and is read, and the temporary
  file is gone. -/
  success : answer = some (.ok ()) → t.disk.content? path = some data ∧
    (∀ text, data = text.toUTF8 →
      (readDatabase path : StateM LinkedDisk _) t.disk
        = (.ok (some text), t.disk)) ∧
    ∃ p, d.Names (temporaryOf path) p ∧ t.disk.node? p = none
  /-- After a failure the database is as it was, and a temporary file that was
  created is gone, unless removing it failed. -/
  failure : ∀ e, answer = some (.error e) →
    t.disk.content? path = d.content? path ∧
    (∀ q, ¬ d.Names (temporaryOf path) q → t.disk.node? q = d.node? q) ∧
    (.created (temporaryOf path) ∈ t.log →
      .notRemoved (temporaryOf path) ∉ t.log →
      ∃ p, d.Names (temporaryOf path) p ∧ t.disk.node? p = none)

theorem commitsOrKeeps_of_spared {d : LinkedDisk} {t : Host LinkedDisk}
    {answer : Option (Except StorageError Unit)} (h : Spared path d t.disk)
    (hanswer : answer ≠ some (.ok ()))
    (hgone : ∀ e, answer = some (.error e) →
      .created (temporaryOf path) ∈ t.log →
        (∃ p, d.Names (temporaryOf path) p ∧ t.disk.node? p = none) ∨
          .notRemoved (temporaryOf path) ∈ t.log) :
    CommitsOrKeeps path data d answer t where
  complete := .inl h.content
  others q hq _ := h.others q hq
  files := h.files
  sibling hname _ := names_of_temporaryOf hname
  success hok := absurd hok hanswer
  failure e he := ⟨h.content, h.others, fun hcreated hremoved =>
    (hgone e he hcreated).resolve_right hremoved⟩

theorem commitsOrKeeps_of_replaced {d : LinkedDisk} {t : Host LinkedDisk}
    {answer : Option (Except StorageError Unit)}
    (h : Replaced path data d t.disk)
    (hanswer : ∀ e, answer ≠ some (.error e)) :
    CommitsOrKeeps path data d answer t where
  complete := .inr h.content
  others := h.others
  files := h.files
  sibling hname _ := names_of_temporaryOf hname
  success _ := by
    refine ⟨h.content, ?_, h.temporary⟩
    rintro text rfl
    exact readDatabase_of_content? h.content
  failure e he := absurd he (hanswer e)

/-- A database is written completely or not at all, whatever becomes of the
steps and wherever the process stops, and nothing else is touched but its
temporary file and the directories that are made.  The temporary file must be
nobody else's, whatever directories that are. -/
theorem atomicWrite_commits_or_keeps (path : String) (data : ByteArray)
    (d : LinkedDisk) (hclear : ∀ e, d.Grows e → IsClear path e)
    (fates : List Fate) :
    ∃ e, d.Grows e ∧
      (∀ bytes, d.content? path = some bytes → e.content? path = some bytes) ∧
      CommitsOrKeeps path data e (start (atomicWrite path data) d fates).1
        (start (atomicWrite path data) d fates).2 := by
  have hruns := ends_atomicWrite hclear data fates
  revert hruns
  rw [Runs, start]
  generalize (atomicWrite path data : Process LinkedDisk _).run
    { disk := d, fates } = outcome
  obtain ⟨answer, t⟩ := outcome
  intro hends
  cases answer with
  | some r =>
    obtain ⟨e, hgrows, hends⟩ := hends
    refine ⟨e, hgrows, fun _ => hgrows.content?_eq_some, ?_⟩
    cases hends with
    | done h => exact commitsOrKeeps_of_replaced h (by simp)
    | failed e h hgone =>
      exact commitsOrKeeps_of_spared h (by simp) fun _ _ => hgone
  | none =>
    obtain ⟨e, hgrows, hends⟩ := hends
    refine ⟨e, hgrows, fun _ => hgrows.content?_eq_some, ?_⟩
    cases hends with
    | before h => exact commitsOrKeeps_of_spared h (by simp) (by simp)
    | after h => exact commitsOrKeeps_of_replaced h (by simp)

/-- A database that is reached through a link to its directory, and that has
another name, keeps its content if the renaming fails. -/
theorem atomicWrite_of_refused_rename :
    let d := LinkedDisk.blank.put ["etc"] (.link "srv/etc")
      |>.put ["srv"] .directory |>.put ["srv", "etc"] .directory
      |>.make ["srv", "etc", "db"] |>.store 0 "old".toUTF8
      |>.make ["srv", "etc", "db.tmp"] |>.store 1 "left".toUTF8
      |>.put ["copy"] (.file 0)
    let outcome := start (atomicWrite "etc/db" "new".toUTF8) d
      [.done, .done, .done, .fails ⟨.other, "Input/output error"⟩ .empty]
    outcome.2.disk.content? "etc/db" = some "old".toUTF8 ∧
      outcome.2.disk.node? ["srv", "etc", "db.tmp"] = none := by
  intro d
  have hsingle : ∀ q, d.node? q = some (.file 1) → q = ["srv", "etc", "db.tmp"] := by
    intro q hq
    simp only [d, LinkedDisk.node?, LinkedDisk.put, LinkedDisk.make,
      LinkedDisk.store, LinkedDisk.blank, LinkedNode.bound] at hq
    grind
  intro outcome
  have htemporary : d.Leads "etc/db.tmp" ["srv", "etc", "db.tmp"] :=
    ⟨["srv", "etc"], "db.tmp", rfl, by decide,
      eq_ok_of_toOption (by decide +kernel)⟩
  have hnamed : d.Names "etc/db.tmp" ["srv", "etc", "db.tmp"] :=
    ⟨["srv", "etc"], "db.tmp", rfl, by decide,
      eq_ok_of_toOption (by decide +kernel)⟩
  have hleads : d.Leads "etc/db" ["srv", "etc", "db"] :=
    ⟨["srv", "etc"], "db", rfl, by decide,
      eq_ok_of_toOption (by decide +kernel)⟩
  have hnames : d.Names "etc/db" ["srv", "etc", "db"] :=
    ⟨["srv", "etc"], "db", rfl, by decide,
      eq_ok_of_toOption (by decide +kernel)⟩
  have hclear : IsClear "etc/db" d := {
    named := by
      intro p hp _
      obtain rfl := hp.unique htemporary
      exact hnamed
    single := by
      intro p q number hp hnode hq
      obtain rfl := hp.unique htemporary
      have hnumber : d.node? ["srv", "etc", "db.tmp"] = some (.file 1) := by
        decide +kernel
      obtain rfl := LinkedNode.file.inj (Option.some.inj (hnumber.symm.trans hnode))
      exact hsingle q hq
    apart := by
      intro p hp _ hpath
      obtain rfl := hp.unique htemporary
      exact absurd (hpath.unique hleads) (by decide)
    way := by
      intro q target hq hlink
      obtain rfl := hq.unique hnames
      exact absurd (isLink_of_link hlink) (by decide +kernel) }
  obtain ⟨e, hgrows, hkept, hcommits⟩ :=
    atomicWrite_commits_or_keeps "etc/db" "new".toUTF8 d
      (fun e he => hclear.grows he htemporary hleads hnames)
      [.done, .done, .done, .fails ⟨.other, "Input/output error"⟩ .empty]
  have hfailed : ∃ r ∈ outcome.1, r.toBool = false := by decide +kernel
  obtain ⟨r, hr, herror⟩ := hfailed
  cases r with
  | ok u => cases herror
  | error err =>
    obtain ⟨hcontent, -, hgone⟩ := hcommits.failure err hr
    obtain ⟨p, hp, hnone⟩ := hgone (by decide +kernel) (by decide +kernel)
    obtain rfl := hp.unique (hnamed.names_mono hgrows.ext)
    exact ⟨hcontent.trans (hkept _ (by decide +kernel)), hnone⟩

/-- Without such a condition the database is lost.  It is emptied through a
temporary file that is a link to it or another name of it, and where the link is
given its name, it leads to itself.  It is lost as well if it is a link to its
temporary file, or to a directory on its own way.  A database with a slash behind
its name has its temporary file in the directory of this name. -/
theorem not_commits_or_keeps :
    let db := LinkedDisk.blank.make ["db"] |>.store 0 "old".toUTF8
    let write := fun d => start (atomicWrite "db" "new".toUTF8) d
    let soft := db.put ["db.tmp"] (.link "db")
    let hard := db.put ["db.tmp"] (.file 0)
    let back := LinkedDisk.blank.make ["db.tmp"] |>.store 0 "old".toUTF8
      |>.put ["db"] (.link "db.tmp")
    let loop := LinkedDisk.blank.put ["a"] .directory |>.put ["l"] (.link "a")
    let inside := LinkedDisk.blank.put ["a"] .directory
      |>.make ["a", ".tmp"] |>.store 0 "mine".toUTF8
    (write soft [.stopsAfter]).2.disk.content? "db" = some .empty ∧
    ((write soft []).1.any Except.toBool ∧
      (write soft []).2.disk.content? "db" = none) ∧
    (write hard [.stopsAfter]).2.disk.content? "db" = some .empty ∧
    (write back [.stopsAfter]).2.disk.content? "db" = some .empty ∧
    ((start (atomicWrite "l/../l" "new".toUTF8) loop []).1.any Except.toBool ∧
      (start (atomicWrite "l/../l" "new".toUTF8) loop []).2.disk.content? "l/../l"
        = none) ∧
    (inside.content? "a/.tmp" = some "mine".toUTF8 ∧
      (start (atomicWrite "a/" "new".toUTF8) inside []).2.disk.content? "a/.tmp"
        = none) := by
  decide +kernel

end Host

end SettingsArchive
