import SettingsArchive.Proofs.Storage.Effects
import SettingsArchive.Proofs.Storage.LinkedEffects
import SettingsArchive.Proofs.Storage.Simulation

/-!
# Disks without links

As long as no name is a link and no file has two names, a disk with links does
what a disk does that knows no links (`Mirrors`).  A database is locked, read and
written with the same answers on both: see `isSimulation_mirrors`.

Only a disk with links refuses a slash behind the name of a file that is renamed
or removed.  The temporary file of a database has none.
-/

namespace SettingsArchive

/-- What bears a name, without its content. -/
def Node.linked : Node → LinkedNode
  | .directory => .directory
  | .file number _ => .file number

namespace LinkedDisk

open FilePath FileSystem
open Disk (End)

variable {d e : LinkedDisk} {path : String} {p : Place}

/-- A disk on which no file has two names. -/
def IsSingle (d : LinkedDisk) : Prop :=
  ∀ p q number, d.node? p = some (.file number) →
    d.node? q = some (.file number) → q = p

theorem IsSingle.clear (h : d.IsSingle) (hp : p ≠ []) :
    (d.clear p).IsSingle := by
  intro q r number hq hr
  rw [node?_clear d hp] at hq hr
  exact h q r number (Option.ite_none_left_eq_some.1 hq).2
    (Option.ite_none_left_eq_some.1 hr).2

/-- A file that has no name yet is given one. -/
theorem IsSingle.put {node : LinkedNode} (h : d.IsSingle) (hp : p ≠ [])
    (hnew : ∀ number, node = .file number → ∀ q, d.node? q ≠ some node) :
    (d.put p node).IsSingle := by
  intro q r number hq hr
  rw [node?_put d hp] at hq hr
  split at hq <;> split at hr
  · rename_i hqp hrp
    rw [hqp, hrp]
  · obtain rfl := Option.some.inj hq
    exact absurd hr (hnew number rfl r)
  · obtain rfl := Option.some.inj hr
    exact absurd hq (hnew number rfl q)
  · exact h q r number hq hr

/-- A disk on which no name is a link, and no file has two names. -/
structure IsUnlinked (d : LinkedDisk) : Prop where
  link : ∀ p, d.isLink p = false
  single : d.IsSingle

/-- Where there are no links, it makes no difference whether one at the end is
followed. -/
theorem Route.of_isUnlinked {follows goes : Bool} (hd : d.IsUnlinked) {links : Nat}
    {slash : Bool} {place : Place} {route : List String} {r : Disk.End}
    (h : Route d follows links slash place route r) :
    Route d goes links slash place route r := by
  induction h with
  | done => exact .done
  | dot h ih => exact .dot ih
  | dots h ih => exact .dots ih
  | last hname hlink => exact .last hname fun _ => hd.link _
  | enter hname hrest hnode h ih => exact .enter hname hrest hnode ih
  | jump hname hrest hnode h ih =>
    have hlink := isLink_of_link hnode
    rw [hd.link] at hlink
    cases hlink

theorem IsUnlinked.names (h : d.IsUnlinked) (hp : d.Leads path p) :
    d.Names path p := by
  obtain ⟨place, name, rfl, hsize, hr⟩ := hp
  obtain ⟨htaken, hne, hroute⟩ := resolve_eq_ok_iff.1 hr
  exact ⟨place, name, rfl, hsize,
    resolve_eq_ok_iff.2 ⟨htaken, hne, hroute.of_isUnlinked h⟩⟩

/-- Directories are no links. -/
theorem IsUnlinked.grows (h : d.IsUnlinked) (hgrows : d.Grows e) :
    e.IsUnlinked where
  link p := by rw [hgrows.isLink_eq, h.link]
  single p q number hp hq := h.single p q number
    (hgrows.node?_of_ne hp nofun) (hgrows.node?_of_ne hq nofun)

/-! ## Disks that know no links -/

/-- Two operations fail with the same error, or succeed with results that
correspond. -/
inductive Alike {α β : Type} (R : α → β → Prop) :
    Except SystemError α → Except SystemError β → Prop where
  | error (err : SystemError) : Alike R (.error err) (.error err)
  | ok {a : α} {b : β} (h : R a b) : Alike R (.ok a) (.ok b)

theorem Alike.bind {α β γ δ : Type} {Q : α → β → Prop} {R : γ → δ → Prop}
    {x : Except SystemError α} {y : Except SystemError β}
    {f : α → Except SystemError γ} {g : β → Except SystemError δ}
    (h : Alike Q x y) (hf : ∀ a b, Q a b → Alike R (f a) (g b)) :
    Alike R (x >>= f) (y >>= g) := by
  cases h with
  | error err => exact .error err
  | ok h => exact hf _ _ h

/-- A disk with links on which there is what is on a disk that knows none, and
nothing else. -/
structure Mirrors (d : Disk) (e : LinkedDisk) : Prop where
  node? : ∀ p, e.node? p = (d.node? p).map Node.linked
  data : ∀ p number bytes, d.node? p = some (.file number bytes) →
    e.data number = bytes
  single : e.IsSingle
  nextNumber : e.nextNumber = d.nextNumber
  workingDirectory : e.workingDirectory = []
  locked : e.locked = d.locked

theorem exists_file_of_linked {d : Disk} {number : Nat}
    (h : (d.node? p).map Node.linked = some (.file number)) :
    ∃ bytes, d.file? p = some (number, bytes) := by
  obtain ⟨node, hnode, hlinked⟩ := Option.map_eq_some_iff.1 h
  cases node with
  | directory => cases hlinked
  | file n bytes =>
    obtain rfl := LinkedNode.file.inj hlinked
    exact ⟨bytes, Disk.file?_eq_some_iff.2 hnode⟩

/-- A disk on which every file has its own number is mirrored by one with
links. -/
theorem exists_mirrors {d : Disk} (hsound : d.IsSound)
    (hsingle : ∀ p q f g, d.file? p = some f → d.file? q = some g →
      f.1 = g.1 → q = p) : ∃ e, Mirrors d e := by
  have hcontent : ∀ number, ∃ bytes, ∀ p x, d.file? p = some (number, x) →
      bytes = x := by
    intro number
    by_cases h : ∃ p x, d.file? p = some (number, x)
    · obtain ⟨p, bytes, hp⟩ := h
      refine ⟨bytes, fun q x hq => ?_⟩
      obtain rfl := hsingle p q _ _ hp hq rfl
      exact congrArg Prod.snd (Option.some.inj (hp.symm.trans hq))
    · exact ⟨.empty, fun p x hp => absurd ⟨p, x, hp⟩ h⟩
  obtain ⟨data, hdata⟩ := Classical.skolem.1 hcontent
  have hnode : ∀ p, (if p = [] then some .directory else
      (d.node? p).map Node.linked) = (d.node? p).map Node.linked := by
    intro p
    split
    · rename_i hp
      rw [hp]
      rfl
    · rfl
  refine ⟨{
    nodes := fun p => (d.node? p).map Node.linked
    data := data
    nextNumber := d.nextNumber
    numbered := fun p number hp => by
      obtain ⟨bytes, hfile⟩ := exists_file_of_linked hp
      exact hsound.file p _ hfile
    locked := d.locked }, {
    node? := hnode
    data := fun p number bytes hp =>
      hdata number p bytes (Disk.file?_eq_some_iff.2 hp)
    single := fun p q number hp hq => by
      obtain ⟨x, hp⟩ := exists_file_of_linked ((hnode p).symm.trans hp)
      obtain ⟨y, hq⟩ := exists_file_of_linked ((hnode q).symm.trans hq)
      exact hsingle p q _ _ hp hq rfl
    nextNumber := rfl
    workingDirectory := rfl
    locked := rfl }⟩

namespace Mirrors

variable {d : Disk} {e : LinkedDisk} {p q : Place} {number : Nat}
  {bytes : ByteArray}

theorem isLink_eq (h : Mirrors d e) (p : Place) : e.isLink p = false := by
  rw [isLink, h.node?]
  cases d.node? p with
  | none => rfl
  | some node => cases node <;> rfl

theorem isUnlinked (h : Mirrors d e) : e.IsUnlinked :=
  ⟨h.isLink_eq, h.single⟩

theorem node?_of_file (h : Mirrors d e) (hp : d.node? p = some (.file number bytes)) :
    e.node? p = some (.file number) := by
  rw [h.node?, hp]
  rfl

/-! ## Following paths -/

theorem look_eq (h : Mirrors d e) (place : Place) (name : String) :
    e.look place name = Option.map Node.linked <$> d.look place name := by
  unfold LinkedDisk.look Disk.look
  split
  · rfl
  · rw [h.node?]
    rfl

variable {follows slash : Bool}
  {jump : Place → String → List String → Except SystemError End}

/-- A name with others behind it is entered. -/
theorem trail_cons (h : Mirrors d e) (place : Place) (name : String)
    {rest : List String} (hrest : rest ≠ []) :
    e.trail follows slash jump place (name :: rest)
      = d.enter place name >>= fun q => e.trail follows slash jump q rest := by
  rw [trail, Disk.enter]
  by_cases hdot : name = "."
  · rw [if_pos hdot, if_pos hdot]
    rfl
  · rw [if_neg hdot, if_neg hdot]
    by_cases hdots : name = ".."
    · rw [if_pos hdots, if_pos hdots]
      rfl
    · have hmore : (rest.isEmpty &&
          !(follows && e.isLink (place ++ [name]))) = false := by
        rw [List.isEmpty_eq_false_iff.2 hrest, Bool.false_and]
      rw [if_neg hdots, if_neg hdots, hmore, if_neg Bool.false_ne_true]
      by_cases hsize : Disk.maxName < name.utf8ByteSize
      · rw [if_pos hsize, if_pos hsize]
        rfl
      · rw [if_neg hsize, if_neg hsize, h.node?]
        cases d.node? (place ++ [name]) with
        | none => rfl
        | some node => cases node <;> rfl

/-- A last name is entered only if it is dots. -/
theorem trail_singleton (h : Mirrors d e) (place : Place) (name : String) :
    e.trail follows slash jump place [name]
      = if name = "." ∨ name = ".." then End.at <$> d.enter place name
        else .ok (.named place name slash) := by
  rw [trail, Disk.enter]
  by_cases hdot : name = "."
  · rw [if_pos hdot, if_pos hdot, if_pos (.inl hdot)]
    rfl
  · by_cases hdots : name = ".."
    · rw [if_neg hdot, if_neg hdot, if_pos hdots, if_pos hdots, if_pos (.inr hdots)]
      rfl
    · rw [if_neg hdot, if_neg hdots, if_neg (not_or.2 ⟨hdot, hdots⟩), h.isLink_eq,
        Bool.and_false]
      rfl

theorem trail_concat (h : Mirrors d e) (before : List String) (last : String)
    (place : Place) :
    e.trail follows slash jump place (before ++ [last])
      = before.foldlM d.enter place >>= fun q =>
          e.trail follows slash jump q [last] := by
  induction before generalizing place with
  | nil => rfl
  | cons name before ih =>
    rw [List.cons_append, h.trail_cons place name (by simp), List.foldlM_cons,
      bind_assoc]
    exact bind_congr fun q => ih q

/-- A path comes to the same end, whether a link there would be followed or
not. -/
theorem resolve_eq (h : Mirrors d e) (follows : Bool) (path : String) :
    e.resolve follows path = d.follow path := by
  have hbase : base e.workingDirectory path = [] := by
    rw [base, h.workingDirectory, ite_self]
  obtain ⟨jump, hwalk⟩ : ∃ jump, e.walk follows maxLinks (path.endsWith "/")
      = e.trail follows (path.endsWith "/") jump := ⟨_, rfl⟩
  unfold resolve Disk.follow
  rw [hbase, hwalk, names]
  rcases List.eq_nil_or_concat ((parts path).filter (· ≠ "")) with
    hnames | ⟨before, last, hnames⟩
  · simp only [hnames, trail, List.getLast?_nil]
  · rw [List.concat_eq_append] at hnames
    simp only [hnames, h.trail_concat, h.trail_singleton, List.getLast?_concat,
      List.dropLast_concat]
    rfl

theorem find_eq (h : Mirrors d e) (path : String) :
    e.find path = Node.linked <$> d.find path := by
  rw [LinkedDisk.find, Disk.find, h.resolve_eq]
  cases d.follow path with
  | error err => rfl
  | ok r =>
    cases r with
    | «at» place => rfl
    | named place name slash =>
      change (e.look place name >>= _) = Node.linked <$> (d.look place name >>= _)
      rw [h.look_eq]
      cases d.look place name with
      | error err => rfl
      | ok found =>
        rcases found with _ | node
        · rfl
        · cases node <;> cases slash <;> rfl

/-- What is found under a name corresponds. -/
theorem alike_look (h : Mirrors d e) (place : Place) (name : String) :
    Alike (fun a b => d.node? (place ++ [name]) = a ∧ b = a.map Node.linked)
      (d.look place name) (e.look place name) := by
  rw [h.look_eq]
  cases hlook : d.look place name with
  | error err => exact .error err
  | ok found => exact .ok ⟨(Disk.look_eq_ok hlook).2, rfl⟩

/-! ## What is at a place -/

theorem put_directory (h : Mirrors d e) (hp : p ≠ []) :
    Mirrors (d.put p .directory) (e.put p .directory) where
  node? r := by
    rw [node?_put e hp, Disk.node?_put d hp, h.node?]
    split <;> rfl
  data r n x hr := by
    rw [Disk.node?_put d hp] at hr
    split at hr
    · cases hr
    · exact h.data r n x hr
  single := h.single.put hp nofun
  nextNumber := (Nat.max_eq_left (Nat.zero_le _)).trans h.nextNumber
  workingDirectory := h.workingDirectory
  locked := h.locked

theorem clear (h : Mirrors d e) (hp : p ≠ []) :
    Mirrors (d.clear p) (e.clear p) where
  node? r := by
    rw [node?_clear e hp, Disk.node?_clear d hp, h.node?]
    split <;> rfl
  data r n x hr := by
    rw [Disk.node?_clear d hp] at hr
    exact h.data r n x (Option.ite_none_left_eq_some.1 hr).2
  single := h.single.clear hp
  nextNumber := h.nextNumber
  workingDirectory := h.workingDirectory
  locked := h.locked

theorem make (h : Mirrors d e) (hp : p ≠ []) : Mirrors (d.make p) (e.make p) where
  node? r := by
    rw [node?_make e hp, Disk.make, Disk.node?_put _ hp, h.nextNumber]
    split
    · rfl
    · exact h.node? r
  data r n x hr := by
    rw [Disk.make, Disk.node?_put _ hp] at hr
    split at hr
    · obtain ⟨rfl, rfl⟩ := Node.file.inj (Option.some.inj hr)
      exact if_pos h.nextNumber.symm
    · -- the number of another file is lower
      have hlt := lt_nextNumber (h.node?_of_file hr)
      exact (if_neg (Nat.ne_of_lt hlt)).trans (h.data r n x hr)
  single := h.single.put hp fun _ _ _ hq => Nat.lt_irrefl _ (lt_nextNumber hq)
  nextNumber := (Nat.max_eq_right (Nat.le_succ _)).trans
    (congrArg Nat.succ h.nextNumber)
  workingDirectory := h.workingDirectory
  locked := h.locked

theorem store (h : Mirrors d e) (hp : p ≠ []) {old : ByteArray}
    (hfile : d.node? p = some (.file number old)) :
    Mirrors (d.put p (.file number bytes)) (e.store number bytes) where
  node? r := by
    rw [node?_store, Disk.node?_put d hp]
    split
    · rename_i hr
      rw [hr, h.node?_of_file hfile]
      rfl
    · exact h.node? r
  data r n x hr := by
    rw [Disk.node?_put d hp] at hr
    split at hr
    · obtain ⟨rfl, rfl⟩ := Node.file.inj (Option.some.inj hr)
      exact if_pos rfl
    · rename_i hne
      have hn : n ≠ number := by
        rintro rfl
        exact hne (h.single p r n (h.node?_of_file hfile) (h.node?_of_file hr))
      exact (if_neg hn).trans (h.data r n x hr)
  single := h.single
  nextNumber := h.nextNumber
  workingDirectory := h.workingDirectory
  locked := h.locked

theorem move (h : Mirrors d e) (hp : p ≠ []) (hq : q ≠ [])
    (hfile : d.node? p = some (.file number bytes)) :
    Mirrors ((d.clear p).put q (.file number bytes))
      ((e.clear p).put q (.file number)) where
  node? r := by
    rw [node?_put _ hq, Disk.node?_put _ hq, (h.clear hp).node?]
    split <;> rfl
  data r n x hr := by
    rw [Disk.node?_put _ hq] at hr
    split at hr
    · obtain ⟨rfl, rfl⟩ := Node.file.inj (Option.some.inj hr)
      exact h.data p _ _ hfile
    · exact (h.clear hp).data r n x hr
  single := by
    apply (h.single.clear hp).put hq
    intro _ _ r hr
    rw [node?_clear e hp] at hr
    obtain ⟨hne, hr⟩ := Option.ite_none_left_eq_some.1 hr
    exact hne (h.single p r number (h.node?_of_file hfile) hr)
  nextNumber := by
    have hlt := lt_nextNumber (h.node?_of_file hfile)
    exact (Nat.max_eq_left hlt).trans h.nextNumber
  workingDirectory := h.workingDirectory
  locked := h.locked

/-- A file that is given its own name stays. -/
theorem stay (h : Mirrors d e) (hp : p ≠ [])
    (hfile : d.node? p = some (.file number bytes)) :
    Mirrors ((d.clear p).put p (.file number bytes)) e := by
  have hsame : ∀ r, ((d.clear p).put p (.file number bytes)).node? r
      = d.node? r := by
    intro r
    rw [Disk.node?_put _ hp, Disk.node?_clear d hp]
    split
    · rename_i hr
      rw [hr, hfile]
    · rfl
  exact { h with
    node? := fun r => by rw [hsame, h.node?]
    data := fun r n x hr => h.data r n x (hsame r ▸ hr) }

/-! ## Operations -/

variable {path : String}

theorem makeDirectory (h : Mirrors d e) (path : String) :
    Alike Mirrors (d.makeDirectory path) (e.makeDirectory path) := by
  rw [Disk.makeDirectory, LinkedDisk.makeDirectory, h.resolve_eq]
  cases d.follow path with
  | error err => exact .error err
  | ok r =>
    cases r with
    | «at» place => exact .error _
    | named place name slash =>
      refine (h.alike_look place name).bind fun found _ hfound => ?_
      obtain ⟨-, rfl⟩ := hfound
      cases found with
      | none => exact .ok (h.put_directory (by simp))
      | some node => exact .error _

/-- A file that was opened is the same on both disks. -/
structure Opens (r : Place × Nat × ByteArray × Disk) (s : Nat × LinkedDisk) :
    Prop where
  number : s.1 = r.2.1
  mirrors : Mirrors r.2.2.2 s.2
  ne_nil : r.1 ≠ []
  file : r.2.2.2.node? r.1 = some (.file r.2.1 r.2.2.1)

theorem openFile (h : Mirrors d e) (path : String) :
    Alike Opens (d.openFile path) (e.openFile path) := by
  rw [Disk.openFile, LinkedDisk.openFile, h.resolve_eq]
  cases d.follow path with
  | error err => exact .error err
  | ok r =>
    cases r with
    | «at» place => exact .error _
    | named place name slash =>
      cases slash with
      | true => exact .error _
      | false =>
        refine (h.alike_look place name).bind fun found _ hfound => ?_
        obtain ⟨hnode, rfl⟩ := hfound
        have hne : place ++ [name] ≠ [] := by simp
        cases found with
        | none =>
          exact .ok {
            number := h.nextNumber
            mirrors := h.make hne
            ne_nil := hne
            file := by rw [Disk.node?_put _ hne, if_pos rfl] }
        | some node =>
          cases node with
          | directory => exact .error _
          | file number bytes =>
            exact .ok { number := rfl, mirrors := h, ne_nil := hne, file := hnode }

theorem fill (h : Mirrors d e) (path : String) (bytes : ByteArray) :
    Alike Mirrors (d.fill path bytes) (e.fill path bytes) := by
  refine (h.openFile path).bind fun r s hopens => ?_
  obtain ⟨number, f⟩ := s
  obtain rfl := hopens.number
  exact .ok (hopens.mirrors.store hopens.ne_nil hopens.file)

/-- A file without a slash behind its name is given another name. -/
theorem rename (h : Mirrors d e) {source : String} (hsource : place? source = some p)
    (target : String) :
    Alike Mirrors (d.rename source target) (e.rename source target) := by
  rw [Disk.rename, LinkedDisk.rename, h.resolve_eq, h.resolve_eq]
  cases hfollow : d.follow source with
  | error err => exact .error err
  | ok r =>
    obtain ⟨-, rfl⟩ := Disk.follow_of_place? hsource hfollow
    cases d.follow target with
    | error err => exact .error err
    | ok r =>
      cases r with
      | «at» place => exact .error _
      | named place name slash =>
        refine (h.alike_look _ _).bind fun found _ hfound => ?_
        obtain ⟨hhere, rfl⟩ := hfound
        have hne : ∀ place name, place ++ [name] ≠ ([] : Place) := by simp
        cases found with
        | none => exact .error _
        | some node =>
          cases node with
          | directory => exact .error _
          | file number bytes =>
            refine (h.alike_look place name).bind fun found _ hfound => ?_
            obtain ⟨hthere, rfl⟩ := hfound
            have hmove := h.move (hne _ _) (hne place name) hhere
            cases slash with
            | true => exact .error _
            | false =>
              cases found with
              | none => exact .ok hmove
              | some node =>
                cases node with
                | directory => exact .error _
                | file other x =>
                  by_cases hsame : number = other
                  · obtain rfl := hsame
                    have heq := h.single _ _ number (h.node?_of_file hhere)
                      (h.node?_of_file hthere)
                    rw [← heq] at hhere
                    have hstay := h.stay (hne _ _) hhere
                    simp only [Option.map_some, Node.linked, ↓reduceIte]
                    exact .ok (by rw [← heq]; exact hstay)
                  · simp only [Option.map_some, Node.linked, if_neg hsame]
                    exact .ok hmove

/-- A file without a slash behind its name is removed. -/
theorem remove (h : Mirrors d e) (hpath : place? path = some p) :
    Alike Mirrors (d.remove path) (e.remove path) := by
  rw [Disk.remove, LinkedDisk.remove, h.resolve_eq]
  cases hfollow : d.follow path with
  | error err => exact .error err
  | ok r =>
    obtain ⟨-, rfl⟩ := Disk.follow_of_place? hpath hfollow
    refine (h.alike_look _ _).bind fun found _ hfound => ?_
    obtain ⟨-, rfl⟩ := hfound
    cases found with
    | none => exact .error _
    | some node =>
      cases node with
      | directory => exact .error _
      | file number bytes => exact .ok (h.clear (by simp))

theorem lock (h : Mirrors d e) (path : String) :
    Alike (fun r s => r.1 = s.1 ∧ Mirrors r.2 s.2) (d.lock path) (e.lock path) := by
  refine (h.openFile path).bind fun r s hopens => ?_
  obtain ⟨number, f⟩ := s
  obtain rfl := hopens.number
  have hlocked := hopens.mirrors.locked
  change f.locked = _ at hlocked
  by_cases hheld : r.2.1 ∈ r.2.2.2.locked
  · simp only [hlocked, if_pos hheld]
    exact .ok ⟨rfl, hopens.mirrors⟩
  · simp only [hlocked, if_neg hheld]
    exact .ok ⟨rfl, { hopens.mirrors with locked := rfl }⟩

theorem unlock (h : Mirrors d e) (number : LockNumber) :
    Mirrors (d.unlock number) (e.unlock number) :=
  { h with locked := congrArg (List.filter (· ≠ number)) h.locked }

theorem readText (h : Mirrors d e) (path : String) :
    e.readText path = d.readText path := by
  rw [Disk.readText, LinkedDisk.readText, h.find_eq]
  cases hfind : d.find path with
  | error err => rfl
  | ok node =>
    cases node with
    | directory => rfl
    | file number bytes =>
      obtain ⟨p, -, hfile⟩ := Disk.file?_of_find hfind
      obtain rfl := h.data p number bytes (Disk.file?_eq_some_iff.1 hfile)
      rfl

end Mirrors

/-! ## Databases -/

theorem simulates_act {α : Type} {run : Disk → Except SystemError (α × Disk)}
    {run' : LinkedDisk → Except SystemError (α × LinkedDisk)}
    (h : ∀ d e, Mirrors d e →
      Alike (fun r s => r.1 = s.1 ∧ Mirrors r.2 s.2) (run d) (run' e)) :
    Simulates Mirrors (Disk.act run) (Disk.act run') := by
  intro d e hde
  have hrun := h d e hde
  unfold Disk.act
  generalize run d = x at hrun
  generalize run' e = y at hrun
  cases hrun with
  | error err => exact ⟨rfl, hde⟩
  | ok hrs => exact ⟨congrArg Except.ok hrs.1, hrs.2⟩

theorem simulates_change {run : Disk → Except SystemError Disk}
    {run' : LinkedDisk → Except SystemError LinkedDisk}
    (h : ∀ d e, Mirrors d e → Alike Mirrors (run d) (run' e)) :
    Simulates Mirrors (Disk.change run) (Disk.change run') := by
  apply simulates_act
  intro d e hde
  have hrun := h d e hde
  generalize run d = x at hrun
  generalize run' e = y at hrun
  cases hrun with
  | error err => exact .error err
  | ok hrs => exact .ok ⟨rfl, hrs⟩

/-- A database is opened and saved with the same answers on both disks. -/
theorem isSimulation_mirrors (path : String) :
    IsSimulation Mirrors path where
  makeDirectory directory := simulates_change fun _ _ h => h.makeDirectory directory
  isDirectory directory := by
    intro d e h
    rw [Disk.isDirectory_eq]
    refine ⟨?_, h⟩
    change _ = e.isDirectory directory
    rw [LinkedDisk.isDirectory, h.find_eq]
    cases d.find directory with
    | error err => rfl
    | ok node => cases node <;> rfl
  isThere := by
    intro d e h
    refine ⟨?_, h⟩
    change (d.find path).toBool = (e.find path).toBool
    rw [h.find_eq]
    cases d.find path <;> rfl
  readText := by
    apply simulates_act
    intro d e h
    rw [h.readText]
    cases d.readText path with
    | error err => exact .error err
    | ok text => exact .ok ⟨rfl, h⟩
  create := simulates_change fun _ _ h => h.fill _ _
  write data := simulates_change fun _ _ h => h.fill _ _
  rename := simulates_change fun _ _ h => h.rename (place?_temporaryOf path) path
  remove := simulates_change fun _ _ h => h.remove (place?_temporaryOf path)
  lock file _ := simulates_act fun _ _ h => h.lock file
  unlock number := fun _ _ h => ⟨rfl, h.unlock number⟩

end LinkedDisk

end SettingsArchive
