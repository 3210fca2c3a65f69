import SettingsArchive.Proofs.Storage.Effects

/-!
# Files that nobody reads

A file to which others append may be told from any other file by its number.
`Disk.erase` empties it, and no operation can tell the difference as long as it
does not read that file and writes to other ones only: each has the same answer,
and the disk behind it is the one behind the same operation with that file
emptied (`openFile_erase`, `fill_erase` and so on).

`Apart` is what that asks for where a database is opened and saved: the file is
neither the database nor the temporary file beside it.
-/

namespace SettingsArchive

/-- The node with nothing in it if it is the file of this number. -/
def Node.erase (log : Option Nat) : Node → Node
  | .directory => .directory
  | .file number data => .file number (if log = some number then .empty else data)

/-- The node with more at its end if it is the file of this number. -/
def Node.append (number : Nat) (more : ByteArray) : Node → Node
  | .directory => .directory
  | .file n data => .file n (if n = number then data ++ more else data)

namespace Disk

open FilePath

/-- The disk with every node changed. -/
def mapNodes (f : Node → Node) (d : Disk) : Disk :=
  { d with nodes := d.nodes.map fun x => (x.1, f x.2) }

/-- The disk with nothing in the file of this number. -/
def erase (log : Option Nat) : Disk → Disk :=
  mapNodes (Node.erase log)

/-- The disk with more at the end of the file of this number. -/
def append (number : Nat) (more : ByteArray) : Disk → Disk :=
  mapNodes (Node.append number more)

variable {d e : Disk} {path : String} {place : Place} {log : Option Nat}
  {number : Nat} {data : ByteArray}

/-! ## Nodes -/

theorem lookup_mapNodes (f : Node → Node) (nodes : List (Place × Node))
    (p : Place) :
    (nodes.map fun x => (x.1, f x.2)).lookup p = (nodes.lookup p).map f := by
  induction nodes with
  | nil => rfl
  | cons x nodes ih =>
    rw [List.map_cons, List.lookup_cons, List.lookup_cons, ih]
    split <;> rfl

theorem node?_mapNodes {f : Node → Node} (hf : f .directory = .directory)
    (d : Disk) (p : Place) :
    (d.mapNodes f).node? p = (d.node? p).map f := by
  rw [node?, node?]
  split
  · rw [Option.map_some, hf]
  · exact lookup_mapNodes f d.nodes p

theorem node?_erase (log : Option Nat) (d : Disk) (p : Place) :
    (d.erase log).node? p = (d.node? p).map (Node.erase log) :=
  node?_mapNodes rfl d p

theorem node?_append (number : Nat) (more : ByteArray) (d : Disk) (p : Place) :
    (d.append number more).node? p = (d.node? p).map (Node.append number more) :=
  node?_mapNodes rfl d p

theorem filter_mapNodes (f : Node → Node) (nodes : List (Place × Node))
    (p : Place) :
    (nodes.filter (·.1 ≠ p)).map (fun x => (x.1, f x.2)) =
      (nodes.map fun x => (x.1, f x.2)).filter (·.1 ≠ p) := by
  rw [List.filter_map]
  rfl

theorem put_erase (log : Option Nat) (d : Disk) (p : Place) (node : Node) :
    (d.put p node).erase log = (d.erase log).put p (node.erase log) := by
  simp only [erase, mapNodes, put, List.map_cons, filter_mapNodes]

theorem clear_erase (log : Option Nat) (d : Disk) (p : Place) :
    (d.clear p).erase log = (d.erase log).clear p := by
  simp only [erase, mapNodes, clear, filter_mapNodes]

theorem mapNodes_eq_self {f : Node → Node} (hf : ∀ node, f node = node)
    (d : Disk) : d.mapNodes f = d := by
  have hid : (fun x : Place × Node => (x.1, f x.2)) = id :=
    funext fun x => by rw [hf x.2]; rfl
  rw [mapNodes, hid, List.map_id]

theorem erase_none (d : Disk) : d.erase none = d :=
  mapNodes_eq_self (fun node => by cases node <;> rfl) d

/-- What is appended to the file is erased with it. -/
theorem erase_append (number : Nat) (more : ByteArray) (d : Disk) :
    (d.append number more).erase (some number) = d.erase (some number) := by
  have hnode (node : Node) : (node.append number more).erase (some number) =
      node.erase (some number) := by
    cases node with
    | directory => rfl
    | file n data =>
      simp only [Node.append, Node.erase, Option.some.injEq]
      split
      · rfl
      · rename_i hne
        rw [if_neg (Ne.symm hne)]
  simp only [erase, append, mapNodes, List.map_map, Function.comp_def, hnode]

/-- The number of a file stays when nodes are changed so, and its content if it
is another file. -/
theorem file?_erase (log : Option Nat) (d : Disk) (p : Place) :
    (d.erase log).file? p = (d.file? p).map fun f =>
      (f.1, if log = some f.1 then .empty else f.2) := by
  rw [file?, file?, node?_erase]
  cases d.node? p with
  | none => rfl
  | some node => cases node <;> rfl

theorem file?_append (number : Nat) (more : ByteArray) (d : Disk) (p : Place) :
    (d.append number more).file? p = (d.file? p).map fun f =>
      (f.1, if f.1 = number then f.2 ++ more else f.2) := by
  rw [file?, file?, node?_append]
  cases d.node? p with
  | none => rfl
  | some node => cases node <;> rfl

/-! ## Following paths -/

theorem enter_erase (log : Option Nat) (d : Disk) :
    (d.erase log).enter = d.enter := by
  funext place name
  rw [enter, enter, node?_erase]
  cases d.node? (place ++ [name]) with
  | none => rfl
  | some node => cases node <;> rfl

@[simp] theorem follow_erase (log : Option Nat) (d : Disk) (path : String) :
    (d.erase log).follow path = d.follow path := by
  rw [follow, follow, enter_erase]

theorem look_erase (log : Option Nat) (d : Disk) (place : Place)
    (name : String) :
    (d.erase log).look place name =
      (d.look place name).map (Option.map (Node.erase log)) := by
  rw [look, look, node?_erase]
  split <;> rfl

theorem find_erase (log : Option Nat) (d : Disk) (path : String) :
    (d.erase log).find path = (d.find path).map (Node.erase log) := by
  rw [find, find, follow_erase]
  cases d.follow path with
  | error err => rfl
  | ok r =>
    cases r with
    | «at» p => rfl
    | named p name slash =>
      simp only [bind, Except.bind, look_erase]
      cases d.look p name with
      | error err => rfl
      | ok node =>
        rcases node with _ | node
        · rfl
        · cases node <;> cases slash <;> rfl

/-! ## Operations -/

/-- The answer of an operation with the file emptied on the disk behind it. -/
def erasing {α : Type} (log : Option Nat) (x : α × Disk) : α × Disk :=
  (x.1, x.2.erase log)

theorem makeDirectory_erase (log : Option Nat) (d : Disk) (path : String) :
    (d.erase log).makeDirectory path =
      (d.makeDirectory path).map (erase log) := by
  rw [makeDirectory, makeDirectory, follow_erase]
  cases d.follow path with
  | error err => rfl
  | ok r =>
    cases r with
    | «at» p => rfl
    | named p name slash =>
      simp only [bind, Except.bind, look_erase]
      cases d.look p name with
      | error err => rfl
      | ok node =>
        cases node with
        | some node => rfl
        | none =>
          simp only [Except.map, Option.map_none, pure, Except.pure, put_erase]
          rfl

theorem openFile_erase (log : Option Nat) (d : Disk) (path : String) :
    (d.erase log).openFile path = (d.openFile path).map fun (p, n, x, e) =>
      (p, n, if log = some n then .empty else x, e.erase log) := by
  rw [openFile, openFile, follow_erase]
  cases d.follow path with
  | error err => rfl
  | ok r =>
    cases r with
    | «at» p => rfl
    | named p name slash =>
      cases slash with
      | true => rfl
      | false =>
        simp only [bind, Except.bind, look_erase]
        cases d.look p name with
        | error err => rfl
        | ok node =>
          rcases node with _ | node
          · simp only [Except.map, Option.map_none, pure, Except.pure,
              Bool.false_eq_true, if_false, put_erase, Node.erase, ite_self]
            rfl
          · cases node <;> rfl

/-- A file other than the emptied one is filled. -/
theorem fill_erase (h : ∀ p n x e, d.openFile path = .ok (p, n, x, e) →
      log ≠ some n) (data : ByteArray) :
    (d.erase log).fill path data = (d.fill path data).map (erase log) := by
  rw [fill, fill, openFile_erase]
  cases hopen : d.openFile path with
  | error err => rfl
  | ok r =>
    obtain ⟨p, n, x, e⟩ := r
    simp only [Except.map, bind, Except.bind, pure, Except.pure, put_erase,
      Node.erase, if_neg (h p n x e hopen)]

/-- A file other than the emptied one is read. -/
theorem readText_erase (h : ∀ n x, d.find path = .ok (.file n x) →
      log ≠ some n) : (d.erase log).readText path = d.readText path := by
  rw [readText, readText, find_erase]
  cases hfind : d.find path with
  | error err => rfl
  | ok node =>
    cases node with
    | directory => rfl
    | file n x =>
      simp only [Except.map, bind, Except.bind, Node.erase, if_neg (h n x hfind)]

theorem rename_erase (log : Option Nat) (d : Disk) (source target : String) :
    (d.erase log).rename source target =
      (d.rename source target).map (erase log) := by
  rw [rename, rename, follow_erase, follow_erase]
  cases d.follow source with
  | error err => rfl
  | ok r =>
    simp only [bind, Except.bind]
    cases d.follow target with
    | error err => rfl
    | ok q =>
      cases r with
      | «at» p => rfl
      | named p name slash =>
        cases q with
        | «at» p => rfl
        | named newPlace newName newSlash =>
          simp only [look_erase]
          cases d.look p name with
          | error err => rfl
          | ok node =>
            rcases node with _ | node
            · rfl
            · cases node with
              | directory => rfl
              | file n x =>
                simp only [Except.map, Option.map_some, Node.erase]
                cases d.look newPlace newName with
                | error err => rfl
                | ok other =>
                  cases newSlash with
                  | true => rfl
                  | false =>
                    rcases other with _ | other
                    · simp only [pure, Except.pure, Option.map_none, put_erase,
                        clear_erase, Node.erase]
                    · cases other with
                      | directory => rfl
                      | file m y =>
                        simp only [pure, Except.pure, Option.map_some,
                          put_erase, clear_erase, Node.erase]

theorem remove_erase (log : Option Nat) (d : Disk) (path : String) :
    (d.erase log).remove path = (d.remove path).map (erase log) := by
  rw [remove, remove, follow_erase]
  cases d.follow path with
  | error err => rfl
  | ok r =>
    cases r with
    | «at» p => rfl
    | named p name slash =>
      simp only [bind, Except.bind, look_erase]
      cases d.look p name with
      | error err => rfl
      | ok node =>
        rcases node with _ | node
        · rfl
        · cases node with
          | directory => rfl
          | file n x =>
            simp only [Except.map, Option.map_some, Node.erase, pure,
              Except.pure, clear_erase]

theorem lock_erase (log : Option Nat) (d : Disk) (path : String) :
    (d.erase log).lock path = (d.lock path).map (erasing log) := by
  rw [lock, lock, openFile_erase]
  cases d.openFile path with
  | error err => rfl
  | ok r =>
    obtain ⟨p, n, x, e⟩ := r
    simp only [Except.map, bind, Except.bind]
    have hlocked : (e.erase log).locked = e.locked := rfl
    rw [hlocked]
    split <;> rfl

/-! ## Databases apart from the file -/

/-- The file of this number is neither the database nor the temporary file
beside it, and no file that is made later will be it. -/
structure Apart (number : Nat) (path : String) (d : Disk) : Prop where
  next : number < d.nextNumber
  database : ∀ p, place? path = some p → ∀ f, d.file? p = some f → f.1 ≠ number
  temporary : ∀ f, d.file? (temporaryPlace path) = some f → f.1 ≠ number

namespace Apart

/-- A file that was not touched has the number that it had, and one that was
made has a later one. -/
theorem ne_of_keeps {made written : List Place} (h : Apart number path d)
    (hkeeps : Keeps made written d e) {p : Place} (hp : p ∉ written)
    (hold : ∀ f, d.file? p = some f → f.1 ≠ number) :
    ∀ f, e.file? p = some f → f.1 ≠ number := by
  intro f hf
  cases hd : d.file? p with
  | some g =>
    obtain rfl := Option.some.inj ((hkeeps.file p hp g hd).symm.trans hf)
    exact hold g hd
  | none =>
    have hfresh := hkeeps.fresh p hp f hd hf
    have hnext := h.next
    omega

theorem of_keeps {made : List Place} (h : Apart number path d)
    (hkeeps : Keeps made [] d e) : Apart number path e where
  next := Nat.lt_of_lt_of_le h.next hkeeps.next
  database p hp := h.ne_of_keeps hkeeps List.not_mem_nil (h.database p hp)
  temporary := h.ne_of_keeps hkeeps List.not_mem_nil h.temporary

/-- The temporary file that is opened is another one. -/
theorem ne_of_openFile (h : Apart number path d) {p : Place} {n : Nat}
    {x : ByteArray}
    (hopen : d.openFile (temporaryOf path) = .ok (p, n, x, e)) :
    n ≠ number := by
  have hopened := opened_of_openFile hopen
  obtain rfl :=
    Option.some.inj ((place?_temporaryOf path).symm.trans hopened.place?_eq)
  exact (h.of_keeps hopened.keeps).temporary _ hopened.file

theorem of_fill (h : Apart number path d)
    (hfill : d.fill (temporaryOf path) data = .ok e) : Apart number path e := by
  obtain ⟨⟨p, n, x, f⟩, hopen, hf⟩ := bind_eq_ok hfill
  obtain rfl := Except.ok.inj hf
  have hopened := opened_of_openFile hopen
  obtain rfl :=
    Option.some.inj ((place?_temporaryOf path).symm.trans hopened.place?_eq)
  have hmade := h.of_keeps hopened.keeps
  have hplace := ne_nil_of_place? (place?_temporaryOf path)
  refine ⟨hmade.next, fun q hq g hg => ?_, fun g hg => ?_⟩
  · rw [file?_put_file f hplace, if_neg] at hg
    · exact hmade.database q hq g hg
    · rintro rfl
      exact place?_ne_temporaryPlace path hq
  · rw [file?_put_file f hplace, if_pos rfl] at hg
    rw [← Option.some.inj hg]
    exact h.ne_of_openFile hopen

theorem of_rename (h : Apart number path d)
    (hrename : d.rename (temporaryOf path) path = .ok e) :
    Apart number path e := by
  obtain ⟨n, x, hfile⟩ : ∃ n x, d.file? (temporaryPlace path) = some (n, x) := by
    obtain ⟨r, hfollow, hrest⟩ := bind_eq_ok hrename
    obtain ⟨q, -, hrest⟩ := bind_eq_ok hrest
    obtain ⟨-, rfl⟩ := follow_of_place? (place?_temporaryOf path) hfollow
    cases q with
    | «at» p => cases hrest
    | named p name slash =>
      obtain ⟨node, hlook, hrest⟩ := bind_eq_ok hrest
      have hnode := (look_eq_ok hlook).2
      rw [← (isName_of_place? (place?_temporaryOf path)).2] at hnode
      rcases node with _ | node
      · cases hrest
      · cases node with
        | directory => cases hrest
        | file n x => exact ⟨n, x, file?_eq_some_iff.2 hnode⟩
  obtain ⟨there, hmoved⟩ :=
    moved_of_rename (place?_temporaryOf path) hfile hrename
  have hplace := ne_nil_of_place? (place?_temporaryOf path)
  have hthere := hmoved.there_ne_nil
  have hne : temporaryPlace path ≠ there := by
    rintro rfl
    exact place?_ne_temporaryPlace path hmoved.names.place?_eq
  refine ⟨?_, fun p hp f hf => ?_, fun f hf => ?_⟩
  · rw [hmoved.moved]
    exact h.next
  · obtain rfl := Option.some.inj (hmoved.names.place?_eq.symm.trans hp)
    obtain rfl := Option.some.inj (hmoved.file?_eq.symm.trans hf)
    exact h.temporary _ hfile
  · rw [file?, hmoved.node?_eq hplace hne] at hf
    cases hf

theorem of_remove (h : Apart number path d)
    (hremove : d.remove (temporaryOf path) = .ok e) : Apart number path e := by
  have hkeeps := keeps_remove (place?_temporaryOf path) hremove
  refine ⟨Nat.lt_of_lt_of_le h.next hkeeps.next, fun p hp => ?_, fun f hf => ?_⟩
  · refine h.ne_of_keeps hkeeps ?_ (h.database p hp)
    rw [List.mem_singleton]
    rintro rfl
    exact place?_ne_temporaryPlace path hp
  · cases hd : d.file? (temporaryPlace path) with
    | none =>
      rw [hkeeps.absent _ List.not_mem_nil hd] at hf
      cases hf
    | some g =>
      obtain ⟨r, hfollow, hrest⟩ := bind_eq_ok hremove
      obtain ⟨-, rfl⟩ := follow_of_place? (place?_temporaryOf path) hfollow
      obtain ⟨node, hlook, hrest⟩ := bind_eq_ok hrest
      have hnode := (look_eq_ok hlook).2
      rw [← (isName_of_place? (place?_temporaryOf path)).2,
        file?_eq_some_iff.1 hd] at hnode
      obtain rfl := hnode
      obtain rfl := Except.ok.inj hrest
      rw [← (isName_of_place? (place?_temporaryOf path)).2,
        file?_clear d (ne_nil_of_place? (place?_temporaryOf path)),
        if_pos rfl] at hf
      cases hf

theorem of_lock (h : Apart number path d) {answer : Option LockNumber}
    {other : String} (hlock : d.lock other = .ok (answer, e)) :
    Apart number path e := by
  obtain ⟨p, n, x, f, hopened, hcases⟩ := lock_cases hlock
  have hmade := h.of_keeps hopened.keeps
  rcases hcases with ⟨-, -, rfl⟩ | ⟨-, -, rfl⟩
  · exact hmade
  · exact ⟨hmade.next, hmade.database, hmade.temporary⟩

theorem append (h : Apart number path d) (n : Nat) (more : ByteArray) :
    Apart number path (d.append n more) := by
  refine ⟨h.next, fun p hp f hf => ?_, fun f hf => ?_⟩
  · rw [file?_append] at hf
    obtain ⟨g, hg, rfl⟩ := Option.map_eq_some_iff.1 hf
    exact h.database p hp g hg
  · rw [file?_append] at hf
    obtain ⟨g, hg, rfl⟩ := Option.map_eq_some_iff.1 hf
    exact h.temporary g hg

/-- The database does not show that the file was emptied. -/
theorem content?_erase (h : Apart number path d) :
    (d.erase (some number)).content? path = d.content? path := by
  rw [content?, content?]
  cases hplace : place? path with
  | none => rfl
  | some p =>
    rw [Option.bind_some, Option.bind_some, file?_erase]
    cases hf : d.file? p with
    | none => rfl
    | some f =>
      have hne : ¬ some number = some f.1 := fun heq =>
        h.database p hplace f hf (Option.some.inj heq).symm
      rw [Option.map_some, Option.map_some, Option.map_some, if_neg hne]

end Apart

/-- Whether the lock of a database can be taken does not depend on what is in
the files. -/
theorem isAvailable_of_erase (h : IsAvailable path number (d.erase log)) :
    IsAvailable path number d where
  reaches := by
    obtain ⟨taken, size, leads⟩ := h.reaches
    refine ⟨taken, size, leads.imp fun p hp => ?_⟩
    rwa [enter_erase] at hp
  file := by
    obtain ⟨data, hfile⟩ := h.file
    rw [file?_erase] at hfile
    obtain ⟨f, hf, heq⟩ := Option.map_eq_some_iff.1 hfile
    exact ⟨f.2, by rw [hf, ← (Prod.mk.inj heq).1]⟩
  free := h.free

end Disk

end SettingsArchive
