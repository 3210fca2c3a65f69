import SettingsArchive.Proofs.Directory.Equality
import SettingsArchive.Proofs.Recorded

/-!
# What trimming leaves

A trim goes through a history once, from the oldest revision on, and drops
superseded ones until so many are gone that no more are left before the head than
are to be kept.  `Entry.IsTrimmed` says what is left: the history is split
where the kept ones begin, everything that is not superseded stays before the
split, and everything stays behind it.

Trimming twice is trimming once, to the smaller number (`Entry.trim_trim`).

The reads of an archive go by the paths, the heads and the links, which a trim of
a location leaves as they are.  `Archive.trim_of_reachable` has both.
-/

namespace SettingsArchive

/-! ## Histories -/

namespace Entry

/-- The count of the revisions before the head that are superseded. -/
def supersededCount (e : Entry) : Nat :=
  e.past.countP (·.superseded)

/-- A pass over the revisions of an entry.  A superseded one is dropped as long as
`excess` is not used up and `index` has not come to the head. -/
def sweep (head : Nat) : Nat → Nat → List Revision → List Revision
  | _, _, [] => []
  | index, excess, r :: rs =>
    if 0 < excess ∧ index < head ∧ r.superseded then
      sweep head (index + 1) (excess - 1) rs
    else r :: sweep head (index + 1) excess rs

/-- An entry is what is left of another one when at most `kept` superseded
revisions before the head stay, the newest ones, and `count` have gone.  The past
is split into an older part, from which the superseded ones have gone, and a newer
one, in which they have stayed. -/
structure IsTrimmed (kept : Nat) (e left : Entry) (count : Nat) : Prop where
  name : left.name = e.name
  head : left.head = e.head
  past : ∃ older newer, e.past = older ++ newer ∧
    left.past = older.filter (!·.superseded) ++ newer ∧
    newer.countP (·.superseded) = min kept e.supersededCount
  fewer : left.revisions.length + count = e.revisions.length
  gone : count = e.supersededCount - min kept e.supersededCount

section DropSuperseded

variable {rs : List Revision} {count : Nat}

/-- The first superseded revisions are those of an older part. -/
theorem dropSuperseded_split (h : count ≤ rs.countP (·.superseded)) :
    ∃ older newer, rs = older ++ newer ∧
      older.countP (·.superseded) = count ∧
      dropSuperseded count rs = older.filter (!·.superseded) ++ newer := by
  induction rs generalizing count with
  | nil =>
    have hzero : count = 0 := by simpa using h
    exact ⟨[], [], rfl, hzero.symm, by rw [dropSuperseded]; rfl⟩
  | cons r rs ih =>
    cases count with
    | zero => exact ⟨[], r :: rs, rfl, rfl, rfl⟩
    | succ count =>
      cases hr : r.superseded with
      | true =>
        rw [List.countP_cons_of_pos (by exact hr)] at h
        obtain ⟨older, newer, hrs, hcount, hleft⟩ :=
          ih (Nat.le_of_succ_le_succ h)
        refine ⟨r :: older, newer, by rw [hrs]; rfl, ?_, ?_⟩
        · rw [List.countP_cons_of_pos (by exact hr), hcount]
        · simp [dropSuperseded, hr, hleft]
      | false =>
        rw [List.countP_cons_of_neg (by simp [hr])] at h
        obtain ⟨older, newer, hrs, hcount, hleft⟩ := ih h
        refine ⟨r :: older, newer, by rw [hrs]; rfl, ?_, ?_⟩
        · rw [List.countP_cons_of_neg (by simp [hr]), hcount]
        · simp [dropSuperseded, hr, hleft]

@[simp]
theorem dropSuperseded_zero (rs : List Revision) : dropSuperseded 0 rs = rs := by
  cases rs <;> rfl

theorem dropSuperseded_dropSuperseded (first second : Nat)
    (rs : List Revision) :
    dropSuperseded second (dropSuperseded first rs) =
      dropSuperseded (second + first) rs := by
  induction rs generalizing first with
  | nil => simp only [dropSuperseded]
  | cons r rs ih =>
    cases first with
    | zero => simp
    | succ first =>
      cases hr : r.superseded with
      | true =>
        simp only [dropSuperseded, hr, if_true]
        exact ih first
      | false =>
        cases second with
        | zero => simp
        | succ second =>
          simp only [dropSuperseded, hr, Bool.false_eq_true, if_false]
          exact congrArg (r :: ·) (ih (first + 1))

/-- The countdown that stops before the head drops what is superseded before
it. -/
theorem sweep_concat (rs : List Revision) (last : Revision)
    (index excess : Nat) :
    sweep (index + rs.length) index excess (rs ++ [last]) =
      dropSuperseded excess rs ++ [last] := by
  induction rs generalizing index excess with
  | nil => simp [sweep, dropSuperseded]
  | cons r rs ih =>
    have hend : index + (r :: rs).length = index + 1 + rs.length := by
      rw [List.length_cons]
      omega
    rw [List.cons_append, sweep, hend]
    cases excess with
    | zero =>
      rw [if_neg (by omega), ih]
      simp
    | succ excess =>
      cases hr : r.superseded with
      | true =>
        rw [if_pos ⟨Nat.succ_pos _, by omega, rfl⟩]
        simp [dropSuperseded, hr, ih]
      | false => simp [dropSuperseded, hr, ih]

end DropSuperseded

section Trim

variable (e : Entry) (kept : Nat)

/-- A pass that knows how many revisions are to go and where the head is makes the
trimmed history. -/
theorem sweep_revisions :
    sweep (e.revisions.length - 1) 0 (e.excess kept) e.revisions =
      (e.trim kept).revisions := by
  have hhead : e.revisions.length - 1 = 0 + e.past.length := by
    simp [revisions]
  rw [hhead]
  exact sweep_concat e.past e.head 0 (e.excess kept)

theorem isTrimmed_trim : e.IsTrimmed kept (e.trim kept) (e.excess kept) := by
  have hle : e.excess kept ≤ e.supersededCount := Nat.sub_le _ _
  have hexcess : e.excess kept = e.supersededCount - kept := rfl
  obtain ⟨older, newer, hpast, hcount, hleft⟩ := dropSuperseded_split hle
  have hall : e.supersededCount =
      older.countP (·.superseded) + newer.countP (·.superseded) := by
    rw [supersededCount, hpast, List.countP_append]
  refine ⟨rfl, rfl, ⟨older, newer, hpast, hleft, by omega⟩, ?_, by omega⟩
  -- The older part falls into what has gone and what has stayed.
  have holder : older.length = older.countP (·.superseded) +
      (older.filter (!·.superseded)).length := by
    rw [← List.countP_eq_length_filter,
      List.length_eq_countP_add_countP (·.superseded)]
    simp
  show (dropSuperseded (e.excess kept) e.past ++ [e.head]).length + e.excess kept =
    (e.past ++ [e.head]).length
  rw [hleft, hpast]
  simp only [List.length_append, List.length_singleton]
  omega

/-- What is superseded is counted down by a trim. -/
theorem supersededCount_trim :
    (e.trim kept).supersededCount = min kept e.supersededCount := by
  obtain ⟨-, -, ⟨older, newer, -, hleft, hnewer⟩, -, -⟩ := e.isTrimmed_trim kept
  have holder : (older.filter (!·.superseded)).countP (·.superseded) = 0 := by
    rw [List.countP_eq_zero]
    intro r hr
    simpa using (List.mem_filter.1 hr).2
  rw [supersededCount, hleft, List.countP_append, holder, hnewer, Nat.zero_add]

/-- Trimming twice drops as much as trimming once, to the smaller number. -/
theorem excess_add_excess_trim (fewer : Nat) :
    e.excess kept + (e.trim kept).excess fewer = e.excess (min fewer kept) := by
  have htrim := e.supersededCount_trim kept
  show (e.supersededCount - kept) + ((e.trim kept).supersededCount - fewer) =
    e.supersededCount - min fewer kept
  omega

/-- Trimming twice is trimming once, to the smaller number. -/
theorem trim_trim (fewer : Nat) :
    (e.trim kept).trim fewer = e.trim (min fewer kept) := by
  show (⟨e.name, dropSuperseded ((e.trim kept).excess fewer)
      (dropSuperseded (e.excess kept) e.past), e.head⟩ : Entry) =
    ⟨e.name, dropSuperseded (e.excess (min fewer kept)) e.past, e.head⟩
  rw [dropSuperseded_dropSuperseded, Nat.add_comm, excess_add_excess_trim]

theorem trim_eq_self (h : e.excess kept = 0) : e.trim kept = e := by
  show (⟨e.name, dropSuperseded (e.excess kept) e.past, e.head⟩ : Entry) = e
  rw [h, dropSuperseded_zero]

end Trim

end Entry

/-! ## Trees -/

namespace Directory

mutual

/-- The changed entries are listed where they were. -/
theorem entriesBelow_mapEntries {f : Entry → Entry}
    (hf : ∀ e, (f e).name = e.name) (above : Path) (d : Directory) :
    entriesBelow above (d.mapEntries f) =
      (entriesBelow above d).map fun x => (x.1, f x.2) := by
  obtain ⟨name, entries, directories⟩ := d
  rw [mapEntries, entriesBelow, entriesBelow, List.map_append,
    entriesOfAll_mapEntries hf above directories, List.map_map, List.map_map]
  congr 1
  refine List.map_congr_left fun e _ => ?_
  show (above ++ [(f e).name], f e) = (above ++ [e.name], f e)
  rw [hf]

theorem entriesOfAll_mapEntries {f : Entry → Entry}
    (hf : ∀ e, (f e).name = e.name) (above : Path) (ds : List Directory) :
    entriesOfAll above (mapEntriesOfAll f ds) =
      (entriesOfAll above ds).map fun x => (x.1, f x.2) := by
  cases ds with
  | nil => rfl
  | cons d ds =>
    rw [mapEntriesOfAll, entriesOfAll, entriesOfAll, List.map_append,
      name_mapEntries, entriesBelow_mapEntries hf (above ++ [d.name]) d,
      entriesOfAll_mapEntries hf above ds]

end

theorem find?_mapEntries (f : Entry → Entry) (d : Directory) (path : Path) :
    (d.mapEntries f).find? path = (d.find? path).map (mapEntries f) := by
  induction path generalizing d with
  | nil => rfl
  | cons name path ih =>
    have hname : ((·.name == name) ∘ mapEntries f : Directory → Bool) =
        (·.name == name) := by
      funext c
      simp
    rw [find?_cons, find?_cons, child?, child?, directories_mapEntries,
      List.find?_map, hname]
    cases d.directories.find? (·.name == name) with
    | none => rfl
    | some c => exact ih c

theorem allEntries_trim (kept : Nat) (d : Directory) :
    (d.trim kept).allEntries =
      d.allEntries.map fun x => (x.1, x.2.trim kept) := by
  rw [trim_eq_mapEntries]
  exact entriesBelow_mapEntries (f := (·.trim kept)) (fun _ => rfl) [] d

/-- A tree in which nothing is to go is trimmed already. -/
theorem trim_eq_self {kept : Nat} {d : Directory} (h : d.excess kept = 0) :
    d.trim kept = d := by
  rw [excess_eq_sum, List.map_map, List.sum_eq_zero_iff_forall_eq_nat] at h
  rw [trim_eq_mapEntries]
  refine mapEntries_eq_self d fun x (hx : x ∈ entriesBelow [] d) => ?_
  exact x.2.trim_eq_self kept (h _ (List.mem_map_of_mem hx))

/-- The kind of a setting outlives its first revisions. -/
theorem HasKinds.kind_trim {d : Directory} (h : d.HasKinds) {path : Path}
    {e : Entry} (he : d.get? path = some e) (kept : Nat) :
    (e.trim kept).kind = e.kind := by
  obtain ⟨x, hx, hkind⟩ := (e.trim kept).exists_mem_recorded_kind
  rw [← hkind]
  apply h.kind_eq he
  rw [recorded_of_get? he]
  exact ((e.revisions_trim_sublist kept).map _).subset hx

end Directory

/-! ## Archives -/

/-- A location as trimming the location `id` leaves it. -/
def Location.trimmed (id : String) (kept : Nat) (l : Location) : Location :=
  if l.id = id then { l with tree := l.tree.trim kept } else l

namespace Location

variable (id : String) (kept : Nat) (l : Location)

@[simp]
theorem id_trimmed : (l.trimmed id kept).id = l.id := by
  unfold trimmed
  split <;> rfl

@[simp]
theorem parent_trimmed : (l.trimmed id kept).parent = l.parent := by
  unfold trimmed
  split <;> rfl

theorem paths_trimmed (backend : Option String) :
    (l.trimmed id kept).paths backend = l.paths backend := by
  unfold trimmed
  split
  · have hpaths (above : Path) (d : Directory) :
        ((d.trim kept).entriesBelow above).map Prod.fst =
          (d.entriesBelow above).map Prod.fst := by
      rw [Directory.trim_eq_mapEntries,
        Directory.entriesBelow_mapEntries (f := (·.trim kept)) fun _ => rfl,
        List.map_map]
      rfl
    cases backend with
    | none => exact hpaths [] l.tree
    | some backend =>
      simp only [paths]
      split
      · rfl
      · rw [Directory.trim_eq_mapEntries, Directory.find?_mapEntries]
        cases l.tree.find? _ with
        | none => rfl
        | some d =>
          show ((d.mapEntries (·.trim kept)).entriesBelow _).map Prod.fst = _
          rw [← Directory.trim_eq_mapEntries]
          exact hpaths _ d
  · rfl

/-- Every setting has the head that it had. -/
theorem head_trimmed (path : Path) :
    ((l.trimmed id kept).tree.get? path).map Entry.head =
      (l.tree.get? path).map Entry.head := by
  unfold trimmed
  split
  · show ((l.tree.trim kept).get? path).map Entry.head = _
    rw [Directory.get?_trim, Option.map_map]
    rfl
  · rfl

end Location

namespace Archive

variable {a b : Archive}

/-! ### Reads by heads -/

section Reads

variable {g : Location → Location} (hid : ∀ l, (g l).id = l.id)
  (hparent : ∀ l, (g l).parent = l.parent)
  (hhead : ∀ l path, ((g l).tree.get? path).map Entry.head =
    (l.tree.get? path).map Entry.head)
  (hb : b.locations = a.locations.map g)

include hid hb

theorem location_map (x : String) : b.location x = (a.location x).map g := by
  unfold location
  rw [hb, findLocation?_map fun l _ => hid l]
  cases findLocation? a.locations x <;> rfl

include hparent

theorem ancestors_map (x : String) :
    b.ancestors x = (a.ancestors x).map (List.map g) := by
  unfold ancestors
  rw [hb, chain_map (fun l _ => hid l) fun l _ => hparent l]

theorem scopes_eq_map (x : String) (recursive : Bool) :
    b.scopes x recursive = (a.scopes x recursive).map (List.map g) := by
  cases recursive with
  | true => exact ancestors_map hid hparent hb x
  | false =>
    simp only [scopes, location_map hid hb, Bool.false_eq_true, if_false]
    cases a.location x <;> rfl

include hhead

/-- A value is read from the head that is found first. -/
theorem get_map (x path : String) : b.get x path = a.get x path := by
  unfold get history
  cases Path.ofText? path with
  | none => rfl
  | some segments =>
    simp only [ancestors_map hid hparent hb]
    cases a.ancestors x with
    | error e => rfl
    | ok chain =>
      have hvalue (l : Location) :
          ((g l).tree.get? segments).map Entry.current =
            (l.tree.get? segments).map Entry.current := by
        have hl := congrArg (Option.map Revision.value) (hhead l segments)
        rwa [Option.map_map, Option.map_map] at hl
      show Except.ok (Option.map _ ((chain.map g).findSome? _)) =
        Except.ok (Option.map _ (chain.findSome? _))
      rw [List.findSome?_map, List.map_findSome?, List.map_findSome?]
      congr 2
      funext l
      simpa [Function.comp_def] using hvalue l

/-- A snapshot shows the heads at the paths. -/
theorem snapshot_map {backend : Option String}
    (hpaths : ∀ l, (g l).paths backend = l.paths backend)
    (x : String) (recursive : Bool) :
    b.snapshot x backend recursive = a.snapshot x backend recursive := by
  unfold snapshot
  rw [scopes_eq_map hid hparent hb]
  cases a.scopes x recursive with
  | error e => rfl
  | ok scopes =>
    have hscopes : pathsIn (scopes.map g) backend = pathsIn scopes backend := by
      unfold pathsIn
      rw [List.flatMap_map]
      simp only [hpaths]
    have hfirst (path : Path) :
        (entriesAt (scopes.map g) path).head?.map Entry.head =
          (entriesAt scopes path).head?.map Entry.head := by
      unfold entriesAt
      rw [← List.head?_map, ← List.head?_map, List.map_filterMap,
        List.map_filterMap, List.filterMap_map]
      congr 2
      funext l
      exact hhead l path
    have hitem (path : Path) :
        ((entriesAt (scopes.map g) path).head?.map
            fun e => (Path.text path, e.current)) =
          (entriesAt scopes path).head?.map
            fun e => (Path.text path, e.current) := by
      have hitems := congrArg
        (Option.map fun r : Revision => (Path.text path, r.value)) (hfirst path)
      rwa [Option.map_map, Option.map_map] at hitems
    show Except.ok (Snapshot.toElement backend _) =
      Except.ok (Snapshot.toElement backend _)
    rw [hscopes]
    simp only [hitem]

end Reads

/-! ### Trimming a location -/

/-- The archive is what is left of another one when the location `l` is trimmed.
The settings of the location keep their places, heads and kinds.  The other
locations, the links and what belongs to the whole archive are as before. -/
structure IsTrimmed (kept : Nat) (l : Location) (a b : Archive) : Prop where
  there : b.location l.id = .ok { l with tree := l.tree.trim kept }
  entries : (l.tree.trim kept).allEntries =
    l.tree.allEntries.map fun x => (x.1, x.2.trim kept)
  heads : ∀ path, ((l.tree.trim kept).get? path).map (fun e => (e.head, e.kind)) =
    (l.tree.get? path).map fun e => (e.head, e.kind)
  ids : b.locations.map Location.id = a.locations.map Location.id
  others : ∀ x ≠ l.id, b.location x = a.location x
  whole : (b.current, b.masters, b.nextRevision, b.policy) =
    (a.current, a.masters, a.nextRevision, a.policy)

/-- What trimming does where there is a location. -/
theorem trim_eq_ok (ha : a.WellFormed) {id : String} {l : Location}
    (hl : a.location id = .ok l) (kept : Nat) :
    a.trim id kept = .ok (l.tree.excess kept, { a with
      locations := a.locations.map (·.trimmed id kept)
      dirty := a.dirty || decide (0 < l.tree.excess kept) }) := by
  obtain ⟨hmem, rfl⟩ := mem_of_findLocation? (location_eq_ok_iff.1 hl)
  have honly : ∀ m ∈ a.locations, m.id = l.id → m = l :=
    fun m hm heq => List.inj_on_of_nodup_map ha.ids hm hmem heq
  simp only [trim, hl, bind, Except.bind, pure, Except.pure]
  split
  · rename_i hnone
    have hsame : a.locations.map (·.trimmed l.id kept) = a.locations := by
      refine (List.map_congr_left fun m hm => ?_).trans (List.map_id _)
      show m.trimmed l.id kept = m
      unfold Location.trimmed
      split
      · rename_i heq
        rw [honly m hm heq, Directory.trim_eq_self hnone]
      · rfl
    rw [hsame, hnone]
    simp
  · rename_i hsome
    have hput : (a.put { l with tree := l.tree.trim kept }).locations =
        a.locations.map (·.trimmed l.id kept) := by
      refine List.map_congr_left fun m hm => ?_
      show (if m.id = l.id then { l with tree := l.tree.trim kept } else m) =
        m.trimmed l.id kept
      unfold Location.trimmed
      split
      · rename_i heq
        rw [honly m hm heq]
      · rfl
    rw [← hput, decide_eq_true (Nat.pos_of_ne_zero hsome), Bool.or_true]
    rfl

theorem isTrimmed_of_trim (hk : a.HasKinds) {l : Location}
    (hl : a.location l.id = .ok l) {kept : Nat}
    (hb : b.locations = a.locations.map (·.trimmed l.id kept))
    (hwhole : (b.current, b.masters, b.nextRevision, b.policy) =
      (a.current, a.masters, a.nextRevision, a.policy)) :
    IsTrimmed kept l a b where
  there := by
    rw [location_map (fun m => m.id_trimmed l.id kept) hb, hl]
    show Except.ok (l.trimmed l.id kept) = _
    rw [Location.trimmed, if_pos rfl]
  entries := Directory.allEntries_trim kept l.tree
  heads := by
    intro path
    have hmem := (mem_of_findLocation? (location_eq_ok_iff.1 hl)).1
    rw [Directory.get?_trim, Option.map_map]
    refine Option.map_congr fun e he => ?_
    show (e.head, (e.trim kept).kind) = (e.head, e.kind)
    rw [(hk l hmem).kind_trim he]
  ids := by
    rw [hb, List.map_map]
    exact List.map_congr_left fun m _ => m.id_trimmed l.id kept
  others := by
    intro x hx
    rw [location_map (fun m => m.id_trimmed l.id kept) hb]
    cases hm : a.location x with
    | error e => rfl
    | ok m =>
      have hid := (mem_of_findLocation? (location_eq_ok_iff.1 hm)).2
      show Except.ok (m.trimmed l.id kept) = Except.ok m
      rw [Location.trimmed, if_neg (hid.trans_ne hx)]
  whole := hwhole

/-- What trimming leaves.  Of a history it leaves the head, every revision that is
not superseded and the newest of the others, in one pass, and trimming it twice is
trimming it to the smaller number.  A trim of a location of an archive does so with
every setting of the location, and counts what goes.  Nothing that is read from the
archive changes. -/
theorem trim_of_reachable :
    (∀ (e : Entry) (kept : Nat),
      e.IsTrimmed kept (e.trim kept) (e.excess kept) ∧
      Entry.sweep (e.revisions.length - 1) 0 (e.excess kept) e.revisions =
        (e.trim kept).revisions ∧
      ∀ fewer, (e.trim kept).trim fewer = e.trim (min fewer kept) ∧
        e.excess kept + (e.trim kept).excess fewer = e.excess (min fewer kept)) ∧
    ∀ {allowed : Operation → Prop} {a : Archive}, Reachable allowed a →
      ∀ id kept,
        (¬ a.hasLocation id →
          a.trim id kept = .error (.locationNotFound id)) ∧
        ∀ l, a.location id = .ok l → ∃ b,
          a.trim id kept =
            .ok ((l.tree.allEntries.map fun x => x.2.excess kept).sum, b) ∧
          IsTrimmed kept l a b ∧
          (∀ x path, b.get x path = a.get x path) ∧
          ∀ x backend recursive,
            b.snapshot x backend recursive = a.snapshot x backend recursive := by
  constructor
  · intro e kept
    exact ⟨e.isTrimmed_trim kept, e.sweep_revisions kept,
      fun fewer => ⟨e.trim_trim kept fewer, e.excess_add_excess_trim kept fewer⟩⟩
  intro allowed a h id kept
  constructor
  · intro hmissing
    have hnone : findLocation? a.locations id = none := by
      simpa [hasLocation] using hmissing
    simp only [trim, location, hnone, bind, Except.bind]
  · intro l hl
    have hid := (mem_of_findLocation? (location_eq_ok_iff.1 hl)).2
    have hcount : (l.tree.allEntries.map fun x => x.2.excess kept).sum =
        l.tree.excess kept := by
      rw [Directory.excess_eq_sum, List.map_map]
      rfl
    rw [hcount, trim_eq_ok h.wellFormed hl kept]
    subst hid
    refine ⟨_, rfl, isTrimmed_of_trim h.hasKinds hl rfl rfl, ?_, ?_⟩
    · exact get_map (fun m => m.id_trimmed l.id kept)
        (fun m => m.parent_trimmed l.id kept)
        (fun m => m.head_trimmed l.id kept) rfl
    · intro x backend recursive
      exact snapshot_map (fun m => m.id_trimmed l.id kept)
        (fun m => m.parent_trimmed l.id kept)
        (fun m => m.head_trimmed l.id kept) rfl
        (fun m => m.paths_trimmed l.id kept backend) x recursive

/-- A trim drops two of three superseded revisions and passes over the checkpoint
between them. -/
theorem trim_of_checkpoint :
    let path := "/app/size"
    let write (second : Int) (value : Int64) (mask : Mask) : Operation :=
      .storeValue "default" path (.int value) (.ofSecond second) mask
    let a := fresh.run [write 0 10 .retire, write 1 11 .retire,
      write 2 12 .keep, write 3 13 .retire, write 4 14 .retire]
    let shown (b : Archive) : Option (List (Nat × Bool)) :=
      ((b.location "default").toOption.bind (·.lookup path)).map
        (·.revisions.map fun r => (r.id, r.superseded))
    shown a = some [(1, true), (2, false), (3, true), (4, true), (5, false)] ∧
      ∃ b, a.trim "default" 1 = .ok (2, b) ∧
        shown b = some [(2, false), (4, true), (5, false)] ∧
        b.get "default" path = a.get "default" path ∧
        (b.get "default" path).toOption == some (some (.int 14)) := by
  intro path write a shown
  have h : Reachable (fun _ => True) a := reachable_run .fresh _
  obtain ⟨l, hfind⟩ := hasLocation_iff.1
    (show a.hasLocation "default" by decide +kernel)
  obtain ⟨b, hb, -, hget, -⟩ :=
    (trim_of_reachable.2 h "default" 1).2 l (location_eq_ok_iff.2 hfind)
  have hrun : (a.trim "default" 1).toOption.map (fun x => (x.1, shown x.2)) =
      some (2, some [(2, false), (4, true), (5, false)]) := by
    decide +kernel
  rw [hb] at hrun
  obtain ⟨hcount, hshown⟩ := Prod.mk.inj (Option.some.inj hrun)
  have hcount : (l.tree.allEntries.map fun x => x.2.excess 1).sum = 2 := hcount
  refine ⟨by decide +kernel, b, ?_, hshown, hget "default" path, ?_⟩
  · rw [hb, hcount]
  · rw [hget]
    decide +kernel

end Archive

end SettingsArchive
