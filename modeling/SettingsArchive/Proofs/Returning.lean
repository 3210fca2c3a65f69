import SettingsArchive.Proofs.Restoring
import SettingsArchive.Proofs.Stored

/-!
# Going back to a write

Storing the text of a snapshot takes one number, and the settings under this
number are those of the text: `Archive.Stores` says so of the archive behind it
(`stores_of_storeSnapshot`).  The location keeps them whatever comes, so that a
rollback to the number finds them, each with its value, and no others
(`resolved_revision_iff`).  `returned_of_run` is what such a rollback does.
-/

namespace SettingsArchive.Archive

open Directory

variable {a b c : Archive} {id backend : String} {n : Nat}

/-! ## Storing a document -/

/-- A document that was stored with a number wrote its settings under it. -/
theorem of_storeDocument {items : List (String × Value)} {time : Instant}
    {mask : Mask} {report : StoreReport}
    (h : a.storeDocument id backend items time mask = (.ok report, b))
    (hn : report.revision = some n) :
    Location.isValidBackend backend ∧ (items.map Prod.fst).Nodup ∧
      (∀ item ∈ items, Path.backendOf item.1 = .ok backend) ∧
      n = a.nextRevision ∧ ∃ l m placed, findLocation? a.locations id = some l ∧
        m.id = l.id ∧ List.Forall₂ Names items placed ∧
        Written time n mask placed l.tree m.tree ∧
        b = (a.counted.put m).changed := by
  obtain ⟨l, number, c, placed, tree, hp, hnames, hw, rfl, rfl⟩ :=
    prepared_of_storeDocument h
  obtain ⟨hvalid, hl, hitems, hcount⟩ := of_prepareDocument hp
  obtain ⟨hdistinct, hall⟩ := of_checkItems hitems
  obtain rfl : number = some n := hn
  rcases hcount with ⟨-, hnone, -⟩ | ⟨-, hnumber, -, rfl⟩
  · cases hnone
  · refine ⟨hvalid, hdistinct, fun item hi => (hall item hi).2.1,
      Option.some.inj hnumber, l, Location.ensureBackend { l with tree } backend,
      placed, hl, ?_, hnames, ?_, rfl⟩
    · rw [Location.id_ensureBackend]
    · rw [Location.tree_ensureBackend]
      exact hw

/-- A location has these settings under a number, and no others, and each of them
is named in a document. -/
structure Stores (a : Archive) (id backend : String) (n : Nat)
    (items : List (String × Value)) (placed : List (Path × Value)) : Prop where
  valid : Location.isValidBackend backend
  names : List.Forall₂ Names items placed
  texts : placed.map (fun x => Path.text x.1) = items.map Prod.fst
  distinct : (placed.map Prod.fst).Nodup
  below : ∀ x ∈ placed, x.1.IsBelow (some backend)
  counted : n < a.nextRevision
  stored : ∃ l ∈ a.locations, l.id = id ∧
    ∀ path value, l.tree.Stored n path value ↔ (path, value) ∈ placed

/-- Anchored texts are those of the paths that they name. -/
theorem texts_of_names {items : List (String × Value)}
    {placed : List (Path × Value)} (h : List.Forall₂ Names items placed)
    (ha : ∀ item ∈ items, Path.IsAnchored item.1) :
    placed.map (fun x => Path.text x.1) = items.map Prod.fst := by
  induction h with
  | nil => rfl
  | cons hname _ ih =>
    obtain ⟨hfirst, hrest⟩ := List.forall_mem_cons.1 ha
    rw [List.map_cons, List.map_cons, ih hrest,
      Path.text_of_ofText? hfirst hname.1]

/-- A text that is stored with a number is a document, and its settings are
those that the location has under the number. -/
theorem stores_of_storeSnapshot (ha : a.IsNumbered) {text : String}
    {time : Instant} {mask : Mask} {report : StoreReport}
    (h : a.storeSnapshot id backend text time mask = (.ok report, b))
    (hn : report.revision = some n) :
    ∃ root items placed, Xml.Element.read text = .ok root ∧
      Snapshot.ofElement root backend = .ok items ∧
      b.Stores id backend n items placed := by
  obtain ⟨root, items, hroot, hitems, h⟩ := of_storeSnapshot h
  have hanchored := Snapshot.isAnchored_of_ofElement hitems
  obtain ⟨hvalid, hdistinct, hbackend, rfl, l, m, placed, hl, hid, hnames, hw,
    rfl⟩ := of_storeDocument h hn
  obtain ⟨hmem, rfl⟩ := mem_of_findLocation? hl
  refine ⟨root, items, placed, hroot, hitems, hvalid, hnames,
    texts_of_names hnames hanchored,
    nodup_of_names hnames (Snapshot.spelledOnce_of_ofElement hitems) hdistinct,
    isBelow_of_names hnames hbackend, Nat.lt_succ_self _,
    m, List.mem_map.2 ⟨l, hmem, if_pos hid.symm⟩, hid, ?_⟩
  intro path value
  rw [hw.stored_iff]
  constructor
  · rintro (⟨e, he, r, hr, hrid, -⟩ | ⟨-, hmem⟩)
    · have := ha.below l hmem path e he r hr
      omega
    · exact hmem
  · exact fun hmem => Or.inr ⟨rfl, hmem⟩

/-! ## Behind other operations -/

section Stores

variable {items : List (String × Value)} {placed : List (Path × Value)}
  {saved : Bool}

/-- The settings that were written, in the form in which they were saved. -/
def savedIf (saved : Bool) (placed : List (Path × Value)) :
    List (Path × Value) :=
  placed.map fun x => (x.1, x.2.ifSaved saved)

theorem map_fst_savedIf (saved : Bool) (placed : List (Path × Value)) :
    (savedIf saved placed).map Prod.fst = placed.map Prod.fst := by
  rw [savedIf, List.map_map]
  rfl

/-- A location that keeps what it stores still has the settings of the document
under the number. -/
theorem Stores.exists_location (h : b.Stores id backend n items placed)
    (hkeeps : Keeps id saved b c) (hc : c.WellFormed) :
    ∃ l, c.location id = .ok l ∧ ∀ path value,
      l.tree.Stored n path value ↔ (path, value) ∈ savedIf saved placed := by
  obtain ⟨m, hm, hid, hstored⟩ := h.stored
  obtain ⟨l, hl, rfl, htree⟩ := hkeeps.location m hm hid
  refine ⟨l, location_eq_ok_iff.2 (findLocation?_of_mem hc.ids hl), ?_⟩
  intro path value
  rw [htree n h.counted, savedIf, List.mem_map]
  constructor
  · rintro ⟨v, hv, rfl⟩
    exact ⟨(path, v), (hstored path v).1 hv, rfl⟩
  · rintro ⟨⟨p, v⟩, hmem, heq⟩
    obtain ⟨rfl, rfl⟩ := Prod.mk.inj heq
    exact ⟨v, (hstored p v).2 hmem, rfl⟩

end Stores

/-! ## Going back -/

/-- Where the revisions of a number agree, the one that the number means has
their value. -/
theorem map_written?_eq_some_iff {e : Entry} {value : Value}
    (hagree : ∀ r ∈ e.revisions, ∀ s ∈ e.revisions, r.id = n → s.id = n →
      r.value = s.value) :
    (e.written? n).map Revision.value = some value ↔
      ∃ r ∈ e.revisions, r.id = n ∧ r.value = value := by
  rw [Option.map_eq_some_iff]
  constructor
  · rintro ⟨r, hr, hvalue⟩
    have hid : r.id = n := by simpa using List.find?_some hr
    exact ⟨r, List.mem_of_find?_eq_some hr, hid, hvalue⟩
  · rintro ⟨r, hr, hid, rfl⟩
    have hfound : (e.written? n).isSome :=
      List.find?_isSome.2 ⟨r, hr, beq_iff_eq.2 hid⟩
    obtain ⟨s, hs⟩ := Option.isSome_iff_exists.1 hfound
    have hsid : s.id = n := by simpa using List.find?_some hs
    exact ⟨s, hs, hagree s (List.mem_of_find?_eq_some hs) r hr hsid hid⟩

/-- Where a number stands for one value at a path, the path goes back to it. -/
theorem resolved_revision_iff {l : Location} (hk : l.tree.HasKinds)
    {path : Path} (hone : ∀ v w, l.tree.Stored n path v →
      l.tree.Stored n path w → v = w) {value : Value} :
    Resolved (.revision n) [l] (path, value) ↔ l.tree.Stored n path value := by
  rw [resolved_iff]
  cases he : l.tree.get? path with
  | none =>
    have hnil : entriesAt [l] path = [] := by
      rw [entriesAt, List.filterMap_cons, he]
      rfl
    rw [hnil, resolveChain_nil]
    constructor
    · rintro ⟨hnone, -⟩
      cases hnone
    · intro hstored
      exact absurd hstored (not_stored_of_get? he)
  | some e =>
    have hchain : (Target.revision n).resolveChain (entriesAt [l] path) =
        e.written? n := by
      rw [entriesAt, List.filterMap_cons, he]
      simp [Target.resolveChain, Target.resolve]
    have hagree : ∀ r ∈ e.revisions, ∀ s ∈ e.revisions, r.id = n → s.id = n →
        r.value = s.value := fun r hr s hs hrid hsid =>
      hone r.value s.value ⟨e, he, r, hr, hrid, rfl⟩ ⟨e, he, s, hs, hsid, rfl⟩
    rw [hchain, map_written?_eq_some_iff hagree, stored_of_get? he]
    refine and_iff_left_of_imp ?_
    -- The value is in the history of the setting, so it has the kind of it.
    rintro ⟨r, hr, -, rfl⟩ own hown
    obtain rfl : e = own := Option.some.inj (he.symm.trans hown)
    have hrecorded : (r.time, r.value) ∈ l.tree.recorded path :=
      mem_recorded_iff.2 ⟨e, he, r, hr, rfl⟩
    exact (hk.kind_eq he hrecorded).symm

/-- What a rollback of a backend to the number of a document does to a location,
which was `l` before and is `m` behind it.  The settings of the document go
back, each to its value as it is behind saving, if the archive was saved, and
all others below the backend are skipped. -/
structure Returned (items : List (String × Value)) (backend : String)
    (saved : Bool) (l m : Location) (report : RollbackReport) : Prop where
  applied : report.applied.Perm (items.map Prod.fst)
  current : ∀ item ∈ items,
    ∃ e, m.lookup item.1 = some e ∧ e.current = item.2.ifSaved saved
  distinct : (report.applied ++ report.skipped).Nodup
  skipped : ∀ t, t ∈ report.skipped ↔ t ∉ items.map Prod.fst ∧
    ∃ path, t = path.text ∧ path.IsBelow (some backend) ∧
      ∃ e, l.tree.get? path = some e
  others : ∀ path, path.text ∉ items.map Prod.fst →
    m.tree.get? path = l.tree.get? path

section RolledBack

variable {d : Archive} {items : List (String × Value)}
  {placed : List (Path × Value)} {saved : Bool} {report : RollbackReport}
  {plan : RollbackPlan} {l m : Location}
  (hc : c.WellFormed) (hk : c.HasKinds)
  (hstores : b.Stores id backend n items placed) (hkeeps : Keeps id saved b c)
  (h : RolledBack c d id ⟨.revision n, some backend, false⟩ report plan l m [])

include hc hk hstores hkeeps h

/-- The settings that go back are those of the document. -/
theorem RolledBack.resolved_perm : plan.resolved.Perm (savedIf saved placed) := by
  have hs := hc.trees
  obtain ⟨hl, hmem⟩ := location_of_scopes h.before
  obtain ⟨own, hown, hstored⟩ := hstores.exists_location hkeeps hc
  obtain rfl : l = own := Except.ok.inj (hl.symm.trans hown)
  have hdistinct : ((savedIf saved placed).map Prod.fst).Nodup := by
    rw [map_fst_savedIf]
    exact hstores.distinct
  have hone (path : Path) (v w : Value) (hv : l.tree.Stored n path v)
      (hw : l.tree.Stored n path w) : v = w := by
    have heq := List.inj_on_of_nodup_map hdistinct ((hstored path v).1 hv)
      ((hstored path w).1 hw) rfl
    exact congrArg Prod.snd heq
  obtain ⟨-, hn⟩ := paths_of_plan hs h.planned
  refine (List.perm_ext_iff_of_nodup hn.of_map hdistinct.of_map).2 ?_
  rintro ⟨path, value⟩
  rw [Archive.mem_resolved_iff hs h.planned h.before, ← hstored path value,
    resolved_revision_iff (hk l hmem) (hone path)]
  -- What was stored is there, below the backend.
  refine and_iff_right_of_imp fun hv => ?_
  have hpath : path ∈ placed.map Prod.fst := by
    rw [← map_fst_savedIf saved placed]
    exact List.mem_map_of_mem ((hstored path value).1 hv)
  obtain ⟨x, hx, rfl⟩ := List.mem_map.1 hpath
  obtain ⟨e, he, -⟩ := hv
  refine (Archive.mem_pathsIn_iff (List.forall_mem_singleton.2 (hs l hmem)) ?_).2
    ⟨?_, hstores.below x hx⟩
  · rintro _ ⟨⟩
    exact hstores.valid
  · exact entriesAt_ne_nil_iff.2 ⟨l, List.mem_singleton_self l, e, he⟩

/-- A rollback to the number of a document brings the document back. -/
theorem RolledBack.returned : Returned items backend saved l m report := by
  have hperm := h.resolved_perm hc hk hstores hkeeps
  have happlied : report.applied.Perm (items.map Prod.fst) := by
    have htexts := (hperm.map Prod.fst).map Path.text
    rw [map_fst_savedIf, List.map_map, List.map_map] at htexts
    rw [h.applied, ← hstores.texts]
    exact htexts
  obtain ⟨hn, hlisted⟩ := h.listed hc
  refine ⟨happlied, ?_, hn, ?_, ?_⟩
  · intro item hitem
    obtain ⟨x, hx, hname, hvalue⟩ :=
      exists_mem_of_forall₂ hstores.names.flip hitem
    have hx : (x.1, x.2.ifSaved saved) ∈ plan.resolved :=
      hperm.mem_iff.2 (List.mem_map_of_mem hx)
    obtain ⟨e, he, hcurrent⟩ := h.written _ hx
    refine ⟨e, ?_, ?_⟩
    · rw [Location.lookup, hname]
      exact he
    · rw [hcurrent, hvalue]
  · intro t
    have hseen := hlisted t
    simp only [List.mem_append, List.mem_singleton, exists_eq_left] at hseen
    constructor
    · intro ht
      refine ⟨fun hitem => ?_, hseen.1 (Or.inr ht)⟩
      exact List.disjoint_of_nodup_append hn (happlied.mem_iff.2 hitem) ht
    · rintro ⟨hnot, hpath⟩
      exact (hseen.2 hpath).resolve_left (mt happlied.mem_iff.1 hnot)
  · intro path hpath
    refine h.others path fun hmem => hpath (happlied.mem_iff.1 ?_)
    rw [h.applied]
    obtain ⟨x, hx, rfl⟩ := List.mem_map.1 hmem
    exact List.mem_map.2 ⟨x, hx, rfl⟩

end RolledBack

/-- Best effort carries a rollback to the number of a document out, unless there
is no number for it. -/
theorem rollback_of_stores {items : List (String × Value)}
    {placed : List (Path × Value)} {saved : Bool} {allowed : Operation → Prop}
    (hc : Reachable allowed c) (hdeep : ∀ l ∈ c.locations, l.tree.IsDeep)
    (hpolicy : c.policy = .bestEffort)
    (hstores : b.Stores id backend n items placed) (hkeeps : Keeps id saved b c)
    {now : Instant} (hnow : ∀ l, c.location id = .ok l →
      ∀ path e, l.tree.get? path = some e → e.head.time ≤ now) :
    let request : RollbackRequest :=
      { target := .revision n, backend := some backend }
    (c.rollback id request now = (.error .counterExhausted, c) ∧
        ¬ c.nextRevision < Numeral.maxWord) ∨
      ∃ report d l m, c.rollback id request now = (.ok report, d) ∧
        c.location id = .ok l ∧ d.location id = .ok m ∧
        Returned items backend saved l m report := by
  intro request
  obtain ⟨l, hl, -⟩ := hstores.exists_location hkeeps hc.wellFormed
  have hscopes : c.scopes id request.recursive = .ok [l] :=
    scopes_of_location hl
  have hbackend : ∀ name, request.backend = some name →
      Location.isValidBackend name := by
    intro name hname
    exact Option.some.inj hname ▸ hstores.valid
  rcases rollback_bestEffort hc.wellFormed hc.isForest hdeep hpolicy hbackend
    hscopes (hnow l hl) with hexhausted | ⟨report, d, plan, m, hd, hrolled⟩
  · exact Or.inl hexhausted
  · exact Or.inr ⟨report, d, l, m, hd, hl, (location_of_scopes hrolled.after).1,
      hrolled.returned hc.wellFormed hc.hasKinds hstores hkeeps⟩

/-! ## Any run -/

/-- A rollback to the number under which a document was stored brings the
settings of the document back, and no others, whatever was done in between
without taking settings from the location.  Only when all numbers are used up,
which takes as many operations, it is refused. -/
theorem returned_of_run (earlier later : List Operation) {text : String}
    {time now : Instant} {mask : Mask} {report : StoreReport}
    (hstore : (fresh.run earlier).storeSnapshot id backend text time mask =
      (.ok report, b))
    (hn : report.revision = some n)
    (hlater : ∀ op ∈ later, ¬ op.Loses id)
    (hnow : ∀ l, (b.run later).location id = .ok l →
      ∀ path e, l.tree.get? path = some e → e.head.time ≤ now) :
    let c := { b.run later with policy := .bestEffort }
    let request : RollbackRequest :=
      { target := .revision n, backend := some backend }
    ∃ root items, Xml.Element.read text = .ok root ∧
      Snapshot.ofElement root backend = .ok items ∧
      ((c.rollback id request now = (.error .counterExhausted, c) ∧
          Numeral.maxWord ≤ earlier.length + later.length + 2) ∨
        ∃ saved report d l m, (saved = true → .reload ∈ later) ∧
          c.rollback id request now = (.ok report, d) ∧
          c.location id = .ok l ∧ d.location id = .ok m ∧
          Returned items backend saved l m report) := by
  intro c request
  have hb : b = fresh.run (earlier ++
      [.storeSnapshot id backend text time mask]) := by
    rw [run_append]
    exact (congrArg Prod.snd hstore).symm
  have hc : c = b.run (later ++ [.setPolicy .bestEffort]) := by
    rw [run_append]
    rfl
  have hrun : fresh.run (earlier ++
      [.storeSnapshot id backend text time mask] ++ later) = b.run later := by
    rw [run_append, ← hb]
  have hreach : Reachable (fun _ => True) b := hb ▸ reachable_run .fresh _
  have hreach' : Reachable (fun _ => True) c := by
    rw [hc, hb, ← run_append]
    exact reachable_run .fresh _
  have hdeep : ∀ l ∈ c.locations, l.tree.IsDeep := by
    rw [hc, hb, ← run_append]
    exact (isProper_run IsStart.fresh.wellFormed isProper_fresh _).2.deep
  obtain ⟨root, items, placed, hroot, hitems, hstores⟩ :=
    stores_of_storeSnapshot (reachable_run .fresh earlier).isNumbered hstore hn
  have hops : ∀ op ∈ later ++ [.setPolicy .bestEffort], ¬ op.Loses id := by
    intro op hop
    rcases List.mem_append.1 hop with hop | hop
    · exact hlater op hop
    · rw [List.mem_singleton.1 hop]
      exact not_false
  obtain ⟨saved, hsaved, hkeeps⟩ :=
    keeps_run hreach.wellFormed hreach.isNumbered hops
  rw [← hc] at hkeeps
  refine ⟨root, items, hroot, hitems, ?_⟩
  rcases rollback_of_stores hreach' hdeep rfl hstores hkeeps hnow with
    ⟨herror, hexhausted⟩ | ⟨report, d, l, m, hrollback, hl, hm, hback⟩
  · have hnumbers : (b.run later).nextRevision ≤ _ :=
      hrun ▸ nextRevision_run_fresh_le (earlier ++
        [Operation.storeSnapshot id backend text time mask] ++ later)
    simp only [List.length_append, List.length_singleton] at hnumbers
    have hcounter : c.nextRevision = (b.run later).nextRevision := rfl
    exact Or.inl ⟨herror, by omega⟩
  · refine Or.inr ⟨saved, report, d, l, m, fun htrue => ?_, hrollback, hl, hm,
      hback⟩
    exact (List.mem_append.1 (hsaved htrue)).resolve_right (by simp)

/-- A document with one setting comes back behind a later value of it, and a
setting that is not in the document is skipped. -/
theorem returned_of_overwritten_document :
    let earlier : List Operation := [
      .storeValue "default" "/app/home" (.int 1) (.ofSecond 5) .keep]
    let later : List Operation := [
      .storeValue "default" "/app/size" (.int 3) (.ofSecond 7) .retire,
      .flush true]
    let text :=
      "<config><entry name=\"size\" type=\"int\">2</entry></config>"
    let b := ((fresh.run earlier).storeSnapshot "default" "app" text
      (.ofSecond 6) .retire).2
    let c := { b.run later with policy := .bestEffort }
    let request : RollbackRequest :=
      { target := .revision 2, backend := some "app" }
    ∃ report d m e, c.rollback "default" request (.ofSecond 9) =
        (.ok report, d) ∧
      report.applied = ["/app/size"] ∧ "/app/home" ∈ report.skipped ∧
      d.location "default" = .ok m ∧ m.lookup "/app/size" = some e ∧
      e.current = .int 2 := by
  intro earlier later text b c request
  obtain ⟨report, hstore, hn⟩ : ∃ report, (fresh.run earlier).storeSnapshot
      "default" "app" text (.ofSecond 6) .retire = (.ok report, b) ∧
      report.revision = some 2 := by
    have hnumber : ((fresh.run earlier).storeSnapshot "default" "app" text
        (.ofSecond 6) .retire).1.toOption.bind (·.revision) = some 2 := by
      decide +kernel
    cases hx : ((fresh.run earlier).storeSnapshot "default" "app" text
        (.ofSecond 6) .retire).1 with
    | error e =>
      rw [hx] at hnumber
      cases hnumber
    | ok report =>
      rw [hx] at hnumber
      exact ⟨report, Prod.ext hx rfl, hnumber⟩
  have hlater : ∀ op ∈ later, ¬ op.Loses "default" := by
    simp [later, Operation.Loses]
  have hreach : Reachable (fun _ => True) (b.run later) :=
    reachable_run .fresh (earlier ++
      [Operation.storeSnapshot "default" "app" text (.ofSecond 6) .retire] ++
      later)
  have hheads : ∀ m ∈ (b.run later).locations, ∀ x ∈ m.tree.allEntries,
      x.2.head.time ≤ .ofSecond 9 := by decide +kernel
  have hnow : ∀ l, (b.run later).location "default" = .ok l → ∀ path e,
      l.tree.get? path = some e → e.head.time ≤ .ofSecond 9 :=
    fun l hl => hreach.wellFormed.of_listed hheads hl
  have hread : (Xml.Element.read text).toOption = some ⟨"config", [],
      [⟨"entry", [("name", "size"), ("type", "int")], [], "2"⟩], ""⟩ := by
    decide +kernel
  obtain ⟨root, items, hroot, hitems, hreturned⟩ :=
    returned_of_run earlier later hstore hn hlater hnow
  rw [hroot] at hread
  obtain rfl := Option.some.inj hread
  obtain rfl : [("/app/size", .int 2)] = items := Except.ok.inj hitems
  rcases hreturned with ⟨-, hexhausted⟩ |
    ⟨saved, report, d, l, m, hsaved, hrollback, hl, hm, hback⟩
  · exact absurd hexhausted (by decide)
  · obtain rfl : saved = false := by
      simpa [later] using hsaved
    obtain ⟨e, he, hcurrent⟩ := hback.current _ List.mem_cons_self
    refine ⟨report, d, m, e, hrollback, List.perm_singleton.1 hback.applied, ?_,
      hm, he, hcurrent⟩
    refine (hback.skipped _).2 ⟨by simp, ["app", "home"], rfl, ?_, ?_⟩
    · rintro _ ⟨⟩
      exact ⟨["home"], List.cons_ne_nil _ _, rfl⟩
    · have hhome : ((c.location "default").toOption.bind
          (·.tree.get? ["app", "home"])).isSome := by decide +kernel
      rw [hl] at hhome
      exact Option.isSome_iff_exists.1 hhome

end SettingsArchive.Archive
