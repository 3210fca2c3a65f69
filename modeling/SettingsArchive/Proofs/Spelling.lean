import SettingsArchive.Proofs.Batch
import SettingsArchive.Proofs.Isolation
import SettingsArchive.Proofs.Numbering
import SettingsArchive.Proofs.Revisions

/-!
# Two spellings of one path

A document is refused when a text comes twice among those that name its settings.
Settings are found by paths though, and the slash in front of a text may be left
out, so two different texts may name one path and pass the check.  Then the
setting is written twice under one number, or the second value is refused when
the first one is written already.

`documents_of_run` says what holds in general, and that all is well exactly where
the texts of a document spell each path in one way.  `stored_of_two_spellings`
has a document that does not.
-/

namespace SettingsArchive.Archive

open Directory

variable {a b : Archive} {id backend : String} {time : Instant} {mask : Mask}
  {items : List (String × Value)}

/-! ## Items of one path -/

/-- The values for a path are those of the texts that name it. -/
theorem map_filter_of_names {placed : List (Path × Value)} {α : Type}
    (h : List.Forall₂ Names items placed) (path : Path) (f : Value → α) :
    (placed.filter (·.1 = path)).map (fun x => f x.2) =
      (items.filter (Path.ofText? ·.1 = some path)).map fun x => f x.2 := by
  induction h with
  | nil => rfl
  | @cons item x items placed hname _ ih =>
    obtain ⟨hpath, hvalue⟩ := hname
    by_cases hx : x.1 = path
    · simp [hpath, hvalue, hx, ih]
    · simp [hpath, hx, ih]

/-- Different texts spell each path in one way if every path that is named is
named by one of them. -/
theorem spelledOnce_iff (hn : (items.map Prod.fst).Nodup)
    (hnamed : ∀ item ∈ items, ∃ path, Path.ofText? item.1 = some path) :
    Path.SpelledOnce (items.map Prod.fst) ↔
      ∀ item ∈ items, ∀ path, Path.ofText? item.1 = some path →
        items.filter (Path.ofText? ·.1 = some path) = [item] := by
  constructor
  · intro h item hitem path hpath
    have honly : ∀ other, other ∈ items.filter (Path.ofText? ·.1 = some path) ↔
        other ∈ [item] := by
      intro other
      rw [List.mem_filter, decide_eq_true_eq, List.mem_singleton]
      constructor
      · rintro ⟨hother, hsame⟩
        have htext : other.1 = item.1 :=
          h other.1 (List.mem_map_of_mem hother) item.1
            (List.mem_map_of_mem hitem) (by simp [hsame]) (hsame.trans hpath.symm)
        exact List.inj_on_of_nodup_map hn hother hitem htext
      · rintro rfl
        exact ⟨hitem, hpath⟩
    have hperm := (List.perm_ext_iff_of_nodup (hn.of_map.filter _)
      (List.nodup_singleton item)).2 honly
    exact List.perm_singleton.1 hperm
  · intro h s hs t ht hsome hsame
    obtain ⟨item, hitem, rfl⟩ := List.mem_map.1 hs
    obtain ⟨other, hother, rfl⟩ := List.mem_map.1 ht
    obtain ⟨path, hpath⟩ := hnamed item hitem
    have hfirst := h item hitem path hpath
    have hsecond := h other hother path (hsame ▸ hpath)
    rw [hfirst] at hsecond
    rw [List.singleton_inj.1 hsecond]

/-! ## One document -/

/-- A document that is refused has changed nothing, or two of its texts name one
path.  Then it has used up a number. -/
theorem counted_of_storeDocument_error {e : ArchiveError}
    (h : a.storeDocument id backend items time mask = (.error e, b)) :
    b = a ∨ ¬ Path.SpelledOnce (items.map Prod.fst) ∧
      b.nextRevision = a.nextRevision + 1 ∧ b.dirty = a.dirty := by
  by_cases honce : Path.SpelledOnce (items.map Prod.fst)
  · exact Or.inl (storeDocument_of_error honce h)
  · unfold storeDocument at h
    cases hp : a.prepareDocument id backend items time with
    | error f =>
      rw [hp] at h
      exact Or.inl (Prod.mk.inj h).2.symm
    | ok prepared =>
      obtain ⟨l, number, c⟩ := prepared
      obtain ⟨-, -, -, hcount⟩ := of_prepareDocument hp
      rw [hp] at h
      rcases hcount with ⟨rfl, -, rfl⟩ | ⟨-, -, -, rfl⟩
      · cases (Prod.mk.inj h).1
      · cases hr : writeAll l time (number.getD 0) mask items with
        | mk answer m =>
          simp only [hr] at h
          cases answer with
          | error f =>
            obtain rfl := (Prod.mk.inj h).2
            exact Or.inr ⟨honce, rfl, rfl⟩
          | ok => cases (Prod.mk.inj h).1

/-- A document that is stored adds to the history of each path one revision for
each text that names it, and these are all of one number. -/
theorem revisions_of_storeDocument {report : StoreReport}
    (h : a.storeDocument id backend items time mask = (.ok report, b)) :
    report.revision = (if items = [] then none else some a.nextRevision) ∧
      (items.map Prod.fst).Nodup ∧
      (∀ item ∈ items, ∃ path, Path.ofText? item.1 = some path) ∧
      ∃ l m, a.location id = .ok l ∧ b.location id = .ok m ∧
        ∀ path, (m.tree.revisions path).map Revision.core =
          (l.tree.revisions path).map Revision.core ++
            (items.filter (Path.ofText? ·.1 = some path)).map
              fun x => (a.nextRevision, time, x.2, mask) := by
  obtain ⟨l, number, c, placed, tree, hp, hnames, hw, rfl, rfl⟩ :=
    prepared_of_storeDocument h
  obtain ⟨-, hl, hitems, hcount⟩ := of_prepareDocument hp
  obtain ⟨hdistinct, hall⟩ := of_checkItems hitems
  obtain ⟨hmem, hid⟩ := mem_of_findLocation? hl
  let m : Location := Location.ensureBackend { l with tree } backend
  have hm : m.id = id := (Location.id_ensureBackend _ _).trans hid
  have htree : m.tree = tree := Location.tree_ensureBackend _ _
  have hthere : c.hasLocation m.id := by
    rw [hasLocation_iff]
    rcases hcount with ⟨-, -, rfl⟩ | ⟨-, -, -, rfl⟩ <;> exact ⟨l, hm ▸ hl⟩
  refine ⟨?_, hdistinct, ?_, l, m, location_eq_ok_iff.2 hl,
    hm ▸ location_put hthere, ?_⟩
  · rcases hcount with ⟨hnil, rfl, -⟩ | ⟨hne, rfl, -, -⟩
    · exact (if_pos hnil).symm
    · exact (if_neg hne).symm
  · intro item hitem
    obtain ⟨path, hpath, -⟩ := checkWrite_eq_ok_iff.1 (hall item hitem).2.2
    exact ⟨path, hpath⟩
  · intro path
    rw [htree, hw.map_core, map_filter_of_names hnames path
      fun value => (number.getD 0, time, value, mask)]
    rcases hcount with ⟨rfl, -, -⟩ | ⟨-, rfl, -, -⟩
    · rfl
    · rfl

/-! ## Runs -/

/-- A document that is refused has changed nothing, unless two of its texts name
one path.  A document that is stored adds revisions of one number to the settings
that it names and leaves the other locations alone, and it adds one revision to
each setting exactly if its texts spell each path in one way.  No history has a
number twice if that is so of all documents of the run. -/
theorem documents_of_run (h : IsStart a) (ops : List Operation)
    (id backend : String) (items : List (String × Value)) (time : Instant)
    (mask : Mask) :
    (∀ e b, (a.run ops).storeDocument id backend items time mask =
        (.error e, b) →
      b = a.run ops ∨ ¬ Path.SpelledOnce (items.map Prod.fst) ∧
        b.nextRevision = (a.run ops).nextRevision + 1 ∧
        b.dirty = (a.run ops).dirty) ∧
    (∀ report b, (a.run ops).storeDocument id backend items time mask =
        (.ok report, b) →
      report.revision =
          (if items = [] then none else some (a.run ops).nextRevision) ∧
        KeepsOthers id (a.run ops) b ∧
        ∃ l m, (a.run ops).location id = .ok l ∧ b.location id = .ok m ∧
          (∀ path, (m.tree.revisions path).map Revision.core =
            (l.tree.revisions path).map Revision.core ++
              (items.filter (Path.ofText? ·.1 = some path)).map
                fun x => ((a.run ops).nextRevision, time, x.2, mask)) ∧
          (Path.SpelledOnce (items.map Prod.fst) ↔
            ∀ item ∈ items, ∀ path, Path.ofText? item.1 = some path →
              (m.tree.revisions path).map Revision.core =
                (l.tree.revisions path).map Revision.core ++
                  [((a.run ops).nextRevision, time, item.2, mask)])) ∧
    ((∀ op ∈ ops, op.SpelledOnce) → ∀ l ∈ (a.run ops).locations, ∀ path,
      ((l.tree.revisions path).map Revision.id).Nodup) := by
  refine ⟨fun e b hstore => counted_of_storeDocument_error hstore, ?_, ?_⟩
  · intro report b hstore
    obtain ⟨hreport, hdistinct, hnamed, l, m, hl, hm, hrevisions⟩ :=
      revisions_of_storeDocument hstore
    have hothers : KeepsOthers id (a.run ops)
        ((a.run ops).storeDocument id backend items time mask).2 :=
      keepsOthers_storeDocument
    rw [hstore] at hothers
    refine ⟨hreport, hothers, l, m, hl, hm, hrevisions, ?_⟩
    rw [spelledOnce_iff hdistinct hnamed]
    constructor
    · intro hone item hitem path hpath
      rw [hrevisions, hone item hitem path hpath]
      rfl
    · intro hone item hitem path hpath
      have hadded := List.append_cancel_left
        ((hrevisions path).symm.trans (hone item hitem path hpath))
      have hlength : (items.filter (Path.ofText? ·.1 = some path)).length = 1 := by
        simpa using congrArg List.length hadded
      obtain ⟨only, honly⟩ := List.length_eq_one_iff.1 hlength
      have hmem : item ∈ items.filter (Path.ofText? ·.1 = some path) :=
        List.mem_filter.2 ⟨hitem, decide_eq_true hpath⟩
      rw [honly] at hmem ⊢
      rw [List.mem_singleton.1 hmem]
  · intro hops l hl path
    have hreach : Reachable Operation.SpelledOnce (a.run ops) :=
      (reachable_of_isStart h).run hops
    cases he : l.tree.get? path with
    | none => simp [revisions_of_none he]
    | some e =>
      have hhistory := (hreach.hasHistories_of_spelledOnce l hl path e he).history
      rw [revisions_of_get? he, List.Nodup, List.pairwise_map]
      exact hhistory.imp fun hrs => Nat.ne_of_lt hrs.id

/-- A document of two settings, one of which is spelled without the slash in
front and was stored before. -/
theorem documents_of_shortened_text :
    let ops : List Operation :=
      [.storeValue "default" "/b/k" (.int 1) (.ofSecond 5) .keep]
    let items : List (String × Value) := [("b/k", .int 2), ("/b/j", .int 3)]
    Path.SpelledOnce (items.map Prod.fst) ∧
      ∃ report b m, (fresh.run ops).storeDocument "default" "b" items
          (.ofSecond 6) .retire = (.ok report, b) ∧
        report.revision = some 2 ∧ b.location "default" = .ok m ∧
        (m.tree.revisions ["b", "k"]).map Revision.id = [1, 2] ∧
        ∀ item ∈ items, ∀ path, Path.ofText? item.1 = some path →
          ∃ before, (m.tree.revisions path).map Revision.core =
            before ++ [(2, .ofSecond 6, item.2, .retire)] := by
  intro ops items
  have honce : Path.SpelledOnce (items.map Prod.fst) := by
    unfold Path.SpelledOnce
    decide +kernel
  have hanswer : ((fresh.run ops).storeDocument "default" "b" items
      (.ofSecond 6) .retire).1.toOption =
        some ⟨"default", "b", some 2, 2⟩ := by decide +kernel
  have hids : (((fresh.run ops).storeDocument "default" "b" items
      (.ofSecond 6) .retire).2.location "default").toOption.map (fun m =>
        (m.tree.revisions ["b", "k"]).map Revision.id) = some [1, 2] := by
    decide +kernel
  have hnext : (fresh.run ops).nextRevision = 2 := by decide +kernel
  have hstore := eq_mk_of_toOption hanswer
  obtain ⟨-, hstored, -⟩ := documents_of_run .fresh ops "default" "b" items
    (.ofSecond 6) .retire
  obtain ⟨hreport, -, l, m, -, hm, -, hiff⟩ := hstored _ _ hstore
  rw [hm] at hids
  refine ⟨honce, _, _, m, hstore, rfl, hm, Option.some.inj hids, ?_⟩
  intro item hitem path hpath
  exact ⟨_, hnext ▸ hiff.1 honce item hitem path hpath⟩

/-- Two texts of one path give a setting one number twice.  If their values are
of two kinds the document is refused with the first one written. -/
theorem stored_of_two_spellings :
    let twice := fresh.storeDocument "default" "b"
      [("/b/k", .int 1), ("b/k", .int 2)] (.ofSecond 5) .keep
    let clash := fresh.storeDocument "default" "b"
      [("/b/k", .int 1), ("b/k", .bool true)] (.ofSecond 5) .keep
    (∃ report b, twice = (.ok report, b) ∧ report.revision = some 1 ∧
      ∃ l ∈ b.locations,
        ¬ ((l.tree.revisions ["b", "k"]).map Revision.id).Nodup) ∧
    ∃ e b, clash = (.error e, b) ∧ b ≠ fresh := by
  intro twice clash
  have hanswer : twice.1.toOption = some ⟨"default", "b", some 1, 2⟩ := by
    decide +kernel
  have hids : ∃ l ∈ twice.2.locations,
      ¬ ((l.tree.revisions ["b", "k"]).map Revision.id).Nodup := by
    decide +kernel
  have hrefused : clash.1.toOption = none := by decide +kernel
  have hcounted : clash.2.nextRevision ≠ fresh.nextRevision := by decide +kernel
  refine ⟨⟨_, _, eq_mk_of_toOption hanswer, rfl, hids⟩, ?_⟩
  cases hclash : clash with
  | mk answer b =>
    rw [hclash] at hrefused hcounted
    cases answer with
    | error e => exact ⟨e, b, rfl, fun heq => hcounted (congrArg _ heq)⟩
    | ok report => cases hrefused

end SettingsArchive.Archive
