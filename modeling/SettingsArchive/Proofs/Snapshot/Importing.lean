import SettingsArchive.Proofs.Batch
import SettingsArchive.Proofs.Snapshot.Shown

/-!
# Snapshots stored again

The document of a snapshot is read as the element that it was written from,
since that element is plain (`isPlain_toElement`), and it has one `entry` for
each setting (`count_toElement`).  So storing the document at a location that
has nothing below the backend gives the location the settings that the snapshot
shows, and its own snapshot is the same document
(`snapshot_of_storeSnapshot_document`).
-/

namespace SettingsArchive

open Xml (Element)

namespace Xml.Element

/-! ## Counting elements -/

mutual

/-- How many elements of this name there are in an element, itself included. -/
def count (kind : String) : Element → Nat
  | ⟨name, _, children, _⟩ =>
    (if name = kind then 1 else 0) + countAll kind children

/-- How many elements of this name there are in some elements. -/
def countAll (kind : String) : List Element → Nat
  | [] => 0
  | e :: es => count kind e + countAll kind es

end

variable {kind : String}

theorem count_eq (e : Element) :
    e.count kind = (if e.name = kind then 1 else 0) + countAll kind e.children := by
  obtain ⟨name, attributes, children, text⟩ := e
  rw [count]

theorem countAll_append (es fs : List Element) :
    countAll kind (es ++ fs) = countAll kind es + countAll kind fs := by
  induction es with
  | nil => rw [List.nil_append, countAll, Nat.zero_add]
  | cons e es ih => rw [List.cons_append, countAll, countAll, ih, Nat.add_assoc]

end Xml.Element

open Xml.Element (countAll)

namespace Value

mutual

/-- The element of a value has fields in it and nothing else. -/
theorem countAll_writeOnto {kind : String} (hkind : kind ≠ "field") (v : Value)
    {e : Element} (he : e.children = []) :
    countAll kind (writeOnto e v).children = 0 := by
  match v with
  | .struct fields =>
    rw [writeOnto, writeFields_eq]
    simp only [Element.setAttribute, he, List.nil_append]
    exact countAll_fields hkind fields
  | .bool _ | .int _ | .float _ | .string _ | .bytes _ =>
    rw [writeOnto_of_ne (by nofun)]
    simp only [Element.setAttribute, he, countAll]

/-- Fields have other names. -/
theorem countAll_fields {kind : String} (hkind : kind ≠ "field")
    (fields : List (String × Value)) :
    countAll kind (fields.map fun x => writeOnto (fieldElement x.1) x.2) = 0 := by
  match fields with
  | [] => rfl
  | (name, v) :: fields =>
    rw [List.map_cons, countAll, Element.count_eq, name_writeOnto,
      countAll_writeOnto hkind v rfl, countAll_fields hkind fields]
    exact if_neg hkind.symm

end

end Value

namespace Snapshot

/-! ## The entries of a snapshot -/

theorem countAll_insertEntry (value : Value) (name : String)
    (children : List Element) :
    countAll "entry" (insertEntry (entryOf name value) children) =
      countAll "entry" children + 1 := by
  obtain ⟨before, after, rfl, hinsert⟩ :=
    exists_insertEntry (entryOf name value) children
  rw [hinsert, Element.countAll_append, Element.countAll_append, countAll,
    Element.count_eq, name_entryOf, entryOf,
    Value.countAll_writeOnto (by decide) value rfl, if_pos rfl]
  omega

theorem countAll_inDirectory {name : String}
    {change : List Element → List Element}
    (h : ∀ cs, countAll "entry" (change cs) = countAll "entry" cs + 1)
    (children : List Element) :
    countAll "entry" (inDirectory name change children) =
      countAll "entry" children + 1 := by
  induction children with
  | nil => simp [inDirectory, countAll, Element.count_eq, h]
  | cons c cs ih =>
    rw [inDirectory]
    split
    · simp only [countAll, Element.count_eq, h]
      omega
    · rw [countAll, countAll, ih]
      omega

/-- Each value that is put at a place is one more entry. -/
theorem countAll_insertAt (value : Value) {place : Path} (hplace : place.IsValid)
    (children : List Element) :
    countAll "entry" (insertAt value place children) =
      countAll "entry" children + 1 := by
  induction place, hplace using Path.IsValid.induction generalizing children with
  | single name h => exact countAll_insertEntry value name children
  | longer name rest h hrest ih =>
    rw [insertAt_cons value name hrest.1]
    exact countAll_inDirectory ih children

theorem countAll_putAll {items : List (Path × Value)}
    (hitems : ∀ x ∈ items, x.1.IsValid) (children : List Element) :
    countAll "entry" (putAll items children) =
      countAll "entry" children + items.length := by
  induction items generalizing children with
  | nil => rfl
  | cons x items ih =>
    obtain ⟨hx, hrest⟩ := List.forall_mem_cons.1 hitems
    rw [putAll_cons, ih hrest, countAll_insertAt x.2 hx, List.length_cons]
    omega

/-- A snapshot has one entry for each setting. -/
theorem count_toElement {backend : Option String} {items : List (Path × Value)}
    (hv : ∀ x ∈ items, x.1.IsValid) (hb : ∀ x ∈ items, x.1.IsBelow backend) :
    (toElement backend (named items)).count "entry" = items.length := by
  have hlength := (sorted_named_perm hv hb).length_eq
  rw [List.length_map] at hlength
  have hroot : (toElement backend (named items)).name ≠ "entry" := by
    show "config" ≠ "entry"
    decide
  rw [Element.count_eq, if_neg hroot, Nat.zero_add, children_toElement,
    countAll_putAll (isValid_of_mem_sorted hv hb), hlength, countAll, Nat.zero_add]

/-! ## Plain snapshots -/

/-- An element below the root of a snapshot. -/
inductive IsListed : Element → Prop where
  | entry {e : Element} (kind : e.name = "entry") (plain : e.IsPlain) :
    IsListed e
  | dir {name : String} {children : List Element}
    (inner : ∀ c ∈ children, IsListed c) :
    IsListed { name := "dir", attributes := [("name", name)], children }

theorem IsListed.isPlain {e : Element} (h : IsListed e) : e.IsPlain := by
  induction h with
  | entry _ plain => exact plain
  | dir _ ih =>
    exact .intro (Element.hasPlainTag_of_keys "dir" ["name"] rfl rfl (by decide))
      (Or.inr rfl) ih

theorem isListed_inDirectory {name : String}
    {change : List Element → List Element}
    (hchange : ∀ cs, (∀ c ∈ cs, IsListed c) → ∀ c ∈ change cs, IsListed c)
    {children : List Element} (h : ∀ c ∈ children, IsListed c) :
    ∀ c ∈ inDirectory name change children, IsListed c := by
  induction children with
  | nil => exact List.forall_mem_singleton.2 (.dir (hchange [] h))
  | cons c cs ih =>
    obtain ⟨hc, hcs⟩ := List.forall_mem_cons.1 h
    rw [inDirectory]
    split
    · rename_i hdir
      refine List.forall_mem_cons.2 ⟨?_, hcs⟩
      cases hc with
      | entry kind _ => exact absurd (kind.symm.trans hdir.1) (by decide)
      | dir inner => exact .dir (hchange _ inner)
    · exact List.forall_mem_cons.2 ⟨hc, ih hcs⟩

theorem isListed_entryOf (name : String) (value : Value) :
    IsListed (entryOf name value) := by
  refine .entry (name_entryOf name value) (Value.isPlain_writeOnto value ?_ rfl rfl)
  exact Element.hasPlainTag_of_keys "entry" ["name"] rfl rfl (by decide)

theorem isListed_insertAt (value : Value) (place : Path)
    {children : List Element} (h : ∀ c ∈ children, IsListed c) :
    ∀ c ∈ insertAt value place children, IsListed c := by
  induction place generalizing children with
  | nil => exact h
  | cons name rest ih =>
    by_cases hrest : rest = []
    · obtain ⟨before, after, rfl, hinsert⟩ :=
        exists_insertEntry (entryOf name value) children
      obtain ⟨hbefore, hafter⟩ := List.forall_mem_append.1 h
      rw [hrest, insertAt_singleton, hinsert]
      exact List.forall_mem_append.2
        ⟨hbefore, List.forall_mem_cons.2 ⟨isListed_entryOf name value, hafter⟩⟩
    · rw [insertAt_cons value name hrest]
      exact isListed_inDirectory (fun cs hcs => ih hcs) h

theorem isListed_putAll (items : List (Path × Value)) {children : List Element}
    (h : ∀ c ∈ children, IsListed c) : ∀ c ∈ putAll items children, IsListed c := by
  induction items generalizing children with
  | nil => exact h
  | cons x items ih => exact ih (isListed_insertAt x.2 x.1 h)

/-- The document of any snapshot is plain. -/
theorem isPlain_toElement (backend : Option String)
    (items : List (String × Value)) : (toElement backend items).IsPlain := by
  have htag : (toElement backend items).HasPlainTag := by
    cases backend with
    | none => exact Element.hasPlainTag_of_keys "config" [] rfl rfl (by decide)
    | some b =>
      exact Element.hasPlainTag_of_keys "config" ["backend"] rfl rfl (by decide)
  refine .intro htag (Or.inr rfl) fun c hc => ?_
  exact (isListed_putAll (sorted backend items) (List.forall_mem_nil _) c hc).isPlain

theorem canonical_canonical {α : Type} (items : List (α × Value)) :
    canonical (canonical items) = canonical items := by
  rw [canonical, canonical, List.map_map]
  simp [Function.comp_def, Value.canonical_canonical]

end Snapshot

namespace Archive

open Directory

variable {a c : Archive}

/-- Where nothing was below a backend, what is seen there behind writes is what
was written. -/
theorem mem_visible_of_written {l m : Location} {backend : String} {n : Nat}
    {time : Instant} {mask : Mask} {placed : List (Path × Value)}
    (hm : m.tree.Sound) (hb : Location.isValidBackend backend)
    (hempty : ∀ path e, l.tree.get? path = some e →
      ¬ path.IsBelow (some backend))
    (hplaced : ∀ x ∈ placed, x.1.IsBelow (some backend))
    (hn : (placed.map Prod.fst).Nodup)
    (hw : Written time n mask placed l.tree m.tree) {x : Path × Value} :
    x ∈ visible [m] (some backend) ↔ x ∈ placed := by
  obtain ⟨hwritten, hothers⟩ := hw.get? hn
  have hsound : ∀ k ∈ [m], k.tree.Sound := List.forall_mem_singleton.2 hm
  have hvalid : ∀ b, some backend = some b → Location.isValidBackend b := by
    rintro _ ⟨⟩
    exact hb
  rw [mem_visible_iff hsound hvalid, seen_singleton_iff]
  constructor
  · rintro ⟨⟨e, he, hvalue⟩, hbelow⟩
    have hmem : x.1 ∈ placed.map Prod.fst := by
      by_contra hnot
      exact hempty x.1 e (hothers x.1 hnot ▸ he) hbelow
    obtain ⟨y, hy, hyx⟩ := List.mem_map.1 hmem
    obtain ⟨d, hd, hcurrent⟩ := hwritten y hy
    rw [hyx, he] at hd
    obtain rfl := Option.some.inj hd
    rwa [Prod.ext hyx.symm (hvalue.symm.trans hcurrent)]
  · exact fun hx => ⟨hwritten x hx, hplaced x hx⟩

/-- The document of settings below a backend is read as these settings, in some
order and as they are written. -/
theorem exists_placed {backend : String} {settings : List (Path × Value)}
    (hv : ∀ x ∈ settings, x.1.IsValid)
    (hbelow : ∀ x ∈ settings, x.1.IsBelow (some backend))
    (hn : (settings.map Prod.fst).Nodup) :
    ∃ items placed,
      Snapshot.ofElement
          (Snapshot.toElement (some backend) (Snapshot.named settings)) backend
        = .ok items ∧
      List.Forall₂ Names items placed ∧
      placed.Perm (Snapshot.canonical settings) ∧
      (placed.map Prod.fst).Nodup ∧
      (∀ x ∈ placed, x.1.IsBelow (some backend)) ∧
      items.length =
        (Snapshot.toElement (some backend) (Snapshot.named settings)).count
          "entry" := by
  obtain ⟨items, hitems, hperm⟩ := Snapshot.readChildren_toElement hv hbelow
  have hnamed : List.Forall₂ Names
      (settings.map fun x => (x.1.text, x.2.canonical))
      (Snapshot.canonical settings) := by
    rw [Snapshot.canonical, List.forall₂_map_left_iff,
      List.forall₂_map_right_iff, List.forall₂_same]
    exact fun x hx => ⟨Path.ofText?_text_of_isValid (hv x hx), rfl⟩
  obtain ⟨placed, hnames, hplaced⟩ := List.perm_comp_forall₂ hperm hnamed
  refine ⟨items, placed, hitems, hnames, hplaced, ?_, ?_, ?_⟩
  · rw [(hplaced.map Prod.fst).nodup_iff, Snapshot.canonical, List.map_map]
    exact hn
  · intro x hx
    obtain ⟨y, hy, rfl⟩ := List.mem_map.1 (hplaced.mem_iff.1 hx)
    exact hbelow y hy
  · have hlength := hperm.length_eq
    rw [List.length_map] at hlength
    rw [hlength]
    exact (Snapshot.count_toElement hv hbelow).symm

/-- Storing the document of a snapshot where nothing is below the backend
reproduces it.  The document is stored whatever the archive and the location it
comes from, with one setting for each `entry` of it, and the snapshot of the
location behind it is the same document. -/
theorem snapshot_of_storeSnapshot_document {allowed others : Operation → Prop}
    (ha : Reachable allowed a) {id : String} (hid : a.hasLocation id)
    {backend : String} (hb : Location.isValidBackend backend) (recursive : Bool)
    (hc : Reachable others c) (hcount : c.nextRevision < Numeral.maxWord)
    {other : String} {l : Location} (hl : c.location other = .ok l)
    (hempty : ∀ path e, l.tree.get? path = some e →
      ¬ path.IsBelow (some backend))
    (time : Instant) (mask : Mask) :
    ∃ shown root report d again,
      a.snapshot id (some backend) recursive = .ok shown ∧
      Element.read shown.document = .ok root ∧
      c.storeSnapshot other backend shown.document time mask =
        (.ok report, d) ∧
      report.stored = root.count "entry" ∧
      d.snapshot other (some backend) false = .ok again ∧
      again.document = shown.document := by
  obtain ⟨scopes, hscopes, hs⟩ := ha.exists_scopes hid recursive
  have hvalid : ∀ b, some backend = some b → Location.isValidBackend b := by
    rintro _ ⟨⟩
    exact hb
  have hmem : ∀ x ∈ visible scopes (some backend),
      x.1.IsValid ∧ x.1.IsBelow (some backend) := by
    intro x hx
    obtain ⟨hseen, hbelow⟩ := (mem_visible_iff hs hvalid).1 hx
    exact ⟨isValid_of_seen hs hseen, hbelow⟩
  let shown :=
    Snapshot.toElement (some backend) (Snapshot.named (visible scopes backend))
  have hread : Element.read shown.document = .ok shown :=
    Xml.read_document (Snapshot.isPlain_toElement _ _)
  obtain ⟨items, placed, hitems, hnames, hplaced, hn, hplaces, hlength⟩ :=
    exists_placed (fun x hx => (hmem x hx).1) (fun x hx => (hmem x hx).2)
      (nodup_paths_visible scopes (some backend))
  -- Nothing is there yet, so all of them can be written.
  obtain ⟨report, d, n, m, hstore, hstored, hm, hw⟩ :=
    storeDocument_of_fits time mask hb hl hcount hnames hn
      fun x hx => ⟨hplaces x hx, fun e he =>
        absurd (hplaces x hx) (hempty x.1 e he)⟩
  have hsound : m.tree.Sound :=
    hw.sound (hc.wellFormed.sound l
      (mem_of_findLocation? (location_eq_ok_iff.1 hl)).1).tree
  refine ⟨shown, shown, report, d, shown, snapshot_eq hscopes, hread, ?_,
    hstored.trans hlength, ?_, rfl⟩
  · rw [storeSnapshot, hread]
    simp only [Except.mapError, shown, hitems]
    exact hstore
  · rw [snapshot_eq (scopes_of_location hm)]
    refine congrArg _ (toElement_visible_congr hs hvalid fun x => ?_)
    have hthere : ∀ y, y ∈ visible [m] (some backend) ↔ y ∈ placed :=
      fun y => mem_visible_of_written hsound hb hempty hplaces hn hw
    have hcanonical : (Snapshot.canonical placed).Perm
        (Snapshot.canonical (visible scopes (some backend))) := by
      rw [← Snapshot.canonical_canonical (visible scopes (some backend))]
      exact hplaced.map _
    rw [← hcanonical.mem_iff, Snapshot.canonical, Snapshot.canonical,
      List.mem_map, List.mem_map]
    simp only [hthere]

/-- A struct that is inherited and a text with blanks and a line break, one
beside a directory of its name, are stored in another archive before its own
setting. -/
theorem snapshot_of_inherited_document :
    let a := fresh.run [.newLocation "desk" (some "default"),
      .storeValue "default" "/app/size" (.struct [("", .int 1)]) (.ofSecond 5)
        .keep,
      .storeValue "desk" "/app/size/note" (.string " <a> &\n") (.ofSecond 6)
        .keep]
    let c := fresh.run [.newLocation "lab" none,
      .storeValue "lab" "/web/home" (.int 3) (.ofSecond 9) .keep]
    ∃ shown report d again, a.snapshot "desk" (some "app") true = .ok shown ∧
      c.storeSnapshot "lab" "app" shown.document (.ofSecond 1) .retire =
        (.ok report, d) ∧
      report.stored = 2 ∧
      d.snapshot "lab" (some "app") false = .ok again ∧
      again.document = shown.document := by
  intro a c
  have ha : Reachable (fun _ => True) a := reachable_run .fresh _
  have hc : Reachable (fun _ => True) c := reachable_run .fresh _
  have hdesk : a.hasLocation "desk" := by decide +kernel
  have hcount : c.nextRevision < Numeral.maxWord := by decide +kernel
  obtain ⟨l, hl⟩ : ∃ l, c.location "lab" = .ok l := ⟨_, rfl⟩
  have hentries : ∀ m ∈ c.locations, ∀ x ∈ m.tree.allEntries,
      x.1.head? ≠ some "app" := by decide +kernel
  have hempty : ∀ path e, l.tree.get? path = some e →
      ¬ path.IsBelow (some "app") := by
    intro path e he hbelow
    obtain ⟨rest, -, rfl⟩ := hbelow "app" rfl
    exact hc.wellFormed.of_listed hentries hl ("app" :: rest) e he rfl
  obtain ⟨shown, root, report, d, again, hshown, hroot, hstore, hstored, hagain,
    hsame⟩ := snapshot_of_storeSnapshot_document ha hdesk (by decide) true hc
      hcount hl hempty (.ofSecond 1) .retire
  refine ⟨shown, report, d, again, hshown, hstore, ?_, hagain, hsame⟩
  obtain ⟨scopes, hscopes, hvisible⟩ : ∃ scopes,
      a.scopes "desk" true = .ok scopes ∧ visible scopes (some "app") =
        [(["app", "size", "note"], .string " <a> &\n"),
          (["app", "size"], .struct [("", .int 1)])] := by
    refine ⟨_, rfl, ?_⟩
    rw [visible, show pathsIn _ (some "app") =
      [["app", "size", "note"], ["app", "size"]] by decide +kernel]
    rfl
  rw [snapshot_eq hscopes, hvisible] at hshown
  obtain rfl := Except.ok.inj hshown
  rw [Xml.read_document (Snapshot.isPlain_toElement _ _)] at hroot
  obtain rfl := Except.ok.inj hroot
  rw [hstored, Snapshot.count_toElement]
  · rfl
  · simp [Path.IsValid, Path.isSegment]
  · simp [Path.IsBelow]

end Archive

end SettingsArchive
