import SettingsArchive.Proofs.Directory.Listing
import SettingsArchive.Proofs.Issued
import SettingsArchive.Proofs.Snapshot

/-!
# Snapshots stored as a whole

A document of settings has entries, each at the path that the directories around
it and its own name make.  What is read from a document are these entries, each
with its value, and nothing else (`exists_placed_of_ofElement`).  The texts of the
settings that are read are those of their paths, so no two of them spell one path
in different ways, and what was checked is written as a whole.

`storedWhole_of_storeSnapshot` says so of any text: what is stored are all entries
of the document, and where the text is refused nothing has changed.
-/

namespace SettingsArchive

open Xml (Element)

namespace Snapshot

/-! ## The entries of a document -/

mutual

/-- The entries at and below an element with their paths.  `above` is the path of
the directory around it. -/
def entriesOf (above : Path) : Element → List (Path × Element)
  | e@⟨kind, _, children, _⟩ =>
    let path := above ++ [(e.attribute? "name").getD ""]
    if kind = "entry" then [(path, e)]
    else if kind = "dir" then entriesAmong path children
    else []

/-- The entries at and below some elements of one directory. -/
def entriesAmong (above : Path) : List Element → List (Path × Element)
  | [] => []
  | e :: es => entriesOf above e ++ entriesAmong above es

end

/-- The entry is read as this setting. -/
def ReadAs (entry : Path × Element) (x : Path × Value) : Prop :=
  entry.1 = x.1 ∧ Value.ofElement entry.2 = .ok x.2

theorem of_nameOf {e : Element} {name : String} (h : nameOf e = .ok name) :
    (e.attribute? "name").getD "" = name ∧ Path.isSegment name := by
  simp only [nameOf] at h
  split at h
  · rename_i hsegment
    injection h with h
    exact ⟨h, h ▸ hsegment⟩
  · cases h

mutual

/-- What is read from an element are its entries with their values. -/
theorem exists_placed_of_readChild {above : Path} (ha : above.IsValid)
    (e : Element) {items : List (String × Value)}
    (h : readChild above.text e = .ok items) :
    ∃ placed, items = named placed ∧
      List.Forall₂ ReadAs (entriesOf above e) placed ∧
      ∀ x ∈ placed, x.1.IsValid := by
  obtain ⟨kind, attributes, children, text⟩ := e
  unfold readChild at h
  unfold entriesOf
  split at h
  · rename_i hkind
    obtain ⟨name, hname, h⟩ := bind_eq_ok h
    obtain ⟨rfl, hsegment⟩ := of_nameOf hname
    simp only at h
    split at h
    · rename_i value hvalue
      injection h with h
      rw [if_pos hkind]
      refine ⟨[(_, value)], ?_, .cons ⟨rfl, hvalue⟩ .nil,
        List.forall_mem_singleton.2 (Path.isValid_concat ha hsegment)⟩
      rw [← h, ← Path.text_concat ha.1]
      rfl
    · cases h
  · rename_i hentry
    split at h
    · rename_i hkind
      obtain ⟨name, hname, h⟩ := bind_eq_ok h
      obtain ⟨rfl, hsegment⟩ := of_nameOf hname
      rw [← Path.text_concat ha.1] at h
      rw [if_neg hentry, if_pos hkind]
      exact exists_placed_of_readChildren (Path.isValid_concat ha hsegment) children h
    · rename_i hdir
      injection h with h
      rw [if_neg hentry, if_neg hdir]
      exact ⟨[], h.symm, .nil, nofun⟩

/-- What is read from elements are their entries with their values. -/
theorem exists_placed_of_readChildren {above : Path} (ha : above.IsValid)
    (es : List Element) {items : List (String × Value)}
    (h : readChildren above.text es = .ok items) :
    ∃ placed, items = named placed ∧
      List.Forall₂ ReadAs (entriesAmong above es) placed ∧
      ∀ x ∈ placed, x.1.IsValid := by
  cases es with
  | nil =>
    injection h with h
    exact ⟨[], h.symm, .nil, nofun⟩
  | cons e es =>
    obtain ⟨first, hfirst, h⟩ := bind_eq_ok h
    obtain ⟨rest, hrest, h⟩ := bind_eq_ok h
    injection h with h
    obtain ⟨front, rfl, hfront, hfrontValid⟩ :=
      exists_placed_of_readChild ha e hfirst
    obtain ⟨back, rfl, hback, hbackValid⟩ :=
      exists_placed_of_readChildren ha es hrest
    refine ⟨front ++ back, ?_, ?_,
      List.forall_mem_append.2 ⟨hfrontValid, hbackValid⟩⟩
    · exact h.symm.trans List.map_append.symm
    · rw [entriesAmong]
      exact List.rel_append hfront hback

end

mutual

/-- The entries of an element lie below the directory around it. -/
theorem exists_rest_of_mem_entriesOf (above : Path) (e : Element)
    {x : Path × Element} (hx : x ∈ entriesOf above e) :
    ∃ rest, rest ≠ [] ∧ x.1 = above ++ rest := by
  obtain ⟨kind, attributes, children, text⟩ := e
  unfold entriesOf at hx
  simp only at hx
  split at hx
  · rw [List.mem_singleton.1 hx]
    exact ⟨_, List.cons_ne_nil _ _, rfl⟩
  · split at hx
    · obtain ⟨rest, -, hrest⟩ := exists_rest_of_mem_entriesAmong _ children hx
      rw [hrest, List.append_assoc]
      exact ⟨_, List.cons_ne_nil _ _, rfl⟩
    · cases hx

theorem exists_rest_of_mem_entriesAmong (above : Path) (es : List Element)
    {x : Path × Element} (hx : x ∈ entriesAmong above es) :
    ∃ rest, rest ≠ [] ∧ x.1 = above ++ rest := by
  cases es with
  | nil => cases hx
  | cons e es =>
    rcases List.mem_append.1 hx with hx | hx
    · exact exists_rest_of_mem_entriesOf above e hx
    · exact exists_rest_of_mem_entriesAmong above es hx

end

theorem map_fst_of_readAs {entries : List (Path × Element)}
    {placed : List (Path × Value)} (h : List.Forall₂ ReadAs entries placed) :
    placed.map Prod.fst = entries.map Prod.fst := by
  induction h with
  | nil => rfl
  | cons hx _ ih => rw [List.map_cons, List.map_cons, ih, hx.1]

/-- What is read from a document below a backend are its entries with their
values. -/
theorem exists_placed_of_ofElement {root : Element} {backend : String}
    (hb : Location.isValidBackend backend) {items : List (String × Value)}
    (h : ofElement root backend = .ok items) :
    root.name = "config" ∧ ∃ placed,
      List.Forall₂ ReadAs (entriesAmong [backend] root.children) placed ∧
      List.Forall₂ Archive.Names items placed := by
  unfold ofElement at h
  split at h
  · rename_i hroot
    rw [← Path.text_singleton] at h
    obtain ⟨placed, rfl, hread, hvalid⟩ :=
      exists_placed_of_readChildren (Path.isValid_singleton hb) _ h
    refine ⟨hroot, placed, hread, ?_⟩
    rw [named, List.forall₂_map_left_iff, List.forall₂_same]
    exact fun x hx => ⟨Path.ofText?_text_of_isValid (hvalid x hx), rfl⟩
  · cases h

end Snapshot

namespace Archive

open Directory Snapshot

variable {a b : Archive} {id backend text : String} {time : Instant}
  {mask : Mask}

/-! ## Storing a document as a whole -/

/-- Behind the text of a snapshot that was stored all its entries are written,
under one number if there are any. -/
theorem written_of_storeSnapshot {report : StoreReport}
    (h : a.storeSnapshot id backend text time mask = (.ok report, b)) :
    ∃ root items entries placed l tree, Element.read text = .ok root ∧
      ofElement root backend = .ok items ∧
      entries = entriesAmong [backend] root.children ∧
      List.Forall₂ ReadAs entries placed ∧ (placed.map Prod.fst).Nodup ∧
      Location.isValidBackend backend ∧ a.location id = .ok l ∧
      (∀ x ∈ placed, l.tree.Fits x.1 x.2 time) ∧
      (entries = [] ∨ a.nextRevision < Numeral.maxWord) ∧
      Written time a.nextRevision mask placed l.tree tree ∧
      report = ⟨id, backend,
        if entries = [] then none else some a.nextRevision, entries.length⟩ ∧
      b = a.holding (l.holding backend tree)
        (if entries = [] then a.nextRevision else a.nextRevision + 1) := by
  obtain ⟨root, items, hroot, hitems, h⟩ := of_storeSnapshot h
  have hvalid : Location.isValidBackend backend := by
    obtain ⟨l, number, c, -, -, hp, -⟩ := prepared_of_storeDocument h
    exact (of_prepareDocument hp).1
  obtain ⟨-, placed, hread, hnames⟩ := exists_placed_of_ofElement hvalid hitems
  obtain ⟨l, tree, -, hl, hcheck, hcount, hw, rfl, rfl⟩ :=
    written_of_storeDocument hnames h
  have hlength := hnames.length_eq.trans hread.length_eq.symm
  have hnil : items = [] ↔ entriesAmong [backend] root.children = [] := by
    rw [← List.length_eq_zero_iff, hlength, List.length_eq_zero_iff]
  simp only [hnil, hlength] at hcount ⊢
  exact ⟨root, items, _, placed, l, tree, hroot, hitems, rfl, hread,
    nodup_of_names hnames (spelledOnce_of_ofElement hitems) (of_checkItems hcheck).1,
    hvalid, hl, fits_of_checkItems hcheck hnames, hcount, hw, rfl, rfl⟩

/-- A text that can be read is stored where the entries have different paths and
fit. -/
theorem exists_storeSnapshot_of_fits {root : Element} {items : List (String × Value)}
    {l : Location} {entries : List (Path × Element)} (mask : Mask)
    (hroot : Element.read text = .ok root) (hitems : ofElement root backend = .ok items)
    (hentries : entries = entriesAmong [backend] root.children)
    (hvalid : Location.isValidBackend backend) (hl : a.location id = .ok l)
    (hn : (entries.map Prod.fst).Nodup)
    (hfits : ∀ x ∈ entries, ∀ value, Value.ofElement x.2 = .ok value →
      l.tree.Fits x.1 value time)
    (hcount : entries = [] ∨ a.nextRevision < Numeral.maxWord) :
    ∃ report b, a.storeSnapshot id backend text time mask = (.ok report, b) := by
  subst hentries
  obtain ⟨-, placed, hread, hnames⟩ := exists_placed_of_ofElement hvalid hitems
  have hplaced : ∀ y ∈ placed, y.1.IsBelow (some backend) ∧
      l.tree.Fits y.1 y.2 time := by
    intro y hy
    obtain ⟨x, hx, hxy⟩ := exists_mem_of_forall₂ hread hy
    refine ⟨?_, hxy.1 ▸ hfits x hx y.2 hxy.2⟩
    rintro _ ⟨⟩
    exact hxy.1 ▸ exists_rest_of_mem_entriesAmong [backend] _ hx
  have hcount : items = [] ∨ a.nextRevision < Numeral.maxWord := by
    refine hcount.imp_left fun hnil => ?_
    have hlength := hnames.length_eq.trans hread.length_eq.symm
    rw [hnil] at hlength
    exact List.length_eq_zero_iff.1 hlength
  rw [storeSnapshot, hroot]
  simp only [Except.mapError, hitems]
  exact exists_storeDocument_of_fits time mask hvalid hl hcount hnames
    (map_fst_of_readAs hread ▸ hn) hplaced

/-- The text of a snapshot is stored exactly where it is a document whose entries
can be read, have different paths and fit the location, the backend is valid and
there is a number for the entries, if there are any.  Then each entry has its value
appended as one revision at its path, and the report counts the entries.  The other
settings of the location and the other locations are as before, and the backend is
registered.  A text that is not stored has changed nothing. -/
theorem storedWhole_of_storeSnapshot (a : Archive) (id backend text : String)
    (time : Instant) (mask : Mask) :
    (∀ e b, a.storeSnapshot id backend text time mask = (.error e, b) → b = a) ∧
    ((∃ report b, a.storeSnapshot id backend text time mask = (.ok report, b)) ↔
      ∃ root items l, Element.read text = .ok root ∧
        ofElement root backend = .ok items ∧
        Location.isValidBackend backend ∧ a.location id = .ok l ∧
        ((entriesAmong [backend] root.children).map Prod.fst).Nodup ∧
        (∀ x ∈ entriesAmong [backend] root.children, ∀ value,
          Value.ofElement x.2 = .ok value → l.tree.Fits x.1 value time) ∧
        (entriesAmong [backend] root.children = [] ∨
          a.nextRevision < Numeral.maxWord)) ∧
    ∀ report b, a.storeSnapshot id backend text time mask = (.ok report, b) →
      ∃ root entries l m, Element.read text = .ok root ∧
        entries = entriesAmong [backend] root.children ∧
        (entries.map Prod.fst).Nodup ∧
        a.location id = .ok l ∧ b.location id = .ok m ∧
        (∀ x ∈ entries, ∃ value, Value.ofElement x.2 = .ok value ∧
          m.tree.get? x.1 = some (appended (x.1.getLastD "")
            ⟨a.nextRevision, time, value, mask, false⟩ (l.tree.get? x.1))) ∧
        (∀ path ∉ entries.map Prod.fst, m.tree.get? path = l.tree.get? path) ∧
        m = Location.ensureBackend { l with tree := m.tree } backend ∧
        backend ∈ m.backends ∧
        report = ⟨id, backend,
          if entries = [] then none else some a.nextRevision, entries.length⟩ ∧
        b = { a.put m with
          nextRevision :=
            if entries = [] then a.nextRevision else a.nextRevision + 1
          dirty := true } := by
  refine ⟨fun e b => storeSnapshot_of_error, ⟨?_, ?_⟩, ?_⟩
  · intro ⟨report, b, h⟩
    obtain ⟨root, items, entries, placed, l, -, hroot, hitems, rfl, hread, hn,
      hvalid, hl, hfits, hcount, -⟩ := written_of_storeSnapshot h
    refine ⟨root, items, l, hroot, hitems, hvalid, hl,
      map_fst_of_readAs hread ▸ hn, ?_, hcount⟩
    intro x hx value hvalue
    obtain ⟨y, hy, hxy⟩ := exists_mem_of_forall₂ hread.flip hx
    obtain rfl : y.2 = value := Except.ok.inj (hxy.2.symm.trans hvalue)
    exact hxy.1 ▸ hfits y hy
  · intro ⟨root, items, l, hroot, hitems, hvalid, hl, hn, hfits, hcount⟩
    exact exists_storeSnapshot_of_fits mask hroot hitems rfl hvalid hl hn hfits hcount
  · intro report b h
    obtain ⟨root, -, entries, placed, l, tree, hroot, -, hentries, hread, hn, -, hl,
      -, -, hw, rfl, rfl⟩ := written_of_storeSnapshot h
    have hmap := map_fst_of_readAs hread
    obtain ⟨hwritten, hothers⟩ := hw.get?_eq hn
    refine ⟨root, entries, l, l.holding backend tree, hroot, hentries, hmap ▸ hn,
      hl, location_holding hl tree _, ?_, ?_, ?_,
      Location.mem_backends_ensureBackend _ _, rfl, rfl⟩
    · intro x hx
      obtain ⟨y, hy, hxy⟩ := exists_mem_of_forall₂ hread.flip hx
      rw [Location.tree_holding]
      exact ⟨y.2, hxy.2, hxy.1 ▸ hwritten y hy⟩
    · rw [Location.tree_holding, ← hmap]
      exact hothers
    · rw [Location.tree_holding]
      rfl

/-- A document with one directory twice. -/
def directoryTwice : Element :=
  let entry (name text : String) : Element :=
    ⟨"entry", [("name", name), ("type", "int")], [], text⟩
  let dir (e : Element) : Element := ⟨"dir", [("name", "view")], [e], ""⟩
  ⟨"config", [],
    [dir (entry "size" "3"), entry "mode" "2", dir (entry "mode" "4")], ""⟩

/-- A document with one directory twice is stored with its entries, one of them
beside a directory that holds its name too, unless one would be dated before what
is there. -/
theorem storedWhole_of_directory_twice :
    let a := fresh.run [
      .storeValue "default" "/app/mode" (.int 1) (.ofSecond 5) .keep]
    let text := "<config><dir name=\"view\"><entry name=\"size\" type=\"int\">3" ++
      "</entry></dir><entry name=\"mode\" type=\"int\">2</entry><dir name=\"view\">" ++
      "<entry name=\"mode\" type=\"int\">4</entry></dir></config>"
    (a.storeSnapshot "default" "app" text (.ofSecond 4) .retire).2 = a ∧
    ∃ b m, Element.read text = .ok directoryTwice ∧
      a.storeSnapshot "default" "app" text (.ofSecond 5) .retire =
        (.ok ⟨"default", "app", some 2, 3⟩, b) ∧
      (entriesAmong ["app"] directoryTwice.children).map Prod.fst =
        [["app", "view", "size"], ["app", "mode"], ["app", "view", "mode"]] ∧
      b.location "default" = .ok m ∧
      m.tree.get? ["app", "view", "mode"] = some
        (.ofFirst "mode" ⟨2, .ofSecond 5, .int 4, .retire, false⟩) := by
  intro a text
  have hread : (Element.read text).toOption = some directoryTwice := by
    decide +kernel
  have hroot := eq_ok_of_toOption hread
  have hdocument (time : Instant) :
      a.storeSnapshot "default" "app" text time .retire =
        a.storeDocument "default" "app" [("/app/view/size", .int 3),
          ("/app/mode", .int 2), ("/app/view/mode", .int 4)] time .retire := by
    have hitems : ofElement directoryTwice "app" = .ok [("/app/view/size", .int 3),
        ("/app/mode", .int 2), ("/app/view/mode", .int 4)] := by rfl
    rw [storeSnapshot, hroot]
    simp only [Except.mapError, hitems]
  obtain ⟨hrefused, -⟩ :=
    storedWhole_of_storeSnapshot a "default" "app" text (.ofSecond 4) .retire
  obtain ⟨-, -, hstored⟩ :=
    storedWhole_of_storeSnapshot a "default" "app" text (.ofSecond 5) .retire
  constructor
  · have hearly : (a.storeSnapshot "default" "app" text (.ofSecond 4)
        .retire).1.toOption = none := by
      rw [hdocument]
      decide +kernel
    cases hstore : a.storeSnapshot "default" "app" text (.ofSecond 4) .retire with
    | mk answer b =>
      rw [hstore] at hearly
      cases answer with
      | error e => exact hrefused e b hstore
      | ok report => cases hearly
  · have hreport : (a.storeSnapshot "default" "app" text (.ofSecond 5)
        .retire).1.toOption = some ⟨"default", "app", some 2, 3⟩ := by
      rw [hdocument]
      decide +kernel
    have hstore := eq_mk_of_toOption hreport
    obtain ⟨root, entries, l, m, hread, rfl, -, hl, hm, hentries, -⟩ :=
      hstored _ _ hstore
    obtain rfl : directoryTwice = root := Except.ok.inj (hroot.symm.trans hread)
    have hmem : (["app", "view", "mode"],
        (⟨"entry", [("name", "mode"), ("type", "int")], [], "4"⟩ : Element)) ∈
        entriesAmong ["app"] directoryTwice.children := by decide +kernel
    obtain ⟨value, hvalue, hget⟩ := hentries _ hmem
    obtain rfl : .int 4 = value := Except.ok.inj hvalue
    have hnone : ((a.location "default").toOption.bind
        (·.tree.get? ["app", "view", "mode"])).isNone := by decide +kernel
    rw [hl] at hnone
    have hnew : l.tree.get? ["app", "view", "mode"] = none :=
      Option.isNone_iff_eq_none.1 hnone
    refine ⟨_, m, hroot, hstore, by decide +kernel, hm, ?_⟩
    rw [hget, hnew]
    rfl

end Archive

end SettingsArchive
