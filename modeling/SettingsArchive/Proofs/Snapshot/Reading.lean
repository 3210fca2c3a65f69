import SettingsArchive.Proofs.Operations
import SettingsArchive.Proofs.Snapshot
import SettingsArchive.Proofs.Value

/-!
# Snapshots read back

A snapshot reads back as the settings that it was made of, with canonical
values, in the order of the document (`readChildren_toElement`).  It is built
by putting one value after the other in place, and each of these changes adds
one setting to what is read: `Adds` says so of a change of children, for the
three ways in which `insertAt` goes on.

Values are written as their canonical forms are, so a snapshot depends on these
only (`toElement_canonical`).
-/

namespace SettingsArchive.Snapshot

open Xml (Element)

/-! ## Reading children -/

theorem readChildren_append (above : String) (before after : List Element) :
    readChildren above (before ++ after) = do
      let front ← readChildren above before
      let back ← readChildren above after
      return front ++ back := by
  induction before with
  | nil =>
    rw [List.nil_append, readChildren]
    exact (bind_pure (readChildren above after)).symm
  | cons e before ih =>
    rw [List.cons_append, readChildren, ih, readChildren]
    simp only [bind_assoc, pure_bind, List.append_assoc]

/-- Children that are read are read on both sides of any place. -/
theorem of_readChildren_append {above : String} {before after : List Element}
    {items : List (String × Value)}
    (h : readChildren above (before ++ after) = .ok items) :
    ∃ front back, readChildren above before = .ok front ∧
      readChildren above after = .ok back ∧ items = front ++ back := by
  rw [readChildren_append] at h
  obtain ⟨front, hfront, h⟩ := bind_eq_ok h
  obtain ⟨back, hback, h⟩ := bind_eq_ok h
  exact ⟨front, back, hfront, hback, (Except.ok.inj h).symm⟩

/-- An element that holds a value is read as one setting. -/
theorem readChild_entry {e : Element} {name above : String} {value : Value}
    (hkind : e.name = "entry") (hname : e.attribute? "name" = some name)
    (hsegment : Path.isSegment name) (hvalue : Value.ofElement e = .ok value) :
    readChild above e = .ok [(above ++ "/" ++ name, value)] := by
  obtain ⟨kind, attributes, children, text⟩ := e
  have hnameOf : nameOf ⟨kind, attributes, children, text⟩ = .ok name := by
    rw [nameOf, hname]
    exact if_pos hsegment
  rw [readChild, if_pos hkind, hnameOf]
  simp only [bind, Except.bind, hvalue]
  rfl

/-- The directory of an element is read as its children are. -/
theorem readChild_dir {e : Element} {name above : String}
    (hkind : e.name = "dir") (hname : e.attribute? "name" = some name)
    (hsegment : Path.isSegment name) :
    readChild above e = readChildren (above ++ "/" ++ name) e.children := by
  obtain ⟨kind, attributes, children, text⟩ := e
  have hnameOf : nameOf ⟨kind, attributes, children, text⟩ = .ok name := by
    rw [nameOf, hname]
    exact if_pos hsegment
  have hkind : kind = "dir" := hkind
  subst hkind
  rw [readChild, if_neg (by decide), if_pos rfl, hnameOf]
  rfl

/-! ## Putting values in place -/

/-- The entry of a name with a value. -/
def entryOf (name : String) (value : Value) : Element :=
  value.writeOnto { name := "entry", attributes := [("name", name)] }

theorem name_entryOf (name : String) (value : Value) :
    (entryOf name value).name = "entry" :=
  Value.name_writeOnto _ value

theorem attribute?_entryOf (name : String) (value : Value) :
    (entryOf name value).attribute? "name" = some name :=
  Value.attribute?_writeOnto (by decide) _ value

theorem ofElement_entryOf (name : String) (value : Value) :
    Value.ofElement (entryOf name value) = .ok value.canonical :=
  Value.ofElement_writeOnto value _ rfl

theorem insertAt_singleton (value : Value) (name : String) :
    insertAt value [name] = insertEntry (entryOf name value) :=
  rfl

theorem insertAt_cons (value : Value) (name : String) {rest : Path} (h : rest ≠ []) :
    insertAt value (name :: rest) = inDirectory name (insertAt value rest) := by
  cases rest with
  | nil => exact absurd rfl h
  | cons next rest => rfl

/-- Puts values at their places, one after the other. -/
def putAll (items : List (Path × Value)) (children : List Element) : List Element :=
  items.foldl (fun children (place, value) => insertAt value place children) children

theorem putAll_cons (x : Path × Value) (items : List (Path × Value))
    (children : List Element) :
    putAll (x :: items) children = putAll items (insertAt x.2 x.1 children) :=
  rfl

theorem children_toElement (backend : Option String) (items : List (String × Value)) :
    (toElement backend items).children = putAll (sorted backend items) [] :=
  rfl

/-! ## Adding a setting -/

/-- A change of children that adds one setting to what is read. -/
def Adds (above : String) (item : String × Value)
    (change : List Element → List Element) : Prop :=
  ∀ children items, readChildren above children = .ok items →
    ∃ items', readChildren above (change children) = .ok items' ∧
      items'.Perm (item :: items)

/-- An entry is put somewhere among the children. -/
theorem exists_insertEntry (entry : Element) (children : List Element) :
    ∃ before after, children = before ++ after ∧
      insertEntry entry children = before ++ entry :: after := by
  induction children with
  | nil => exact ⟨[], [], rfl, rfl⟩
  | cons c cs ih =>
    rw [insertEntry]
    split
    · exact ⟨[], c :: cs, rfl, rfl⟩
    · obtain ⟨before, after, rfl, hinsert⟩ := ih
      exact ⟨c :: before, after, rfl, by rw [hinsert, List.cons_append]⟩

theorem adds_insertEntry {entry : Element} {above : String}
    {item : String × Value} (h : readChild above entry = .ok [item]) :
    Adds above item (insertEntry entry) := by
  intro children items hitems
  obtain ⟨before, after, rfl, hinsert⟩ := exists_insertEntry entry children
  obtain ⟨front, back, hfront, hback, rfl⟩ := of_readChildren_append hitems
  refine ⟨front ++ item :: back, ?_, List.perm_middle⟩
  rw [hinsert, readChildren_append, readChildren, hfront, h, hback]
  rfl

/-- A change below a directory is a change around it. -/
theorem adds_inDirectory {name above : String} (hsegment : Path.isSegment name)
    {item : String × Value} {change : List Element → List Element}
    (h : Adds (above ++ "/" ++ name) item change) :
    Adds above item (inDirectory name change) := by
  intro children
  induction children with
  | nil =>
    intro items hitems
    obtain rfl := Except.ok.inj hitems
    obtain ⟨items, hitems, hperm⟩ := h [] [] rfl
    refine ⟨items ++ [], ?_, by rwa [List.append_nil]⟩
    rw [inDirectory, readChildren, readChild_dir rfl rfl hsegment]
    simp only [bind, Except.bind, hitems]
    rfl
  | cons c cs ih =>
    intro items hitems
    obtain ⟨first, hfirst, hitems⟩ := bind_eq_ok hitems
    obtain ⟨rest, hrest, hitems⟩ := bind_eq_ok hitems
    obtain rfl := Except.ok.inj hitems
    rw [inDirectory]
    split
    · rename_i hc
      rw [readChild_dir hc.1 hc.2 hsegment] at hfirst
      obtain ⟨first', hfirst', hperm⟩ := h c.children first hfirst
      refine ⟨first' ++ rest, ?_, hperm.append_right rest⟩
      let c' : Element := { c with children := change c.children }
      have hdir : c'.name = "dir" := hc.1
      have hname : c'.attribute? "name" = some name := hc.2
      have hread : readChild above c' = .ok first' :=
        (readChild_dir hdir hname hsegment).trans hfirst'
      rw [readChildren, hread]
      simp only [bind, Except.bind, hrest]
      rfl
    · obtain ⟨rest', hrest', hperm⟩ := ih rest hrest
      refine ⟨first ++ rest', ?_, ?_⟩
      · rw [readChildren]
        simp only [bind, Except.bind, hfirst, hrest']
        rfl
      · exact (hperm.append_left first).trans List.perm_middle

/-- A value that is put at a place is read there. -/
theorem adds_insertAt (value : Value) {place : Path} (hplace : place.IsValid)
    (above : String) :
    Adds above (above ++ place.text, value.canonical) (insertAt value place) := by
  induction place, hplace using Path.IsValid.induction generalizing above with
  | single name h =>
    rw [Path.text_singleton, ← String.append_assoc, insertAt_singleton]
    exact adds_insertEntry (readChild_entry (name_entryOf name value)
      (attribute?_entryOf name value) h.head (ofElement_entryOf name value))
  | longer name rest h hrest ih =>
    rw [Path.text_cons name hrest.1, ← String.append_assoc, ← String.append_assoc,
      insertAt_cons value name hrest.1]
    exact adds_inDirectory h.head (ih (above ++ "/" ++ name))

/-- Values that are put in place one after the other are read there. -/
theorem readChildren_putAll {above : String}
    {items : List (Path × Value)} (hitems : ∀ x ∈ items, x.1.IsValid)
    {children : List Element} {before : List (String × Value)}
    (hchildren : readChildren above children = .ok before) :
    ∃ found, readChildren above (putAll items children) = .ok found ∧
      found.Perm
        ((items.map fun x => (above ++ x.1.text, x.2.canonical)) ++ before) := by
  induction items generalizing children before with
  | nil => exact ⟨before, hchildren, .refl _⟩
  | cons x items ih =>
    obtain ⟨hx, hrest⟩ := List.forall_mem_cons.1 hitems
    obtain ⟨next, hnext, hperm⟩ := adds_insertAt x.2 hx above children before hchildren
    obtain ⟨found, hfound, hall⟩ := ih hrest hnext
    refine ⟨found, hfound, hall.trans ?_⟩
    exact (hperm.append_left _).trans List.perm_middle

/-! ## The settings of a snapshot -/

/-- The text of the path under which the places of a snapshot lie. -/
def aboveOf : Option String → String
  | none => ""
  | some backend => "/" ++ backend

theorem aboveOf_append_text {backend : Option String} {path : Path}
    (hb : path.IsBelow backend) :
    aboveOf backend ++ (place backend path).text = path.text := by
  cases backend with
  | none => exact String.empty_append
  | some b =>
    obtain ⟨rest, hne, rfl⟩ := hb b rfl
    exact (Path.text_cons b hne).symm

theorem isValid_place {backend : Option String} {path : Path}
    (hv : path.IsValid) (hb : path.IsBelow backend) :
    (place backend path).IsValid := by
  cases backend with
  | none => exact hv
  | some b =>
    obtain ⟨rest, hne, rfl⟩ := hb b rfl
    exact hv.tail hne

section Named

variable {backend : Option String} {items : List (Path × Value)}
  (hv : ∀ x ∈ items, x.1.IsValid) (hb : ∀ x ∈ items, x.1.IsBelow backend)

include hv hb

theorem sorted_named_perm : (sorted backend (named items)).Perm
    (items.map fun x => (place backend x.1, x.2)) :=
  placed_named hv hb ▸ sorted_perm backend (named items)

theorem isValid_of_mem_sorted : ∀ x ∈ sorted backend (named items), x.1.IsValid := by
  intro x hx
  obtain ⟨y, hy, rfl⟩ :=
    List.mem_map.1 ((sorted_named_perm hv hb).mem_iff.1 hx)
  exact isValid_place (hv y hy) (hb y hy)

/-- A snapshot reads back as the settings that it was made of. -/
theorem readChildren_toElement :
    ∃ found, readChildren (aboveOf backend)
        (toElement backend (named items)).children = .ok found ∧
      found.Perm (items.map fun x => (x.1.text, x.2.canonical)) := by
  have hnil : readChildren (aboveOf backend) [] = .ok [] := rfl
  obtain ⟨found, hfound, hall⟩ :=
    readChildren_putAll (isValid_of_mem_sorted hv hb) hnil
  refine ⟨found, hfound, ?_⟩
  rw [List.append_nil] at hall
  refine hall.trans (((sorted_named_perm hv hb).map _).trans (.of_eq ?_))
  rw [List.map_map]
  refine List.map_congr_left fun x hx => ?_
  show (aboveOf backend ++ (place backend x.1).text, x.2.canonical) = _
  rw [aboveOf_append_text (hb x hx)]

end Named

/-! ## Canonical values -/

/-- The settings with canonical values. -/
def canonical {α : Type} (items : List (α × Value)) : List (α × Value) :=
  items.map fun x => (x.1, x.2.canonical)

theorem insertAt_canonical (value : Value) (place : Path) :
    insertAt value.canonical place = insertAt value place := by
  induction place with
  | nil => rfl
  | cons name rest ih =>
    by_cases hrest : rest = []
    · rw [hrest, insertAt_singleton, insertAt_singleton, entryOf, entryOf,
        Value.writeOnto_canonical]
    · rw [insertAt_cons _ name hrest, insertAt_cons _ name hrest, ih]

/-- Canonical values are sorted as the values are. -/
theorem sorted_canonical (backend : Option String)
    (items : List (String × Value)) :
    sorted backend (canonical items) = canonical (sorted backend items) := by
  have hplaced : placed backend (canonical items) =
      canonical (placed backend items) := by
    rw [placed, canonical, List.filterMap_map, canonical, placed,
      List.map_filterMap]
    simp [Function.comp_def]
  rw [sorted_eq, sorted_eq, hplaced, canonical, canonical]
  refine (List.map_mergeSort ?_).symm
  intro x _ y _
  rfl

/-- A snapshot has canonical values. -/
theorem toElement_canonical (backend : Option String)
    (items : List (String × Value)) :
    toElement backend (canonical items) = toElement backend items := by
  unfold toElement
  rw [sorted_canonical, canonical, List.foldl_map]
  simp only [insertAt_canonical]

end SettingsArchive.Snapshot
