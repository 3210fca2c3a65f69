import SettingsArchive.Proofs.Operations
import SettingsArchive.Proofs.Value

/-!
# Values in the text of a document

All NaNs have one text, and reading gives one NaN for it.  `Alike` says that two
values are the same but for the bits of their NaNs: numbers are compared by their
bits, a zero and a negative zero are different, and everything else is equal.

A value that is written onto an empty element and read from the text of the
document is alike to the one that was written.  What is read from any element can
be written again, and then the same is read (`alike_of_document`).
-/

namespace SettingsArchive

/-- A kind has one name. -/
theorem Kind.name_of_ofName? {name : String} {k : Kind}
    (h : Kind.ofName? name = some k) : k.name = name := by
  unfold Kind.ofName? at h
  split at h
  all_goals cases h
  all_goals rfl

namespace Value

open Xml (Element)

/-! ## Values that are alike -/

mutual

/-- The values are the same, bit for bit, except that a NaN may be another NaN. -/
def Alike : Value → Value → Prop
  | .float x, .float y => x = y ∨ x.isNaN ∧ y.isNaN
  | .struct fields, .struct others => AlikeFields fields others
  | v, w => v = w

/-- The fields have the same names in the same order, and values that are
alike. -/
def AlikeFields : List (String × Value) → List (String × Value) → Prop
  | [], [] => True
  | (name, v) :: fields, (other, w) :: others =>
    name = other ∧ Alike v w ∧ AlikeFields fields others
  | _, _ => False

end

mutual

theorem alike_canonical (v : Value) : Alike v v.canonical := by
  match v with
  | .float x =>
    rw [canonical, Alike]
    by_cases hx : x.isNaN
    · rw [if_pos hx]
      exact Or.inr ⟨hx, by decide⟩
    · rw [if_neg hx]
      exact Or.inl rfl
  | .struct fields =>
    rw [canonical, Alike]
    exact alikeFields_canonicalFields fields
  | .bool _ | .int _ | .string _ | .bytes _ => rfl

theorem alikeFields_canonicalFields (fields : List (String × Value)) :
    AlikeFields fields (canonicalFields fields) := by
  match fields with
  | [] => trivial
  | (name, v) :: fields =>
    rw [canonicalFields, AlikeFields]
    exact ⟨rfl, alike_canonical v, alikeFields_canonicalFields fields⟩

end

/-! ## What was read -/

theorem kind_of_readText {text : String} {k : Kind} {v : Value}
    (h : readText text k = .ok v) : v.kind = k := by
  cases k with
  | bool =>
    simp only [readText] at h
    split at h
    · cases h
      rfl
    · split at h
      · cases h
        rfl
      · cases h
  | int | float | bytes =>
    simp only [readText] at h
    split at h
    · cases h
      rfl
    · cases h
  | string | struct =>
    cases h
    rfl

/-- The kind of what was read is the one that the element names. -/
theorem kindOf_of_ofElement {e : Element} {v : Value} (h : ofElement e = .ok v) :
    kindOf e = .ok v.kind := by
  cases hk : kindOf e with
  | error fault =>
    obtain ⟨name, attributes, children, text⟩ := e
    unfold ofElement at h
    rw [hk] at h
    cases h
  | ok k =>
    rw [ofElement_of_kindOf hk] at h
    split at h
    · rename_i hstruct
      obtain ⟨fields, -, rfl⟩ := map_eq_ok h
      rw [hstruct]
      rfl
    · rw [kind_of_readText h]

theorem attribute?_of_kindOf {e : Element} {k : Kind} (h : kindOf e = .ok k) :
    e.attribute? "type" = some k.name := by
  unfold kindOf at h
  split at h
  · cases h
  · rename_i name hname
    split at h
    · cases h
    · rename_i k' hk
      cases h
      rw [hname, Kind.name_of_ofName? hk]

/-! ## Documents -/

/-- A value that is written onto an empty element is read back from the text of the
document: numbers bit for bit, but for NaNs, and everything else as it was.  What
was read from any element is read again when it is written onto an empty one, which
then names the same kind, and writing what was read again gives the same element. -/
theorem alike_of_document :
    (∀ (v : Value) (e : Element), e.HasPlainTag → e.children = [] → e.text = "" →
      ∃ root w, Element.read (writeOnto e v).document = .ok root ∧
        ofElement root = .ok w ∧ v.Alike w) ∧
    ∀ (d : Element) (v : Value), ofElement d = .ok v →
      ∀ e : Element, e.children = [] →
        ∃ w, ofElement (writeOnto e v) = .ok w ∧ v.Alike w ∧
          (writeOnto e v).attribute? "type" = d.attribute? "type" ∧
          writeOnto e w = writeOnto e v := by
  constructor
  · intro v e htag hchildren htext
    exact ⟨_, v.canonical,
      Xml.read_document (isPlain_writeOnto v htag hchildren htext),
      ofElement_writeOnto v e hchildren, alike_canonical v⟩
  · intro d v hd e hchildren
    refine ⟨v.canonical, ofElement_writeOnto v e hchildren, alike_canonical v, ?_,
      writeOnto_canonical e v⟩
    rw [attribute?_of_kindOf (kindOf_of_ofElement hd),
      attribute?_of_kindOf (kindOf_writeOnto e v)]

/-- Fields of one name, an empty name, blanks, marks, an empty struct, a negative
zero and a NaN are read back, and so is what is read from an element with blanks
around its number. -/
theorem alike_of_nested_struct :
    let negativeZero : Binary64 := .ofMagnitude true 0
    let v : Value := .struct [("", .string " \n<a>&"), ("x", .float negativeZero),
      ("x", .struct []), ("x", .float (.ofMagnitude true Binary64.nan.magnitude)),
      ("y", .struct [("", .bytes [0, 255]), ("n", .int Int64.minValue)])]
    let d : Element := ⟨"entry", [("name", "k"), ("type", "int")], [], " +7\n"⟩
    (∃ root w, Element.read (writeOnto { name := "value" } v).document = .ok root ∧
      ofElement root = .ok w ∧ v.Alike w) ∧
    ∃ w, ofElement (writeOnto { name := "value" } (.int 7)) = .ok w ∧
      (Value.int 7).Alike w ∧
      (writeOnto { name := "value" } (.int 7)).attribute? "type" =
        d.attribute? "type" ∧
      writeOnto { name := "value" } w = writeOnto { name := "value" } (.int 7) := by
  intro negativeZero v d
  have htag : Element.HasPlainTag { name := "value" } :=
    Element.hasPlainTag_of_keys "value" [] rfl rfl (by decide)
  obtain ⟨hwritten, hread⟩ := alike_of_document
  exact ⟨hwritten v { name := "value" } htag rfl rfl,
    hread d (.int 7) (by rfl) { name := "value" } rfl⟩

end Value

end SettingsArchive
