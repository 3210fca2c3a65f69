import SettingsArchive.Proofs.Base64
import SettingsArchive.Proofs.Binary64.Text
import SettingsArchive.Proofs.Numeral
import SettingsArchive.Proofs.Xml.Document
import SettingsArchive.Value.Xml

/-!
# Values read back

A value reads back from the element that it is written onto
(`ofElement_writeOnto`), and that element is plain (`isPlain_writeOnto`).  All
NaNs have one text, so a NaN reads back as the one that reading produces, and
`canonical` is the value with that one in place of others.  A value without a
NaN is canonical.
-/

namespace SettingsArchive.Value

open Xml (Element)

mutual

/-- Whether a NaN occurs in a value. -/
def hasNaN : Value → Bool
  | .float x => x.isNaN
  | .struct fields => fieldsHaveNaN fields
  | _ => false

/-- Whether a NaN occurs in some fields. -/
def fieldsHaveNaN : List (String × Value) → Bool
  | [] => false
  | (_, v) :: fields => hasNaN v || fieldsHaveNaN fields

end

mutual

/-- The value with one NaN for all. -/
def canonical : Value → Value
  | .float x => .float (if x.isNaN then .nan else x)
  | .struct fields => .struct (canonicalFields fields)
  | v => v

/-- The fields with one NaN for all. -/
def canonicalFields : List (String × Value) → List (String × Value)
  | [] => []
  | (name, v) :: fields => (name, canonical v) :: canonicalFields fields

end

@[simp]
theorem kind_canonical (v : Value) : v.canonical.kind = v.kind := by
  cases v <;> simp [canonical, kind]

mutual

/-- A value without a NaN is canonical. -/
theorem canonical_of_hasNaN (v : Value) (h : v.hasNaN = false) :
    v.canonical = v := by
  match v with
  | .float x =>
    have hx : x.isNaN = false := h
    simp [canonical, hx]
  | .struct fields => rw [canonical, canonicalFields_of_hasNaN fields h]
  | .bool _ | .int _ | .string _ | .bytes _ => rfl

theorem canonicalFields_of_hasNaN (fields : List (String × Value))
    (h : fieldsHaveNaN fields = false) : canonicalFields fields = fields := by
  match fields with
  | [] => rfl
  | (name, v) :: fields =>
    simp only [fieldsHaveNaN, Bool.or_eq_false_iff] at h
    rw [canonicalFields, canonical_of_hasNaN v h.1,
      canonicalFields_of_hasNaN fields h.2]

end

mutual

/-- The canonical form of a value is canonical. -/
@[simp]
theorem canonical_canonical (v : Value) : v.canonical.canonical = v.canonical := by
  match v with
  | .float x => by_cases hx : x.isNaN <;> simp [canonical, hx]
  | .struct fields =>
    simp only [canonical, canonicalFields_canonicalFields fields]
  | .bool _ | .int _ | .string _ | .bytes _ => rfl

theorem canonicalFields_canonicalFields (fields : List (String × Value)) :
    canonicalFields (canonicalFields fields) = canonicalFields fields := by
  match fields with
  | [] => rfl
  | (name, v) :: fields =>
    simp only [canonicalFields, canonical_canonical v,
      canonicalFields_canonicalFields fields]

end

/-! ## The element of a value -/

theorem writeFields_eq (e : Element) (fields : List (String × Value)) :
    writeFields e fields =
      { e with children := e.children ++
          fields.map fun x => writeOnto (fieldElement x.1) x.2 } := by
  induction fields generalizing e with
  | nil =>
    obtain ⟨name, attributes, children, text⟩ := e
    simp [writeFields]
  | cons x fields ih =>
    rw [writeFields, ih]
    simp [Element.push]

/-- Writing a value names its kind. -/
theorem attributes_writeOnto (e : Element) (v : Value) :
    (writeOnto e v).attributes =
      (e.setAttribute "type" v.kind.name).attributes := by
  cases v with
  | struct fields => rw [writeOnto, writeFields_eq]; rfl
  | _ => simp [writeOnto]

theorem name_writeOnto (e : Element) (v : Value) :
    (writeOnto e v).name = e.name := by
  cases v with
  | struct fields => rw [writeOnto, writeFields_eq]; rfl
  | _ => simp [writeOnto, Element.setAttribute]

/-- The kind of a value is read off the element. -/
theorem kindOf_writeOnto (e : Element) (v : Value) :
    kindOf (writeOnto e v) = .ok v.kind := by
  have htype : (writeOnto e v).attribute? "type" = some v.kind.name := by
    have hset := Element.attribute?_setAttribute e "type" v.kind.name
    unfold Element.attribute? at *
    rw [attributes_writeOnto, hset]
  rw [kindOf, htype]
  simp only [Kind.ofName?_name]

/-- The value of an element of a known kind. -/
theorem ofElement_of_kindOf {e : Element} {k : Kind} (h : kindOf e = .ok k) :
    ofElement e =
      if k = .struct then .struct <$> readFields e.children
      else readText e.text k := by
  obtain ⟨name, attributes, children, text⟩ := e
  unfold ofElement
  rw [h]
  by_cases hk : k = .struct
  · rw [if_pos hk, hk]
  · rw [if_neg hk]
    cases k with
    | struct => exact absurd rfl hk
    | _ => rfl

/-- The text of a value that is not a struct reads back. -/
theorem readText_plainText {v : Value} (hk : v.kind ≠ .struct) :
    readText v.plainText v.kind = .ok v.canonical := by
  cases v with
  | bool b => cases b <;> rfl
  | int n =>
    simp only [plainText, kind, readText, Numeral.trim_toString_int,
      Numeral.readInt64_toString]
    rfl
  | float x =>
    have hread : Binary64.read? x.plainChars =
        some (if x.isNaN then .nan else x) := by
      cases hx : x.isNaN with
      | true => simpa using Binary64.read?_plainChars_of_isNaN hx
      | false => simpa using Binary64.read?_plainChars hx
    simp only [plainText, kind, readText, Binary64.plainText,
      String.toList_ofList, Binary64.trim_plainChars, hread]
    rfl
  | string text => rfl
  | bytes data =>
    simp only [plainText, kind, readText, Base64.decode_text]
    rfl
  | struct fields => exact absurd rfl hk

/-- Below a value that is not a struct nothing is written. -/
theorem writeOnto_of_ne {v : Value} (hk : v.kind ≠ .struct) (e : Element) :
    writeOnto e v =
      { e.setAttribute "type" v.kind.name with text := v.plainText } := by
  cases v with
  | struct fields => exact absurd rfl hk
  | _ => simp [writeOnto]

theorem ofElement_writeOnto_of_ne {v : Value} (hk : v.kind ≠ .struct)
    (e : Element) : ofElement (writeOnto e v) = .ok v.canonical := by
  rw [ofElement_of_kindOf (kindOf_writeOnto e v), if_neg hk, writeOnto_of_ne hk]
  exact readText_plainText hk

theorem isPlain_writeOnto_of_ne {v : Value} (hk : v.kind ≠ .struct) {e : Element}
    (htag : e.HasPlainTag) (hchildren : e.children = []) :
    (writeOnto e v).IsPlain := by
  have hset : (e.setAttribute "type" v.kind.name).HasPlainTag :=
    htag.setAttribute (by decide) _
  rw [writeOnto_of_ne hk]
  refine .intro ⟨hset.name, hset.keys, hset.distinct⟩ (Or.inl hchildren) ?_
  simp [Element.setAttribute, hchildren]

/-- Writing a value leaves the other attributes. -/
theorem attribute?_writeOnto {key : String} (h : key ≠ "type") (e : Element)
    (v : Value) : (writeOnto e v).attribute? key = e.attribute? key := by
  have hset := Element.attribute?_setAttribute_of_ne h e v.kind.name
  unfold Element.attribute? at *
  rw [attributes_writeOnto, hset]

theorem attribute?_writeOnto_fieldElement (name : String) (v : Value) :
    (writeOnto (fieldElement name) v).attribute? "name" = some name :=
  attribute?_writeOnto (by decide) _ v

mutual

/-- A value reads back from the element it is written onto. -/
theorem ofElement_writeOnto (v : Value) (e : Element) (he : e.children = []) :
    ofElement (writeOnto e v) = .ok v.canonical := by
  match v with
  | .struct fields =>
    have hchildren : (writeOnto e (.struct fields)).children =
        fields.map fun x => writeOnto (fieldElement x.1) x.2 := by
      rw [writeOnto, writeFields_eq]
      simp [Element.setAttribute, he]
    have hkind : (struct fields).kind = .struct := rfl
    rw [ofElement_of_kindOf (kindOf_writeOnto e (.struct fields)), if_pos hkind,
      hchildren, readFields_map fields]
    rfl
  | .bool _ | .int _ | .float _ | .string _ | .bytes _ =>
    exact ofElement_writeOnto_of_ne (by nofun) e

/-- The fields of a struct read back from their elements. -/
theorem readFields_map (fields : List (String × Value)) :
    readFields (fields.map fun x => writeOnto (fieldElement x.1) x.2) =
      .ok (canonicalFields fields) := by
  match fields with
  | [] => rfl
  | (name, v) :: fields =>
    have hname : (writeOnto (fieldElement name) v).name = "field" :=
      name_writeOnto _ v
    rw [List.map_cons, readFields, if_pos hname,
      attribute?_writeOnto_fieldElement]
    simp only [ofElement_writeOnto v (fieldElement name) rfl,
      readFields_map fields]
    rfl

end

/-- All NaNs have one text. -/
theorem plainText_canonical {v : Value} (hk : v.kind ≠ .struct) :
    v.canonical.plainText = v.plainText := by
  cases v with
  | float x =>
    by_cases hx : x.isNaN
    · have hnan : Binary64.nan.isNaN := by decide
      simp [canonical, plainText, Binary64.plainText, Binary64.plainChars, hx,
        hnan]
    · simp [canonical, hx]
  | struct fields => exact absurd rfl hk
  | _ => rfl

mutual

/-- A value and its canonical form have the same element. -/
theorem writeOnto_canonical (e : Element) (v : Value) :
    writeOnto e v.canonical = writeOnto e v := by
  match v with
  | .struct fields =>
    rw [canonical, writeOnto, writeOnto, writeFields_eq, writeFields_eq,
      map_writeOnto_canonicalFields fields]
  | .bool b => rfl
  | .int n => rfl
  | .float x =>
    have hk : (float x).kind ≠ .struct := by nofun
    rw [writeOnto_of_ne hk, writeOnto_of_ne (by rw [kind_canonical]; exact hk),
      kind_canonical, plainText_canonical hk]
  | .string text => rfl
  | .bytes data => rfl

theorem map_writeOnto_canonicalFields (fields : List (String × Value)) :
    ((canonicalFields fields).map fun x => writeOnto (fieldElement x.1) x.2) =
      fields.map fun x => writeOnto (fieldElement x.1) x.2 := by
  match fields with
  | [] => rfl
  | (name, v) :: fields =>
    rw [canonicalFields, List.map_cons, List.map_cons,
      writeOnto_canonical (fieldElement name) v,
      map_writeOnto_canonicalFields fields]

end

theorem hasPlainTag_fieldElement (name : String) :
    (fieldElement name).HasPlainTag :=
  Element.hasPlainTag_of_keys "field" ["name"] rfl rfl (by decide)

mutual

/-- The element of a value is plain. -/
theorem isPlain_writeOnto (v : Value) {e : Element} (htag : e.HasPlainTag)
    (hchildren : e.children = []) (htext : e.text = "") :
    (writeOnto e v).IsPlain := by
  match v with
  | .struct fields =>
    have hset : (e.setAttribute "type" Kind.struct.name).HasPlainTag :=
      htag.setAttribute (by decide) _
    rw [writeOnto, writeFields_eq]
    refine .intro ⟨hset.name, hset.keys, hset.distinct⟩ (Or.inr htext) ?_
    simp only [Element.setAttribute, hchildren, List.nil_append]
    exact isPlain_fields fields
  | .bool _ | .int _ | .float _ | .string _ | .bytes _ =>
    exact isPlain_writeOnto_of_ne (by nofun) htag hchildren

theorem isPlain_fields (fields : List (String × Value)) :
    ∀ c ∈ fields.map fun x => writeOnto (fieldElement x.1) x.2,
      Element.IsPlain c := by
  match fields with
  | [] => simp
  | (name, v) :: fields =>
    intro c hc
    rcases List.mem_cons.1 hc with rfl | hc
    · exact isPlain_writeOnto v (hasPlainTag_fieldElement name) rfl rfl
    · exact isPlain_fields fields c hc

end

end SettingsArchive.Value
