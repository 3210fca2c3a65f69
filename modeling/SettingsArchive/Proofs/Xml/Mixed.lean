import SettingsArchive.Proofs.Xml.Document

/-!
# Text beside children

An element may hold text and children, but only the text of an element without
children is written, and between children all text is read as layout.  So a
document does not show the text beside children, and `unmixed` is an element
without any.

For elements with plain tags that is all that a document loses.  The document of
such an element reads back as the element without text beside children, and hence
as the element itself exactly if there is none (`read_document_iff_unmixed`).
-/

namespace SettingsArchive.Xml.Element

/-- An element and all elements in it meet a condition. -/
inductive Every (P : Element → Prop) : Element → Prop where
  | intro {e : Element} (here : P e) (inner : ∀ c ∈ e.children, Every P c) :
    Every P e

/-- An element has no children or no text. -/
def IsUnmixed (e : Element) : Prop :=
  e.children = [] ∨ e.text = ""

mutual

/-- The element without text beside children. -/
def unmixed : Element → Element
  | ⟨name, attributes, children, text⟩ =>
    { name, attributes
      children := unmixedAll children
      text := if children.isEmpty then text else "" }

/-- The elements without text beside children. -/
def unmixedAll : List Element → List Element
  | [] => []
  | e :: es => unmixed e :: unmixedAll es

end

theorem unmixedAll_eq_map (es : List Element) : unmixedAll es = es.map unmixed := by
  induction es with
  | nil => rfl
  | cons e es ih => rw [unmixedAll, ih, List.map_cons]

theorem unmixed_eq (e : Element) :
    e.unmixed = { e with
      children := e.children.map unmixed
      text := if e.children.isEmpty then e.text else "" } := by
  obtain ⟨name, attributes, children, text⟩ := e
  rw [unmixed, unmixedAll_eq_map]

mutual

/-- Text beside children is not written. -/
theorem chars_unmixed (depth : Nat) (e : Element) :
    chars depth e.unmixed = chars depth e := by
  match e with
  | ⟨name, attributes, [], text⟩ => rfl
  | ⟨name, attributes, child :: children, text⟩ =>
    rw [unmixed, unmixedAll, chars, chars, chars_unmixed (depth + 1) child,
      charsOfAll_unmixedAll (depth + 1) children]
    rfl

theorem charsOfAll_unmixedAll (depth : Nat) (es : List Element) :
    charsOfAll depth (unmixedAll es) = charsOfAll depth es := by
  match es with
  | [] => rfl
  | e :: es =>
    rw [unmixedAll, charsOfAll, charsOfAll, chars_unmixed depth e,
      charsOfAll_unmixedAll depth es]

end

theorem document_unmixed (e : Element) : e.unmixed.document = e.document := by
  rw [document, document, chars_unmixed]

/-- Without text beside children an element with plain tags is plain. -/
theorem Every.isPlain_unmixed {e : Element} (h : e.Every HasPlainTag) :
    e.unmixed.IsPlain := by
  induction h with
  | @intro e tag _ ih =>
    rw [unmixed_eq]
    refine .intro ⟨tag.name, tag.keys, tag.distinct⟩ ?_ (List.forall_mem_map.2 ih)
    by_cases hleaf : e.children = []
    · exact Or.inl (by rw [hleaf, List.map_nil])
    · exact Or.inr (if_neg (by simpa using hleaf))

/-- An element without text beside children stays as it is. -/
theorem Every.unmixed_eq_self {e : Element} (h : e.Every IsUnmixed) :
    e.unmixed = e := by
  induction h with
  | @intro e here _ ih =>
    have hchildren : e.children.map unmixed = e.children :=
      (List.map_congr_left ih).trans (List.map_id e.children)
    have htext : (if e.children.isEmpty then e.text else "") = e.text := by
      rcases here with hleaf | hnone
      · rw [hleaf]
        rfl
      · rw [hnone, ite_self]
    rw [unmixed_eq, hchildren, htext]
    cases e
    rfl

mutual

theorem every_of_unmixed_eq_self (e : Element) (h : e.unmixed = e) :
    e.Every IsUnmixed := by
  match e with
  | ⟨name, attributes, children, text⟩ =>
    rw [unmixed] at h
    injection h with _ _ hchildren htext
    refine .intro ?_ (every_of_unmixedAll_eq_self children hchildren)
    by_cases hleaf : children = []
    · exact Or.inl hleaf
    · refine Or.inr (htext.symm.trans (if_neg ?_))
      simpa using hleaf

theorem every_of_unmixedAll_eq_self (es : List Element)
    (h : unmixedAll es = es) : ∀ e ∈ es, e.Every IsUnmixed := by
  match es with
  | [] => exact nofun
  | e :: es =>
    rw [unmixedAll] at h
    obtain ⟨he, hes⟩ := List.cons.inj h
    exact List.forall_mem_cons.2
      ⟨every_of_unmixed_eq_self e he, every_of_unmixedAll_eq_self es hes⟩

end

theorem read_document_of_every {e : Element} (h : e.Every HasPlainTag) :
    Element.read e.document = .ok e.unmixed := by
  rw [← document_unmixed]
  exact read_document h.isPlain_unmixed

/-- The document of any element with plain tags is read, and gives the element
without text beside children: every attribute and every text of an element without
children with all its characters, and no layout.  So it gives the element itself
exactly if no element in it has both children and text, and two such elements have
one document only where they are the same but for text beside children. -/
theorem read_document_iff_unmixed {e : Element} (h : e.Every HasPlainTag) :
    Element.read e.document = .ok e.unmixed ∧
      (Element.read e.document = .ok e ↔ e.Every IsUnmixed) ∧
      ∀ f : Element, f.Every HasPlainTag →
        (f.document = e.document ↔ f.unmixed = e.unmixed) := by
  have hread := read_document_of_every h
  refine ⟨hread, ?_, fun f hf => ⟨fun heq => ?_, fun heq => ?_⟩⟩
  · rw [hread, Except.ok.injEq]
    exact ⟨every_of_unmixed_eq_self e, Every.unmixed_eq_self⟩
  · have hother := read_document_of_every hf
    rw [heq, hread] at hother
    exact (Except.ok.inj hother).symm
  · rw [← document_unmixed f, heq, document_unmixed]

/-- Blanks and marks in texts and values are read back, and text beside children
is not. -/
theorem read_document_of_blank_text :
    let value : Element := ⟨"value", [("type", "string")], [], " \n\t<a> & 'b' "⟩
    let blank : Element := ⟨"field", [("name", " \n\"x\" ")], [], "\r\n  "⟩
    let single : Element := ⟨"dir", [], [], ""⟩
    let root : Element := ⟨"config", [], [value, ⟨"dir", [], [blank], ""⟩, single], ""⟩
    Element.read root.document = .ok root ∧
      Element.read (Element.document { root with text := "x" }) = .ok root := by
  intro value blank single root
  have hdir {children : List Element} {text : String} :
      HasPlainTag ⟨"dir", [], children, text⟩ :=
    hasPlainTag_of_keys "dir" [] rfl rfl (by decide)
  have hvalue : value.Every HasPlainTag :=
    .intro (hasPlainTag_of_keys "value" ["type"] rfl rfl (by decide)) nofun
  have hblank : blank.Every HasPlainTag :=
    .intro (hasPlainTag_of_keys "field" ["name"] rfl rfl (by decide)) nofun
  have hinner : ∀ c ∈ root.children, c.Every HasPlainTag := by
    refine List.forall_mem_cons.2 ⟨hvalue, List.forall_mem_cons.2 ⟨?_, ?_⟩⟩
    · exact .intro hdir (List.forall_mem_singleton.2 hblank)
    · exact List.forall_mem_singleton.2 (.intro hdir nofun)
  have htag {text : String} : HasPlainTag { root with text } :=
    hasPlainTag_of_keys "config" [] rfl rfl (by decide)
  obtain ⟨hread, -⟩ := read_document_iff_unmixed (.intro htag hinner)
  obtain ⟨hmixed, -⟩ :=
    read_document_iff_unmixed (e := { root with text := "x" }) (.intro htag hinner)
  exact ⟨hread, hmixed⟩

end SettingsArchive.Xml.Element
