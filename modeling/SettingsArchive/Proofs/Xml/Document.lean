import SettingsArchive.Proofs.Xml.Tag

/-!
# Documents read back

The text of a document reads back as the element it was written from
(`read_document`) if its names are plain, no key occurs twice in one tag, and
no element has both children and text.

An element is written on a line of its own.  The layout in front of it is read
as text of the element around it, and dropped when that element is closed,
since it has children then.
-/

namespace SettingsArchive.Xml

namespace Element

/-- Every tag in an element is plain, and every element has no children or no
text. -/
inductive IsPlain : Element → Prop where
  | intro {name : String} {attributes : List (String × String)}
      {children : List Element} {text : String}
      (tag : HasPlainTag ⟨name, attributes, children, text⟩)
      (leaf : children = [] ∨ text = "")
      (inner : ∀ c ∈ children, IsPlain c) :
      IsPlain ⟨name, attributes, children, text⟩

end Element

open Element

/-! ## Pieces -/

/-- Reading goes on behind a piece that can be added. -/
theorem readPieces_next (size : Nat) {o o' : Outline} {cs rest : List Char}
    {m : Markup} (hcs : cs ≠ []) (h : Markup.next cs = .ok (m, rest))
    (ho : o.add m = .ok o') :
    readPieces size o cs = readPieces size o' rest := by
  rw [readPieces, dif_neg hcs]
  split
  · rename_i fault hfault
    rw [h] at hfault
    cases hfault
  · rename_i m' rest' hnext
    rw [h] at hnext
    obtain ⟨rfl, rfl⟩ := Prod.mk.inj (Except.ok.inj hnext)
    simp only [ho]

theorem newLine_ne_nil (depth : Nat) : newLine depth ≠ [] := by
  simp [newLine]

/-- Layout is written as it is. -/
theorem escape_newLine (depth : Nat) : escape (newLine depth) = newLine depth := by
  have hblanks : ∀ n : Nat, escape (List.replicate n ' ') =
      List.replicate n ' ' := by
    intro n
    induction n with
    | zero => rfl
    | succ n ih =>
      rw [List.replicate_succ, escape, List.flatMap_cons, ← escape, ih]
      rfl
  rw [newLine, escape, List.flatMap_cons, ← escape, hblanks]
  rfl

theorem add_text {o : Outline} (cs : List Char) :
    o.add (.text (escape cs)) = .ok (o.write cs) := by
  unfold Outline.add
  simp only
  split
  · rename_i hnil
    rw [Outline.write, hnil]
  · rw [unescape_escape]
    rfl

/-- The layout in front of a tag is added to the element around it. -/
theorem readPieces_newLine (size : Nat) (o : Outline) (depth : Nat)
    (rest : List Char) :
    readPieces size o (newLine depth ++ '<' :: rest) =
      readPieces size (o.write (newLine depth)) ('<' :: rest) := by
  have hmark : '<' ∉ newLine depth := by
    intro hmem
    rw [← escape_newLine] at hmem
    exact (mem_escape_ne hmem).2.2.1 rfl
  refine readPieces_next size (by simp [newLine_ne_nil])
    (Markup.next_text rest (newLine_ne_nil depth) hmark) ?_
  rw [← escape_newLine, add_text, escape_newLine]

theorem closingName_of_name {name : String} (h : IsName name) :
    Outline.closingName name.toList = name := by
  have hname := h.forall_mem
  obtain ⟨c, cs, hcs, -, -⟩ := h
  have hnot : ¬ name.toList.all isSpace := by
    intro hall
    rw [List.all_eq_true] at hall
    have hc : c ∈ name.toList := hcs ▸ List.mem_cons_self
    have := (isNameChar_ne (hname c hc)).1
    rw [hall c hc] at this
    cases this
  have hreverse : name.toList.reverse.dropWhile isSpace =
      name.toList.reverse := by
    cases hr : name.toList.reverse with
    | nil => rfl
    | cons d ds =>
      have hd : d ∈ name.toList := by
        rw [← List.mem_reverse, hr]
        exact List.mem_cons_self
      rw [List.dropWhile_cons_of_neg
        (by simp [(isNameChar_ne (hname d hd)).1])]
  rw [Outline.closingName, if_neg hnot, hreverse, List.reverse_reverse,
    String.ofList_toList]

/-! ## Elements -/

/-- The tag that opens an element. -/
theorem readPieces_opening (size : Nat) (o : Outline) {e : Element}
    (h : e.HasPlainTag) (rest : List Char) :
    readPieces size o ('<' :: e.tagChars ++ '>' :: rest) =
      readPieces size { o with standing :=
        { name := e.name, attributes := e.attributes } :: o.standing } rest := by
  apply readPieces_next size (by simp) (Markup.next_opening h rest)
  simp only [Outline.add, ofTag_tagChars h]
  rfl

/-- The tag that closes an element. -/
theorem readPieces_closing (size : Nat) {o o' : Outline} {e : Element}
    (h : IsName e.name) (ho : o.attach (Outline.closed e) = .ok o')
    (rest : List Char) :
    readPieces size { o with standing := e :: o.standing }
        ('<' :: '/' :: e.name.toList ++ '>' :: rest) =
      readPieces size o' rest := by
  apply readPieces_next size (by simp) (Markup.next_closing h rest)
  simp only [Outline.add, closingName_of_name h, if_true]
  exact ho

/-- Reading goes on behind an element with the element added. -/
def ReadsBack (size : Nat) (e : Element) : Prop :=
  ∀ (o o' : Outline) (depth : Nat) (rest : List Char),
    (o.write (newLine depth)).attach e = .ok o' →
      readPieces size o (chars depth e ++ rest) = readPieces size o' rest

/-- Children that read back are added to the innermost element, one after the
other. -/
theorem readPieces_charsOfAll {size : Nat} {es : List Element}
    (h : ∀ e ∈ es, ReadsBack size e) (p : Element) (standing : List Element)
    (root : Option Element) (depth : Nat) (rest : List Char) :
    ∃ text, readPieces size ⟨p :: standing, root⟩
        (charsOfAll depth es ++ rest) =
      readPieces size ⟨{ p with text, children := p.children ++ es } :: standing,
        root⟩ rest := by
  induction es generalizing p with
  | nil =>
    obtain ⟨name, attributes, children, text⟩ := p
    refine ⟨text, ?_⟩
    rw [charsOfAll, List.nil_append, List.append_nil]
  | cons e es ih =>
    obtain ⟨text, hes⟩ := ih (fun c hc => h c (List.mem_cons_of_mem _ hc))
      ({ p with text := p.text ++ String.ofList (newLine depth) }.push e)
    have hfirst := h e List.mem_cons_self ⟨p :: standing, root⟩
      ⟨{ p with text := p.text ++ String.ofList (newLine depth) }.push e
        :: standing, root⟩ depth (charsOfAll depth es ++ rest) rfl
    refine ⟨text, ?_⟩
    rw [charsOfAll, List.append_assoc, hfirst, hes]
    simp [push]

/-- An element that holds nothing reads back. -/
theorem readsBack_of_empty (size : Nat) {name : String}
    {attributes : List (String × String)}
    (tag : HasPlainTag ⟨name, attributes, [], ""⟩) :
    ReadsBack size ⟨name, attributes, [], ""⟩ := by
  intro o o' depth rest ho
  have hchars : chars depth ⟨name, attributes, [], ""⟩ ++ rest =
      newLine depth ++ '<' ::
        ((tagChars ⟨name, attributes, [], ""⟩ ++ ['/']) ++ '>' :: rest) := by
    simp [chars]
  rw [hchars, readPieces_newLine]
  apply readPieces_next size (by simp) (Markup.next_single tag rest)
  simp only [Outline.add, ofTag_tagChars tag]
  exact ho

/-- An element with text reads back. -/
theorem readsBack_of_text (size : Nat) {name : String}
    {attributes : List (String × String)} {text : String}
    (tag : HasPlainTag ⟨name, attributes, [], text⟩) (htext : text ≠ "") :
    ReadsBack size ⟨name, attributes, [], text⟩ := by
  intro o o' depth rest ho
  have hne : escape text.toList ≠ [] := by
    intro hnil
    have hread := unescape_escape text.toList
    rw [hnil] at hread
    have hread : ([] : List Char) = text.toList := Except.ok.inj hread
    exact htext (String.toList_eq_nil_iff.1 hread.symm)
  have hmark : '<' ∉ escape text.toList :=
    fun hmem => (mem_escape_ne hmem).2.2.1 rfl
  have hchars : chars depth ⟨name, attributes, [], text⟩ ++ rest =
      newLine depth ++ '<' :: (tagChars ⟨name, attributes, [], text⟩ ++ '>' ::
        (escape text.toList ++ '<' :: '/' :: name.toList ++ '>' :: rest)) := by
    simp [chars, htext]
  rw [hchars, readPieces_newLine, ← List.cons_append, readPieces_opening _ _ tag,
    List.append_assoc, List.cons_append]
  rw [readPieces_next size (by simp) (Markup.next_text _ hne hmark)
    (add_text _)]
  have hwrite : Outline.write ⟨{ name, attributes } ::
      (o.write (newLine depth)).standing, (o.write (newLine depth)).root⟩
      text.toList = ⟨⟨name, attributes, [], text⟩ ::
        (o.write (newLine depth)).standing, (o.write (newLine depth)).root⟩ := by
    simp [Outline.write]
  rw [hwrite]
  exact readPieces_closing size (e := ⟨name, attributes, [], text⟩) tag.name ho
    rest

/-- An element reads back if its children do. -/
theorem readsBack_of_children (size : Nat) {name : String}
    {attributes : List (String × String)} {children : List Element}
    (tag : HasPlainTag ⟨name, attributes, children, ""⟩) (hne : children ≠ [])
    (h : ∀ c ∈ children, ReadsBack size c) :
    ReadsBack size ⟨name, attributes, children, ""⟩ := by
  intro o o' depth rest ho
  obtain ⟨child, children, rfl⟩ := List.exists_cons_of_ne_nil hne
  have hchars : chars depth ⟨name, attributes, child :: children, ""⟩ ++ rest =
      newLine depth ++ '<' ::
        (tagChars ⟨name, attributes, child :: children, ""⟩ ++ '>' ::
          (charsOfAll (depth + 1) (child :: children) ++ (newLine depth ++
            '<' :: ('/' :: name.toList ++ '>' :: rest)))) := by
    simp [chars, charsOfAll]
  obtain ⟨text, hall⟩ := readPieces_charsOfAll h { name, attributes }
    (o.write (newLine depth)).standing (o.write (newLine depth)).root (depth + 1)
    (newLine depth ++ '<' :: ('/' :: name.toList ++ '>' :: rest))
  rw [hchars, readPieces_newLine, ← List.cons_append, readPieces_opening _ _ tag,
    hall, readPieces_newLine]
  exact readPieces_closing size
    (e := ⟨name, attributes, child :: children,
      text ++ String.ofList (newLine depth)⟩) tag.name ho rest

theorem readsBack_of_isPlain (size : Nat) {e : Element} (h : e.IsPlain) :
    ReadsBack size e := by
  induction h with
  | @intro name attributes children text tag leaf inner ih =>
    rcases leaf with rfl | rfl
    · by_cases htext : text = ""
      · subst htext
        exact readsBack_of_empty size tag
      · exact readsBack_of_text size tag htext
    · by_cases hne : children = []
      · subst hne
        exact readsBack_of_empty size tag
      · exact readsBack_of_children size tag hne ih

/-! ## Documents -/

/-- The declaration in front of a document carries nothing. -/
theorem next_declaration (rest : List Char) :
    Markup.next (declaration ++ rest) = .ok (.ignored, rest) :=
  rfl

theorem readPieces_nil (size : Nat) (e : Element) :
    readPieces size { root := some e } [] = .ok e := by
  rw [readPieces]
  rfl

/-- The text of a document reads back as its root. -/
theorem read_document {e : Element} (h : e.IsPlain) :
    Element.read e.document = .ok e := by
  have hmark : declaration ++ (chars 0 e ++ ['\n']) =
      '<' :: (declaration.tail ++ (chars 0 e ++ ['\n'])) := rfl
  have hread : ∀ size,
      readPieces size {} (declaration ++ (chars 0 e ++ ['\n'])) = .ok e := by
    intro size
    have hdeclaration : readPieces size {}
        (declaration ++ (chars 0 e ++ ['\n'])) =
          readPieces size {} (chars 0 e ++ ['\n']) :=
      readPieces_next size (by simp [hmark]) (next_declaration _) rfl
    have hroot := readsBack_of_isPlain size h {} { root := some e } 0 ['\n'] rfl
    have hend : readPieces size { root := some e } ['\n'] =
        readPieces size { root := some e } [] :=
      readPieces_next size (m := .text ['\n']) (by simp) rfl rfl
    rw [hdeclaration, hroot, hend, readPieces_nil]
  unfold Element.read document
  rw [String.toList_ofList, List.append_assoc]
  split
  · rename_i heq
    rw [hmark] at heq
    cases heq
  · exact hread _

end SettingsArchive.Xml
