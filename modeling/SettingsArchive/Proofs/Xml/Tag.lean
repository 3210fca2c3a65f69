import Mathlib.Data.List.Nodup
import SettingsArchive.Proofs.Numeral
import SettingsArchive.Xml.Reader
import SettingsArchive.Xml.Writer

/-!
# Tags read back

Names and keys are written as they are, so a tag reads back where they are
plain names: a letter, and behind it letters, digits, hyphens and underscores.
Values may hold any characters, which are written as references where XML needs
it.

`ofTag_tagChars` says that the characters of a tag give the name and the
attributes of its element, and `cutTag_tagChars` that the tag is cut off where
it ends.
-/

namespace SettingsArchive.Xml

/-! ## Plain names -/

/-- A character that may stand behind the first one of a plain name. -/
def isNameChar (c : Char) : Bool :=
  c.isAlpha || c.isDigit || c == '-' || c == '_'

/-- A letter, and behind it letters, digits, hyphens and underscores. -/
def IsName (s : String) : Prop :=
  ∃ c cs, s.toList = c :: cs ∧ c.isAlpha ∧ ∀ d ∈ cs, isNameChar d

theorem IsName.forall_mem {s : String} (h : IsName s) :
    ∀ c ∈ s.toList, isNameChar c := by
  obtain ⟨c, cs, hs, hc, hcs⟩ := h
  rw [hs]
  intro d hd
  rcases List.mem_cons.1 hd with rfl | hd
  · simp [isNameChar, hc]
  · exact hcs d hd

theorem isName_iff {s : String} :
    IsName s ↔
      s.toList.head?.any Char.isAlpha && s.toList.tail.all isNameChar := by
  unfold IsName
  cases s.toList with
  | nil => simp
  | cons c cs => simp

instance (s : String) : Decidable (IsName s) :=
  decidable_of_iff' _ isName_iff

/-- What a plain name does not hold. -/
theorem isNameChar_ne {c : Char} (h : isNameChar c) :
    isSpace c = false ∧ c ≠ '=' ∧ c ≠ '"' ∧ c ≠ '\'' ∧ c ≠ '<' ∧ c ≠ '>' ∧
      c ≠ '/' ∧ c ≠ '!' ∧ c ≠ '?' := by
  refine ⟨?_, ?_, ?_, ?_, ?_, ?_, ?_, ?_, ?_⟩
  · rw [Bool.eq_false_iff]
    intro hs
    simp only [isSpace, Bool.or_eq_true, beq_iff_eq] at hs
    rcases hs with ((rfl | rfl) | rfl) | rfl <;> exact absurd h (by decide)
  all_goals
    rintro rfl
    exact absurd h (by decide)

/-! ## Written values -/

/-- A written value holds no mark of a tag and no quotation mark. -/
theorem mem_escape_ne {cs : List Char} {c : Char} (h : c ∈ escape cs) :
    c ≠ '"' ∧ c ≠ '\'' ∧ c ≠ '<' ∧ c ≠ '>' := by
  rw [escape, List.mem_flatMap] at h
  obtain ⟨d, -, hd⟩ := h
  unfold escapeChar at hd
  split at hd
  case h_6 h1 h2 h3 h4 h5 =>
    obtain rfl := List.mem_singleton.1 hd
    exact ⟨h5, h4, h1, h2⟩
  all_goals
    refine ⟨?_, ?_, ?_, ?_⟩ <;>
      (rintro rfl; exact absurd hd (by decide))

/-- A value between quotation marks reads back. -/
theorem readValue_escape (stop : Nat) (value rest : List Char) :
    readValue stop ('"' :: escape value ++ '"' :: rest) = .ok (value, rest) := by
  have hquote : ∀ c ∈ escape value, (fun c => decide (c ≠ '"')) c := by
    intro c hc
    simpa using (mem_escape_ne hc).1
  rw [List.cons_append, readValue, if_neg (by simp), if_pos (by simp),
    Text.takeWhile_append_rest hquote (by simp),
    Text.dropWhile_append_rest hquote (by simp), unescape_escape]
  rfl

/-! ## Attributes -/

theorem lookup_eq_none_of_notMem {seen : List (List Char × Nat)}
    {key : List Char} (h : key ∉ seen.map Prod.fst) : seen.lookup key = none := by
  rw [List.lookup_eq_none_iff]
  intro x hx
  rw [bne_iff_ne]
  rintro rfl
  exact h (List.mem_map_of_mem hx)

/-- The first attribute of a tag reads back. -/
theorem readAttributes_append (stop : Nat) {seen : List (List Char × Nat)}
    {key : String} (value : String) (rest : List Char) (hkey : IsName key)
    (hseen : key.toList ∉ seen.map Prod.fst) :
    ∃ position, readAttributes stop seen (attributeChars (key, value) ++ rest) =
      ((key, value) :: ·) <$>
        readAttributes stop ((key.toList, position) :: seen) rest := by
  obtain ⟨c, cs, hchars, hc, hcs⟩ := hkey
  -- The key runs to the sign of equality.
  have hends : ∀ d ∈ cs, (fun d => !endsKey d) d := by
    intro d hd
    obtain ⟨hspace, hequal, -⟩ := isNameChar_ne (hcs d hd)
    simp [endsKey, hspace, hequal]
  have hfirst : isSpace c = false :=
    (isNameChar_ne (by simp [isNameChar, hc])).1
  have hall : (attributeChars (key, value) ++ rest).dropWhile isSpace =
      c :: (cs ++ '=' :: ('"' :: escape value.toList ++ '"' :: rest)) := by
    have hshape : attributeChars (key, value) ++ rest = ' ' :: c ::
        (cs ++ '=' :: ('"' :: escape value.toList ++ '"' :: rest)) := by
      simp [attributeChars, hchars]
    rw [hshape, List.dropWhile_cons_of_pos (by decide),
      List.dropWhile_cons_of_neg (by simp [hfirst])]
  have hstop : ∀ d ∈ ('=' :: ('"' :: escape value.toList ++ '"' :: rest)).head?,
      (fun d => !endsKey d) d = false := by
    intro d hd
    obtain rfl : '=' = d := Option.some.inj hd
    decide
  have htake := Text.takeWhile_append_rest hends hstop
  have hdrop : ((cs ++ '=' :: ('"' :: escape value.toList ++ '"' :: rest)).dropWhile
      (fun d => !endsKey d)).dropWhile isSpace =
      '=' :: ('"' :: escape value.toList ++ '"' :: rest) := by
    rw [Text.dropWhile_append_rest hends hstop,
      List.dropWhile_cons_of_neg (by decide)]
  have hvalue : ('"' :: escape value.toList ++ '"' :: rest).dropWhile isSpace =
      '"' :: escape value.toList ++ '"' :: rest := by
    rw [List.cons_append, List.dropWhile_cons_of_neg (by decide)]
  rw [readAttributes]
  split
  · rename_i hnil
    rw [hall] at hnil
    cases hnil
  · rename_i c' tail htail
    rw [hall] at htail
    obtain ⟨rfl, rfl⟩ := List.cons.inj htail
    simp only [htake]
    split
    · rename_i hnil
      rw [hdrop] at hnil
      cases hnil
    · rename_i sign rest' hsign
      rw [hdrop] at hsign
      obtain ⟨rfl, rfl⟩ := List.cons.inj hsign
      rw [if_neg (by simp), ← hchars, lookup_eq_none_of_notMem hseen]
      simp only
      split
      · rename_i fault hfault
        rw [hvalue, readValue_escape] at hfault
        cases hfault
      · rename_i read rest' hread
        rw [hvalue, readValue_escape] at hread
        obtain ⟨rfl, rfl⟩ := Prod.mk.inj (Except.ok.inj hread)
        rw [String.ofList_toList, String.ofList_toList]
        exact ⟨_, rfl⟩

/-- The attributes of a tag read back. -/
theorem readAttributes_attributeChars (stop : Nat)
    {seen : List (List Char × Nat)} {pairs : List (String × String)}
    (hnames : ∀ x ∈ pairs, IsName x.1) (hn : (pairs.map Prod.fst).Nodup)
    (hseen : ∀ x ∈ pairs, x.1.toList ∉ seen.map Prod.fst) :
    readAttributes stop seen (pairs.flatMap attributeChars) = .ok pairs := by
  induction pairs generalizing seen with
  | nil =>
    rw [List.flatMap_nil, readAttributes]
    rfl
  | cons pair pairs ih =>
    obtain ⟨key, value⟩ := pair
    rw [List.map_cons, List.nodup_cons] at hn
    obtain ⟨position, hfirst⟩ := readAttributes_append stop value
      (pairs.flatMap attributeChars) (hnames _ List.mem_cons_self)
      (hseen _ List.mem_cons_self)
    rw [List.flatMap_cons, hfirst, ih
      (fun x hx => hnames x (List.mem_cons_of_mem _ hx)) hn.2 ?_]
    · rfl
    · intro x hx hmem
      rcases List.mem_cons.1 hmem with heq | hmem
      · exact hn.1 (String.toList_inj.1 heq ▸ List.mem_map_of_mem hx)
      · exact hseen x (List.mem_cons_of_mem _ hx) hmem

/-! ## Tags -/

namespace Element

/-- An element whose names are plain and whose keys are different. -/
structure HasPlainTag (e : Element) : Prop where
  name : IsName e.name
  keys : ∀ x ∈ e.attributes, IsName x.1
  distinct : (e.attributes.map Prod.fst).Nodup

variable {e : Element}

theorem hasPlainTag_of_keys (name : String) (keys : List String)
    (hname : e.name = name) (hkeys : e.attributes.map Prod.fst = keys)
    (hplain : IsName name ∧ (∀ k ∈ keys, IsName k) ∧ keys.Nodup) :
    e.HasPlainTag := by
  subst hname hkeys
  obtain ⟨hname, hall, hdistinct⟩ := hplain
  exact ⟨hname, fun x hx => hall x.1 (List.mem_map_of_mem hx), hdistinct⟩

/-- Giving a key a value adds at most that key. -/
theorem keys_setPair (key value : String) (pairs : List (String × String)) :
    (setPair key value pairs).map Prod.fst =
      if key ∈ pairs.map Prod.fst then pairs.map Prod.fst
      else pairs.map Prod.fst ++ [key] := by
  induction pairs with
  | nil => rfl
  | cons pair pairs ih =>
    by_cases hkey : pair.1 = key
    · simp [setPair, hkey]
    · simp only [setPair, hkey, if_false, List.map_cons, ih, List.mem_cons,
        Ne.symm hkey, false_or]
      split <;> rfl

/-- A tag stays plain when a plain key is given a value. -/
theorem HasPlainTag.setAttribute (h : e.HasPlainTag) {key : String}
    (hkey : IsName key) (value : String) :
    (e.setAttribute key value).HasPlainTag := by
  have hkeys := keys_setPair key value e.attributes
  refine ⟨h.name, ?_, ?_⟩
  · intro pair hpair
    have hmem : pair.1 ∈ (setPair key value e.attributes).map Prod.fst :=
      List.mem_map_of_mem hpair
    have hcases : pair.1 ∈ e.attributes.map Prod.fst ∨ pair.1 = key := by
      rw [hkeys] at hmem
      split at hmem
      · exact Or.inl hmem
      · simpa using hmem
    rcases hcases with hold | hnew
    · obtain ⟨old, hold, heq⟩ := List.mem_map.1 hold
      exact heq ▸ h.keys old hold
    · exact hnew ▸ hkey
  · show ((setPair key value e.attributes).map Prod.fst).Nodup
    rw [hkeys]
    split
    · exact h.distinct
    · rename_i hnew
      rw [List.nodup_append]
      refine ⟨h.distinct, List.nodup_singleton _, ?_⟩
      rintro a ha b hb rfl
      exact hnew (List.mem_singleton.1 hb ▸ ha)

/-- The value given to a key is found. -/
@[simp]
theorem attribute?_setAttribute (e : Element) (key value : String) :
    (e.setAttribute key value).attribute? key = some value := by
  have hfind : ∀ pairs : List (String × String),
      (setPair key value pairs).find? (·.1 == key) = some (key, value) := by
    intro pairs
    induction pairs with
    | nil => simp [setPair]
    | cons pair pairs ih =>
      by_cases hkey : pair.1 = key
      · simp [setPair, hkey]
      · simp [setPair, hkey, ih]
  simp [attribute?, Element.setAttribute, hfind]

/-- Another key keeps its value. -/
theorem attribute?_setAttribute_of_ne {key other : String} (h : other ≠ key)
    (e : Element) (value : String) :
    (e.setAttribute key value).attribute? other = e.attribute? other := by
  have hfind : ∀ pairs : List (String × String),
      (setPair key value pairs).find? (·.1 == other) =
        pairs.find? (·.1 == other) := by
    intro pairs
    induction pairs with
    | nil => simp [setPair, Ne.symm h]
    | cons pair pairs ih =>
      by_cases hkey : pair.1 = key
      · simp [setPair, hkey, Ne.symm h]
      · simp only [setPair, hkey, if_false, List.find?_cons, ih]
  simp only [attribute?, Element.setAttribute, hfind]

/-- The characters of a tag give the name and the attributes. -/
theorem ofTag_tagChars (h : e.HasPlainTag) :
    ofTag e.tagChars = .ok { name := e.name, attributes := e.attributes } := by
  have hname : ∀ c ∈ e.name.toList, (fun c => !isSpace c) c := by
    intro c hc
    simp [(isNameChar_ne (h.name.forall_mem c hc)).1]
  -- What follows the name begins with a blank, if there is anything.
  have hrest : ∀ c ∈ (e.attributes.flatMap attributeChars).head?,
      (fun c => !isSpace c) c = false := by
    intro c hc
    cases hp : e.attributes with
    | nil =>
      rw [hp] at hc
      cases hc
    | cons pair pairs =>
      rw [hp] at hc
      obtain rfl : ' ' = c := Option.some.inj hc
      decide
  unfold ofTag tagChars
  simp only [Text.takeWhile_append_rest hname hrest,
    Text.dropWhile_append_rest hname hrest]
  rw [readAttributes_attributeChars _ h.keys h.distinct (by simp),
    String.ofList_toList]
  rfl

end Element

namespace Markup

open Element

/-! ## Pieces -/

/-- A piece without a closing mark inside is cut off at the first one. -/
theorem cut_append {σ : Type} {advance : σ → Char → σ} {ends : σ → Bool}
    {s : σ} {inside : List Char} (rest : List Char) (h : '>' ∉ inside)
    (hends : ends (inside.foldl advance s)) :
    cut advance ends s (inside ++ '>' :: rest) = some (inside, rest) := by
  induction inside generalizing s with
  | nil =>
    rw [List.nil_append, cut, if_pos ⟨rfl, hends⟩]
  | cons c cs ih =>
    rw [List.mem_cons, not_or] at h
    rw [List.cons_append, cut, if_neg (fun hc => h.1 hc.1.symm),
      ih h.2 hends]
    rfl

theorem foldl_openQuote_none {cs : List Char}
    (h : ∀ c ∈ cs, c ≠ '"' ∧ c ≠ '\'') : cs.foldl openQuote none = none := by
  induction cs with
  | nil => rfl
  | cons c cs ih =>
    have hc := h c List.mem_cons_self
    rw [List.foldl_cons, openQuote, if_neg (by simp [hc.1, hc.2])]
    exact ih fun d hd => h d (List.mem_cons_of_mem _ hd)

theorem foldl_openQuote_some {cs : List Char} (h : '"' ∉ cs) :
    cs.foldl openQuote (some '"') = some '"' := by
  induction cs with
  | nil => rfl
  | cons c cs ih =>
    rw [List.mem_cons, not_or] at h
    rw [List.foldl_cons, openQuote, if_neg (Ne.symm h.1)]
    exact ih h.2

/-- An attribute closes the quotation mark that it opens. -/
theorem foldl_openQuote_attributeChars {pair : String × String}
    (h : IsName pair.1) :
    (attributeChars pair).foldl openQuote none = none := by
  have hkey : pair.1.toList.foldl openQuote none = none := by
    apply foldl_openQuote_none
    intro c hc
    obtain ⟨-, -, hd, hs, -⟩ := isNameChar_ne (h.forall_mem c hc)
    exact ⟨hd, hs⟩
  have hvalue : (escape pair.2.toList).foldl openQuote (some '"') = some '"' :=
    foldl_openQuote_some fun hq => (mem_escape_ne hq).1 rfl
  have hblank : openQuote none ' ' = none := by decide
  have hequal : openQuote none '=' = none := by decide
  have hopen : openQuote none '"' = some '"' := by decide
  have hclose : openQuote (some '"') '"' = none := by decide
  simp only [attributeChars, List.foldl_append, List.foldl_cons,
    List.foldl_nil, hblank, hkey, hequal, hopen, hvalue, hclose]

theorem foldl_openQuote_tagChars {e : Element} (h : e.HasPlainTag) :
    e.tagChars.foldl openQuote none = none := by
  have hname : e.name.toList.foldl openQuote none = none := by
    apply foldl_openQuote_none
    intro c hc
    obtain ⟨-, -, hd, hs, -⟩ := isNameChar_ne (h.name.forall_mem c hc)
    exact ⟨hd, hs⟩
  have hpairs : ∀ pairs : List (String × String),
      (∀ x ∈ pairs, IsName x.1) →
      (pairs.flatMap attributeChars).foldl openQuote none = none := by
    intro pairs
    induction pairs with
    | nil => exact fun _ => rfl
    | cons pair pairs ih =>
      intro hkeys
      rw [List.flatMap_cons, List.foldl_append,
        foldl_openQuote_attributeChars (hkeys pair List.mem_cons_self)]
      exact ih fun x hx => hkeys x (List.mem_cons_of_mem _ hx)
  rw [tagChars, List.foldl_append, hname, hpairs _ h.keys]

theorem notMem_tagChars {e : Element} (h : e.HasPlainTag) :
    '>' ∉ e.tagChars := by
  intro hmem
  rcases List.mem_append.1 hmem with hmem | hmem
  · obtain ⟨-, -, -, -, -, hne, -⟩ := isNameChar_ne (h.name.forall_mem _ hmem)
    exact hne rfl
  · obtain ⟨pair, hpair, hmem⟩ := List.mem_flatMap.1 hmem
    obtain ⟨key, value⟩ := pair
    simp only [attributeChars, List.mem_append, List.mem_cons,
      List.not_mem_nil, or_false] at hmem
    rcases hmem with ((hmem | hmem) | hmem | hmem | hmem) | hmem
    · exact absurd hmem (by decide)
    · obtain ⟨-, -, -, -, -, hne, -⟩ :=
        isNameChar_ne ((h.keys _ hpair).forall_mem _ hmem)
      exact hne rfl
    · exact absurd hmem (by decide)
    · exact absurd hmem (by decide)
    · exact (mem_escape_ne hmem).2.2.2 rfl
    · exact absurd hmem (by decide)

/-- A tag begins with a letter and does not end with a slash. -/
theorem tagChars_ends {e : Element} (h : e.HasPlainTag) :
    (∃ c cs, e.tagChars = c :: cs ∧ isNameChar c) ∧
      e.tagChars.getLast? ≠ some '/' := by
  obtain ⟨c, cs, hname, hc, -⟩ := h.name
  constructor
  · refine ⟨c, cs ++ e.attributes.flatMap attributeChars, ?_, ?_⟩
    · rw [tagChars, hname, List.cons_append]
    · simp [isNameChar, hc]
  · rcases List.eq_nil_or_concat e.attributes with hnil | ⟨pairs, pair, hcat⟩
    · rw [tagChars, hnil, List.flatMap_nil, List.append_nil]
      intro hlast
      obtain ⟨-, -, -, -, -, -, hne, -⟩ :=
        isNameChar_ne (h.name.forall_mem _ (List.mem_of_getLast? hlast))
      exact hne rfl
    · have hshape : e.tagChars = (e.name.toList ++
          pairs.flatMap attributeChars ++ ' ' :: pair.1.toList ++
          '=' :: '"' :: escape pair.2.toList) ++ ['"'] := by
        rw [tagChars, hcat]
        simp [attributeChars]
      rw [hshape, List.getLast?_concat]
      decide

theorem next_of_tag {inside : List Char} (rest : List Char)
    (hfirst : ∀ c ∈ inside.head?, c ≠ '!' ∧ c ≠ '?') (hne : inside ≠ [])
    (hmark : '>' ∉ inside) (hquotes : inside.foldl openQuote none = none) :
    Markup.next ('<' :: inside ++ '>' :: rest) = .ok (ofTag inside, rest) := by
  obtain ⟨c, cs, rfl⟩ := List.exists_cons_of_ne_nil hne
  obtain ⟨hbang, hquestion⟩ := hfirst c rfl
  have hcut : cutTag (c :: cs ++ '>' :: rest) = some (c :: cs, rest) :=
    cut_append rest hmark (by rw [hquotes]; rfl)
  rw [List.cons_append, Markup.next, if_pos rfl, marked, if_neg, if_neg, tag,
    hcut]
  · rfl
  · simpa using hquestion
  · simpa using hbang

/-- The tag that opens an element. -/
theorem next_opening {e : Element} (h : e.HasPlainTag) (rest : List Char) :
    Markup.next ('<' :: e.tagChars ++ '>' :: rest) =
      .ok (.opening e.tagChars, rest) := by
  obtain ⟨⟨c, cs, hcs, hc⟩, hlast⟩ := tagChars_ends h
  obtain ⟨-, -, -, -, -, -, hslash, hbang, hquestion⟩ := isNameChar_ne hc
  rw [next_of_tag rest ?_ (by simp [hcs]) (notMem_tagChars h)
    (foldl_openQuote_tagChars h), ofTag, if_neg, if_neg hlast]
  · simpa [hcs] using hslash
  · intro d hd
    obtain rfl : c = d := by simpa [hcs] using hd
    exact ⟨hbang, hquestion⟩

/-- The tag of an element that holds nothing. -/
theorem next_single {e : Element} (h : e.HasPlainTag) (rest : List Char) :
    Markup.next ('<' :: (e.tagChars ++ ['/']) ++ '>' :: rest) =
      .ok (.single e.tagChars, rest) := by
  obtain ⟨⟨c, cs, hcs, hc⟩, -⟩ := tagChars_ends h
  obtain ⟨-, -, -, -, -, -, hslash, hbang, hquestion⟩ := isNameChar_ne hc
  rw [next_of_tag rest ?_ (by simp) ?_ ?_, ofTag, if_neg, if_pos,
    List.dropLast_concat]
  · exact List.getLast?_concat
  · simpa [hcs] using hslash
  · intro d hd
    obtain rfl : c = d := by simpa [hcs] using hd
    exact ⟨hbang, hquestion⟩
  · simp [notMem_tagChars h]
  · rw [List.foldl_append, foldl_openQuote_tagChars h]
    decide

/-- The tag that closes an element. -/
theorem next_closing {name : String} (h : IsName name) (rest : List Char) :
    Markup.next ('<' :: ('/' :: name.toList) ++ '>' :: rest) =
      .ok (.closing name.toList, rest) := by
  have hname := h.forall_mem
  rw [next_of_tag rest (by simp) (by simp) ?_ ?_, ofTag,
    if_pos List.head?_cons]
  · rfl
  · rw [List.mem_cons, not_or]
    refine ⟨by decide, fun hmem => ?_⟩
    obtain ⟨-, -, -, -, -, hne, -⟩ := isNameChar_ne (hname _ hmem)
    exact hne rfl
  · apply foldl_openQuote_none
    intro c hc
    rcases List.mem_cons.1 hc with rfl | hc
    · decide
    · obtain ⟨-, -, hd, hs, -⟩ := isNameChar_ne (hname c hc)
      exact ⟨hd, hs⟩

/-- Text runs to the next mark. -/
theorem next_text {text : List Char} (rest : List Char) (hne : text ≠ [])
    (h : '<' ∉ text) :
    Markup.next (text ++ '<' :: rest) = .ok (.text text, '<' :: rest) := by
  obtain ⟨c, cs, rfl⟩ := List.exists_cons_of_ne_nil hne
  rw [List.mem_cons, not_or] at h
  have hcs : ∀ d ∈ cs, (fun d => decide (d ≠ '<')) d := by
    rintro d hd
    rw [decide_eq_true_iff]
    rintro rfl
    exact h.2 hd
  rw [List.cons_append, Markup.next, if_neg (Ne.symm h.1),
    Text.takeWhile_append_rest hcs (by simp),
    Text.dropWhile_append_rest hcs (by simp)]

end Markup

end SettingsArchive.Xml
