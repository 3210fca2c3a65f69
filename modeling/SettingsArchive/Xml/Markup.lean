/-!
# The pieces of an XML text

An XML text is a row of pieces: text up to the next `<`, the tags of elements,
marked sections of plain characters, and comments, instructions and document
types, which carry nothing.  `Markup` is one piece, and `Markup.next` cuts the
first piece off a text.

Every piece but text ends with the first `>` that its kind accepts.  `cut`
finds that sign: it leads a state over the characters and asks the state at
each `>`.

`length_lt_of_next` says that a text grows shorter with each piece, which is
why reading ends.
-/

namespace SettingsArchive.Xml

/-- One piece of an XML text.  A tag holds the characters between its marks. -/
inductive Markup where
  | text (characters : List Char)
  | plain (characters : List Char)
  | opening (content : List Char)
  | single (content : List Char)
  | closing (content : List Char)
  | ignored
deriving DecidableEq, Repr

/-- Why a piece cannot be cut off. -/
inductive MarkupFault where
  | tag
  | comment
  | plain
  | documentType
  | documentTypeName
  | instruction
  | unknown
deriving DecidableEq, Repr

/-- The wording of a fault. -/
def MarkupFault.message : MarkupFault → String
  | .tag =>
    "syntax error: tag not closed: `>` not found before end of input"
  | .comment =>
    "syntax error: comment not closed: `-->` not found before end of input"
  | .plain =>
    "syntax error: CDATA not closed: `]]>` not found before end of input"
  | .documentType =>
    "syntax error: DOCTYPE not closed: `>` not found before end of input"
  | .documentTypeName =>
    "ill-formed document: `<!DOCTYPE>` declaration does not contain a name "
      ++ "of a document type"
  | .instruction =>
    "syntax error: processing instruction or xml declaration not closed: "
      ++ "`?>` not found before end of input"
  | .unknown =>
    "syntax error: unknown or missed symbol in markup"

/-- Whether a character is a space within markup. -/
def isSpace (c : Char) : Bool :=
  c == ' ' || c == '\t' || c == '\n' || c == '\r'

namespace Markup

/-! ## The end of a piece -/

/-- The characters before the first `>` at which `ends` accepts the state, and
those behind it.  `advance` leads the state over every other character. -/
def cut {σ : Type} (advance : σ → Char → σ) (ends : σ → Bool) :
    σ → List Char → Option (List Char × List Char)
  | _, [] => none
  | s, c :: cs =>
    if c = '>' ∧ ends s then some ([], cs)
    else
      (cut advance ends (advance s c) cs).map fun (inside, rest) =>
        (c :: inside, rest)

/-- The quotation mark that stands open within a tag. -/
def openQuote : Option Char → Char → Option Char
  | none, c => if c = '"' ∨ c = '\'' then some c else none
  | some q, c => if c = q then none else some q

/-- A tag ends at the first `>` outside quotation marks. -/
def cutTag : List Char → Option (List Char × List Char) :=
  cut openQuote Option.isNone none

/-- The depth of angle brackets within a document type. -/
def nesting (depth : Nat) (c : Char) : Nat :=
  if c = '<' then depth + 1 else if c = '>' then depth - 1 else depth

/-- A document type ends at the `>` that balances its `<`. -/
def cutDocumentType : List Char → Option (List Char × List Char) :=
  cut nesting (· == 0) 0

/-- A piece that ends at the first `>` for which the characters before it, the
last one first, meet a condition. -/
def cutAfter (ends : List Char → Bool) :
    List Char → Option (List Char × List Char) :=
  cut (fun seen c => c :: seen) ends []

/-! ## The kinds of pieces

Each function gets the characters behind the `<`. -/

/-- A piece made of the characters before the end that was found. -/
def made (fault : MarkupFault) (make : List Char → Except MarkupFault Markup) :
    Option (List Char × List Char) → Except MarkupFault (Markup × List Char)
  | some (inside, rest) => (make inside).map (·, rest)
  | none => .error fault

/-- A comment. -/
def comment (cs : List Char) : Except MarkupFault (Markup × List Char) :=
  let ends seen := 4 < seen.length && ['-', '-'].isPrefixOf seen
  made .comment
    (fun inside =>
      if "!--".toList.isPrefixOf inside then .ok .ignored
      else .error .comment)
    (cutAfter ends cs)

/-- A marked section of plain characters. -/
def plainSection (cs : List Char) : Except MarkupFault (Markup × List Char) :=
  made .plain
    (fun inside =>
      if "![CDATA[".toList.isPrefixOf inside then
        .ok (.plain (inside.drop 8).dropLast.dropLast)
      else .error .plain)
    (cutAfter ([']', ']'].isPrefixOf ·) cs)

/-- A document type, which must give a name. -/
def documentType (cs : List Char) : Except MarkupFault (Markup × List Char) :=
  made .documentType
    (fun inside =>
      if (inside.take 8).map Char.toUpper ≠ "!DOCTYPE".toList then
        .error .documentType
      else if (inside.drop 8).all isSpace then .error .documentTypeName
      else .ok .ignored)
    (cutDocumentType cs)

/-- An instruction. -/
def instruction (cs : List Char) : Except MarkupFault (Markup × List Char) :=
  made .instruction
    (fun inside =>
      if 1 < inside.length then .ok .ignored else .error .instruction)
    (cutAfter (['?'].isPrefixOf ·) cs)

/-- The tag of an element with these characters between `<` and `>`. -/
def ofTag (inside : List Char) : Markup :=
  if inside.head? = some '/' then .closing inside.tail
  else if inside.getLast? = some '/' then .single inside.dropLast
  else .opening inside

/-- The tag of an element. -/
def tag (cs : List Char) : Except MarkupFault (Markup × List Char) :=
  made .tag (fun inside => .ok (ofTag inside)) (cutTag cs)

/-- The piece that begins with a `<` and these characters. -/
def marked (cs : List Char) : Except MarkupFault (Markup × List Char) :=
  if cs.head? = some '!' then
    match cs.tail.head? with
    | some '-' => comment cs
    | some '[' => plainSection cs
    | some 'D' => documentType cs
    | some 'd' => documentType cs
    | _ => .error .unknown
  else if cs.head? = some '?' then instruction cs
  else tag cs

/-- The first piece of a text, and what follows it. -/
def next : List Char → Except MarkupFault (Markup × List Char)
  | [] => .ok (.text [], [])
  | c :: cs =>
    if c = '<' then marked cs
    else
      .ok (.text (c :: cs.takeWhile (· ≠ '<')), cs.dropWhile (· ≠ '<'))

/-! ## The text grows shorter -/

/-- Behind the end of a piece less is left. -/
theorem length_lt_of_cut {σ : Type} {advance : σ → Char → σ} {ends : σ → Bool}
    {s : σ} {cs inside rest : List Char}
    (h : cut advance ends s cs = some (inside, rest)) :
    rest.length < cs.length := by
  induction cs generalizing s inside with
  | nil => simp [cut] at h
  | cons c cs ih =>
    rw [cut] at h
    split at h
    · obtain ⟨-, rfl⟩ := Prod.mk.inj (Option.some.inj h)
      simp
    · obtain ⟨⟨i, r⟩, hcut, heq⟩ := Option.map_eq_some_iff.1 h
      obtain ⟨-, rfl⟩ := Prod.mk.inj heq
      exact Nat.lt_trans (ih hcut) (by simp)

/-- What follows a piece is what follows its end. -/
theorem rest_of_made {fault : MarkupFault}
    {make : List Char → Except MarkupFault Markup}
    {found : Option (List Char × List Char)} {m : Markup} {rest : List Char}
    (h : made fault make found = .ok (m, rest)) :
    ∃ inside, found = some (inside, rest) := by
  unfold made at h
  split at h
  · rename_i inside rest'
    cases hm : make inside with
    | error _ => simp [hm, Except.map] at h
    | ok _ =>
      simp only [hm, Except.map] at h
      obtain ⟨-, rfl⟩ := Prod.mk.inj (Except.ok.inj h)
      exact ⟨inside, rfl⟩
  · simp at h

/-- Behind a piece that begins with a `<` less is left. -/
theorem length_lt_of_marked {cs rest : List Char} {m : Markup}
    (h : marked cs = .ok (m, rest)) : rest.length < cs.length := by
  unfold marked at h
  split at h
  · split at h
    · exact (rest_of_made h).elim fun _ => length_lt_of_cut
    · exact (rest_of_made h).elim fun _ => length_lt_of_cut
    · exact (rest_of_made h).elim fun _ => length_lt_of_cut
    · exact (rest_of_made h).elim fun _ => length_lt_of_cut
    · simp at h
  · split at h
    · exact (rest_of_made h).elim fun _ => length_lt_of_cut
    · exact (rest_of_made h).elim fun _ => length_lt_of_cut

/-- Behind the first piece of a text less is left. -/
theorem length_lt_of_next {cs rest : List Char} {m : Markup}
    (h : next cs = .ok (m, rest)) (hcs : cs ≠ []) :
    rest.length < cs.length := by
  cases cs with
  | nil => exact absurd rfl hcs
  | cons c cs =>
    rw [next] at h
    split at h
    · exact Nat.lt_trans (length_lt_of_marked h) (by simp)
    · obtain ⟨-, rfl⟩ := Prod.mk.inj (Except.ok.inj h)
      have := (List.dropWhile_suffix (l := cs) (· ≠ '<')).length_le
      simp only [List.length_cons]
      omega

end Markup

end SettingsArchive.Xml
