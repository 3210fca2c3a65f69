import SettingsArchive.Numeral

/-!
# References in XML text

Five characters have a meaning in XML and are written as references to a
name.  Reading also knows references to a character by its number, in base
ten or sixteen.

`unescape` walks over the text once.  A reference runs from `&` to the next
`;`, and no other `&` may stand between the two.  Offsets count bytes.
-/

namespace SettingsArchive.Xml

/-- Why a reference cannot be read. -/
inductive EscapeFault where
  | unterminated (start stop : Nat)
  | unknownName (start stop : Nat) (name : String)
  | sign
  | number (fault : NumeralFault)
  | zero
  | notACharacter (code : Nat)
deriving DecidableEq, Repr

/-- The wording of a fault. -/
def EscapeFault.message : EscapeFault → String
  | .unterminated start stop =>
    s!"Error while escaping character at range {start}..{stop}: "
      ++ "Cannot find ';' after '&'"
  | .unknownName start stop name =>
    s!"at {start}..{stop}: unrecognized entity `{name}`"
  | .sign => "invalid character reference: unexpected number sign"
  | .number fault => "invalid character reference: " ++ fault.message
  | .zero =>
    "invalid character reference: 0x0 character is not permitted in XML"
  | .notACharacter code =>
    s!"invalid character reference: `{code}` is not a valid codepoint"

/-- The count of bytes of some characters. -/
def byteCount (cs : List Char) : Nat :=
  cs.foldr (fun c n => c.utf8Size + n) 0

/-! ## Writing -/

/-- One character as it is written in text and in attribute values. -/
def escapeChar : Char → List Char
  | '<' => ['&', 'l', 't', ';']
  | '>' => ['&', 'g', 't', ';']
  | '&' => ['&', 'a', 'm', 'p', ';']
  | '\'' => ['&', 'a', 'p', 'o', 's', ';']
  | '"' => ['&', 'q', 'u', 'o', 't', ';']
  | c => [c]

/-- Characters as they are written in text and in attribute values. -/
def escape (cs : List Char) : List Char :=
  cs.flatMap escapeChar

/-! ## Reading -/

/-- The character that a number stands for. -/
def charOfNumber (base : Nat) (digits : List Char) : Except EscapeFault Char :=
  match digits with
  | '+' :: _ => .error .sign
  | '-' :: _ => .error .sign
  | digits =>
    match Numeral.readNat base Numeral.maxHalfWord digits with
    | .error fault => .error (.number fault)
    | .ok 0 => .error .zero
    | .ok code =>
      if h : code.isValidChar then .ok (Char.ofNatAux code h)
      else .error (.notACharacter code)

/-- The character that a reference stands for.  Its name begins at the offset
`start`. -/
def charOfReference (start : Nat) (name : List Char) :
    Except EscapeFault Char :=
  match name with
  | '#' :: 'x' :: digits => charOfNumber 16 digits
  | '#' :: digits => charOfNumber 10 digits
  | ['l', 't'] => .ok '<'
  | ['g', 't'] => .ok '>'
  | ['a', 'm', 'p'] => .ok '&'
  | ['a', 'p', 'o', 's'] => .ok '\''
  | ['q', 'u', 'o', 't'] => .ok '"'
  | name =>
    .error (.unknownName start (start + byteCount name) (String.ofList name))

/-- Reads the characters from an offset on.  Within a reference, `pending`
holds the offset of its `&` and its name so far, last character first.
`stop` is the offset of the end of the text. -/
def unescapeFrom (stop : Nat) : Nat → Option (Nat × List Char) →
    List Char → Except EscapeFault (List Char)
  | _, none, [] => .ok []
  | _, some (start, _), [] => .error (.unterminated start stop)
  | offset, none, c :: cs =>
    if c = '&' then unescapeFrom stop (offset + 1) (some (offset, [])) cs
    else (c :: ·) <$> unescapeFrom stop (offset + c.utf8Size) none cs
  | offset, some (start, name), c :: cs =>
    if c = ';' then do
      let d ← charOfReference (start + 1) name.reverse
      (d :: ·) <$> unescapeFrom stop (offset + 1) none cs
    else if c = '&' then .error (.unterminated start stop)
    else
      unescapeFrom stop (offset + c.utf8Size) (some (start, c :: name)) cs

/-- The characters that a text or an attribute value stands for. -/
def unescape (cs : List Char) : Except EscapeFault (List Char) :=
  unescapeFrom (byteCount cs) 0 none cs

/-! ## Written characters read back -/

/-- A written character reads back, whatever stands behind it. -/
theorem unescapeFrom_escapeChar (stop offset : Nat) (c : Char)
    (cs : List Char) :
    ∃ offset', unescapeFrom stop offset none (escapeChar c ++ cs) =
      (c :: ·) <$> unescapeFrom stop offset' none cs := by
  unfold escapeChar
  split
  · exact ⟨_, rfl⟩
  · exact ⟨_, rfl⟩
  · exact ⟨_, rfl⟩
  · exact ⟨_, rfl⟩
  · exact ⟨_, rfl⟩
  · rename_i _ _ hamp _ _
    exact ⟨offset + c.utf8Size, by
      rw [List.singleton_append, unescapeFrom, if_neg hamp]⟩

/-- Written characters read back. -/
theorem unescapeFrom_escape (stop offset : Nat) (cs : List Char) :
    unescapeFrom stop offset none (escape cs) = .ok cs := by
  induction cs generalizing offset with
  | nil => rfl
  | cons c cs ih =>
    obtain ⟨offset', h⟩ :=
      unescapeFrom_escapeChar stop offset c (escape cs)
    rw [escape, List.flatMap_cons, ← escape, h, ih]
    rfl

/-- Written characters read back. -/
theorem unescape_escape (cs : List Char) : unescape (escape cs) = .ok cs :=
  unescapeFrom_escape _ _ _

end SettingsArchive.Xml
