import SettingsArchive.Xml.Escape
import SettingsArchive.Xml.Element
import SettingsArchive.Xml.Markup

/-!
# Attributes in a tag

A tag begins with the name of its element, which runs to the first space, and
goes on with attributes.  An attribute is a key, a sign of equality and a
value between quotation marks.  Spaces may stand around the sign of equality
and between attributes.

An attribute is refused at the first thing that is wrong with it: the sign of
equality, the key, the quotation marks, the value.  Positions count the bytes
from the first one of the name.
-/

namespace SettingsArchive.Xml

/-- Why an attribute cannot be read. -/
inductive AttributeFault where
  | noEquality (position : Nat)
  | duplicate (position previous : Nat)
  | noValue (position : Nat)
  | unquoted (position : Nat)
  | unclosed (position : Nat) (quote : Char)
  | value (fault : EscapeFault)
deriving DecidableEq, Repr

/-- The wording of a fault. -/
def AttributeFault.message : AttributeFault → String
  | .noEquality position =>
    s!"position {position}: attribute key must be directly followed by "
      ++ "`=` or space"
  | .duplicate position previous =>
    s!"position {position}: duplicated attribute, previous declaration at "
      ++ s!"position {previous}"
  | .noValue position =>
    s!"position {position}: `=` must be followed by an attribute value"
  | .unquoted position =>
    s!"position {position}: attribute value must be enclosed in "
      ++ "`\"` or `'`"
  | .unclosed position quote =>
    s!"position {position}: missing closing quote `{quote}` in attribute value"
  | .value fault => fault.message

/-- Whether a character ends a key. -/
def endsKey (c : Char) : Bool :=
  c == '=' || isSpace c

/-- The value at the beginning of some characters, and what follows it.
`stop` is the position of the end of the tag. -/
def readValue (stop : Nat) (cs : List Char) :
    Except AttributeFault (List Char × List Char) :=
  match cs with
  | [] => .error (.noValue stop)
  | quote :: rest =>
    if quote ≠ '"' ∧ quote ≠ '\'' then
      .error (.unquoted (stop - byteCount cs))
    else if quote ∈ rest then
      match unescape (rest.takeWhile (· ≠ quote)) with
      | .ok value => .ok (value, (rest.dropWhile (· ≠ quote)).tail)
      | .error fault => .error (.value fault)
    else .error (.unclosed stop quote)

/-- What follows a value is shorter. -/
theorem length_lt_of_readValue {stop : Nat} {cs value rest : List Char}
    (h : readValue stop cs = .ok (value, rest)) : rest.length < cs.length := by
  cases cs with
  | nil => simp [readValue] at h
  | cons quote cs =>
    rw [readValue] at h
    split at h
    · simp at h
    · split at h
      · split at h
        · obtain ⟨-, rfl⟩ := Prod.mk.inj (Except.ok.inj h)
          have := (List.dropWhile_suffix (l := cs) (· ≠ quote)).length_le
          simp only [List.length_tail, List.length_cons]
          omega
        · simp at h
      · simp at h

/-- Reads the attributes from some characters on.  `seen` holds the keys
before them with their positions. -/
def readAttributes (stop : Nat) (seen : List (List Char × Nat))
    (cs : List Char) : Except AttributeFault (List (String × String)) :=
  match _ : cs.dropWhile isSpace with
  | [] => .ok []
  | c :: tail =>
    let key := c :: tail.takeWhile (!endsKey ·)
    let position := stop - byteCount (c :: tail)
    match _ : (tail.dropWhile (!endsKey ·)).dropWhile isSpace with
    | [] => .error (.noEquality stop)
    | sign :: rest =>
      if sign ≠ '=' then .error (.noEquality (stop - byteCount (sign :: rest)))
      else
        match seen.lookup key with
        | some previous => .error (.duplicate position previous)
        | none =>
          match _ : readValue stop (rest.dropWhile isSpace) with
          | .error fault => .error fault
          | .ok (value, rest') =>
            ((String.ofList key, String.ofList value) :: ·) <$>
              readAttributes stop ((key, position) :: seen) rest'
termination_by cs.length
decreasing_by
  have h1 := (List.dropWhile_suffix (l := cs) isSpace).length_le
  have h2 := (List.dropWhile_suffix (l := tail) (!endsKey ·)).length_le
  have h3 := (List.dropWhile_suffix (l := tail.dropWhile (!endsKey ·))
    isSpace).length_le
  have h4 := (List.dropWhile_suffix (l := rest) isSpace).length_le
  have h5 := length_lt_of_readValue ‹readValue _ _ = _›
  simp only [‹cs.dropWhile isSpace = _›, List.length_cons] at h1
  simp only [‹(tail.dropWhile (!endsKey ·)).dropWhile isSpace = _›,
    List.length_cons] at h3
  omega

/-- The element that a tag opens. -/
def Element.ofTag (content : List Char) : Except AttributeFault Element := do
  let name := content.takeWhile (!isSpace ·)
  let attributes ←
    readAttributes (byteCount content) [] (content.dropWhile (!isSpace ·))
  return { name := String.ofList name, attributes }

end SettingsArchive.Xml
