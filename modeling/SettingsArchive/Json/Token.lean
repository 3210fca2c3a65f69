import SettingsArchive.Json.Number

/-!
# The tokens of JSON text

`Token.next?` cuts the first token off a text that does not begin with a
blank.  A string is a token whatever its escapes stand for: the token of a
string in which half of a surrogate pair stands alone has no text.
-/

namespace SettingsArchive.Json

/-- A token of JSON text. -/
inductive Token where
  | openArray
  | closeArray
  | openObject
  | closeObject
  | comma
  | colon
  | string (text : Option String)
  | scalar (value : Json)

/-- The value of a digit in base sixteen. -/
def hexDigit? (c : Char) : Option Nat :=
  Numeral.digit? 16 c

/-- The number of four digits in base sixteen. -/
def unit? (a b c d : Char) : Option Nat := do
  let a ← hexDigit? a
  let b ← hexDigit? b
  let c ← hexDigit? c
  let d ← hexDigit? d
  return ((a * 16 + b) * 16 + c) * 16 + d

/-- The character of a letter behind a backslash. -/
def escaped? : Char → Option Char
  | '"' => some '"'
  | '\\' => some '\\'
  | '/' => some '/'
  | 'b' => some '\x08'
  | 'f' => some '\x0c'
  | 'n' => some '\n'
  | 'r' => some '\r'
  | 't' => some '\t'
  | _ => none

/-- Reads the characters of a string up to its closing quotation mark.  An
escape by number is kept as the number. -/
def readString? : List Char → Option (List (Char ⊕ Nat) × List Char)
  | [] => none
  | '"' :: cs => some ([], cs)
  | '\\' :: 'u' :: a :: b :: c :: d :: cs => do
    let n ← unit? a b c d
    let (rest, cs) ← readString? cs
    return (.inr n :: rest, cs)
  | '\\' :: c :: cs => do
    let c ← escaped? c
    let (rest, cs) ← readString? cs
    return (.inl c :: rest, cs)
  | c :: cs =>
    if c.toNat < 32 then none
    else do
      let (rest, cs) ← readString? cs
      return (.inl c :: rest, cs)

/-- The text of the characters of a string.  Two numbers that stand side by
side may be the two halves of a surrogate pair. -/
def pairUp? : List (Char ⊕ Nat) → Option (List Char)
  | [] => some []
  | .inl c :: rest => (c :: ·) <$> pairUp? rest
  | .inr high :: .inr low :: rest =>
    if 0xD800 ≤ high ∧ high < 0xDC00 then
      if 0xDC00 ≤ low ∧ low < 0xE000 then
        let n := 0x10000 + (high - 0xD800) * 0x400 + (low - 0xDC00)
        (Char.ofNat n :: ·) <$> pairUp? rest
      else none
    else if 0xDC00 ≤ high ∧ high < 0xE000 then none
    else (Char.ofNat high :: ·) <$> pairUp? (.inr low :: rest)
  | .inr n :: rest =>
    if 0xD800 ≤ n ∧ n < 0xE000 then none
    else (Char.ofNat n :: ·) <$> pairUp? rest

/-- Whether a character is a blank between tokens. -/
def isGap (c : Char) : Bool :=
  c == ' ' || c == '\n' || c == '\t' || c == '\r'

namespace Token

/-- The token at the beginning of some characters, and what follows it. -/
def next? (cs : List Char) : Option (Token × List Char) :=
  match cs with
  | '[' :: cs => some (.openArray, cs)
  | ']' :: cs => some (.closeArray, cs)
  | '\x7b' :: cs => some (.openObject, cs)
  | '\x7d' :: cs => some (.closeObject, cs)
  | ',' :: cs => some (.comma, cs)
  | ':' :: cs => some (.colon, cs)
  | 't' :: 'r' :: 'u' :: 'e' :: cs => some (.scalar (.bool true), cs)
  | 'f' :: 'a' :: 'l' :: 's' :: 'e' :: cs => some (.scalar (.bool false), cs)
  | 'n' :: 'u' :: 'l' :: 'l' :: cs => some (.scalar .null, cs)
  | '"' :: cs => do
    let (characters, cs) ← readString? cs
    return (.string ((pairUp? characters).map String.ofList), cs)
  | cs => do
    let (literal, cs) ← readLiteral? cs
    return (.scalar literal.value, cs)

/-- The tokens of some characters, at most as many as `limit`. -/
def readUpTo? : Nat → List Char → Option (List Token)
  | limit, cs =>
    match cs.dropWhile isGap with
    | [] => some []
    | cs =>
      match limit with
      | 0 => none
      | limit + 1 => do
        let (t, rest) ← next? cs
        (t :: ·) <$> readUpTo? limit rest

/-- The tokens of a text.  A token takes up at least one character. -/
def readAll? (text : String) : Option (List Token) :=
  let cs := text.toList
  readUpTo? cs.length cs

end Token

end SettingsArchive.Json
