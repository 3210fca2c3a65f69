import SettingsArchive.Numeral

/-!
# TOML strings

There are four kinds of strings.  Between quotation marks a backslash begins
an escape, between apostrophes it does not.  With one mark at each end a
string stands on one line, with three it may hold line breaks, and one or two
marks of its own at any place.  A line break right behind the opening marks
does not count.

The readers below get what stands behind the opening marks.  They take off
one piece at a time, and `limit` bounds the number of pieces, each of which
has at least one character.
-/

namespace SettingsArchive.Toml

/-- Whether a character may stand in a string or a comment as it is. -/
def isPlain (c : Char) : Bool :=
  c == '\t' || (0x20 ≤ c.toNat && c.toNat != 0x7F)

/-- Whether a character is a blank within a line. -/
def isGap (c : Char) : Bool :=
  c == ' ' || c == '\t'

/-- What stands behind a line break, if there is one in front. -/
def afterBreak? : List Char → Option (List Char)
  | '\n' :: cs => some cs
  | '\r' :: '\n' :: cs => some cs
  | _ => none

/-- The characters without a line break in front. -/
def dropBreak (cs : List Char) : List Char :=
  (afterBreak? cs).getD cs

/-! ## Escapes -/

/-- The character of a number in base sixteen with so many digits, and what
follows it. -/
def readCode? (count : Nat) (cs : List Char) : Option (Char × List Char) := do
  let digits := cs.take count
  if digits.length ≠ count then none
  let n ← (Numeral.readDigits 16 0x10FFFF 0 digits).toOption
  if 0xD800 ≤ n ∧ n < 0xE000 then none
  return (Char.ofNat n, cs.drop count)

/-- The character of an escape, and what follows it. -/
def readEscape? : List Char → Option (Char × List Char)
  | 'b' :: cs => some ('\x08', cs)
  | 'f' :: cs => some ('\x0c', cs)
  | 'n' :: cs => some ('\n', cs)
  | 'r' :: cs => some ('\r', cs)
  | 't' :: cs => some ('\t', cs)
  | '"' :: cs => some ('"', cs)
  | '\\' :: cs => some ('\\', cs)
  | 'u' :: cs => readCode? 4 cs
  | 'U' :: cs => readCode? 8 cs
  | _ => none

/-- What stands behind the end of a line that a backslash joins to the next
one, blanks and further line breaks left out. -/
def afterJoin? (cs : List Char) : Option (List Char) :=
  (afterBreak? (cs.dropWhile isGap)).map skipBlank
where
  /-- The characters without blanks and line breaks in front. -/
  skipBlank : List Char → List Char
    | ' ' :: cs => skipBlank cs
    | '\t' :: cs => skipBlank cs
    | '\n' :: cs => skipBlank cs
    | '\r' :: '\n' :: cs => skipBlank cs
    | cs => cs

/-! ## Strings on one line -/

/-- Reads a string up to its quotation mark. -/
def readQuoted? : Nat → List Char → Option (List Char × List Char)
  | 0, _ => none
  | limit + 1, cs =>
    match cs with
    | [] => none
    | '"' :: cs => some ([], cs)
    | '\\' :: cs => do
      let (c, cs) ← readEscape? cs
      let (text, cs) ← readQuoted? limit cs
      return (c :: text, cs)
    | c :: cs =>
      if isPlain c then do
        let (text, cs) ← readQuoted? limit cs
        return (c :: text, cs)
      else none

/-- Reads a string up to its apostrophe. -/
def readLiteral? : List Char → Option (List Char × List Char)
  | [] => none
  | '\'' :: cs => some ([], cs)
  | c :: cs =>
    if isPlain c then do
      let (text, cs) ← readLiteral? cs
      return (c :: text, cs)
    else none

/-! ## Strings of several lines -/

/-- The end of a string of several lines: what belongs to the string in front
of the closing marks, and what follows them. -/
def readClosing? (mark : Char) (cs : List Char) :
    Option (List Char × List Char) :=
  let marks := (cs.take 5).takeWhile (· == mark)
  if marks.length < 3 then none
  else some (marks.drop 3, cs.drop marks.length)

/-- Reads a string of several lines up to its closing quotation marks. -/
def readLongQuoted? : Nat → List Char → Option (List Char × List Char)
  | 0, _ => none
  | limit + 1, cs =>
    match readClosing? '"' cs, afterBreak? cs, cs with
    | some closing, _, _ => some closing
    | none, some cs, _ => do
      let (text, cs) ← readLongQuoted? limit cs
      return ('\n' :: text, cs)
    | none, none, '\\' :: cs =>
      match afterJoin? cs with
      | some cs => readLongQuoted? limit cs
      | none => do
        let (c, cs) ← readEscape? cs
        let (text, cs) ← readLongQuoted? limit cs
        return (c :: text, cs)
    | none, none, c :: cs =>
      if isPlain c then do
        let (text, cs) ← readLongQuoted? limit cs
        return (c :: text, cs)
      else none
    | none, none, [] => none

/-- Reads a string of several lines up to its closing apostrophes. -/
def readLongLiteral? : Nat → List Char → Option (List Char × List Char)
  | 0, _ => none
  | limit + 1, cs =>
    match readClosing? '\'' cs, afterBreak? cs, cs with
    | some closing, _, _ => some closing
    | none, some cs, _ => do
      let (text, cs) ← readLongLiteral? limit cs
      return ('\n' :: text, cs)
    | none, none, c :: cs =>
      if isPlain c then do
        let (text, cs) ← readLongLiteral? limit cs
        return (c :: text, cs)
      else none
    | none, none, [] => none

/-! ## All kinds -/

/-- Reads a string of one line with its opening mark. -/
def readShortString? : List Char → Option (List Char × List Char)
  | '"' :: cs => readQuoted? (cs.length + 1) cs
  | '\'' :: cs => readLiteral? cs
  | _ => none

/-- Reads a string of any kind with its opening marks. -/
def readString? : List Char → Option (List Char × List Char)
  | '"' :: '"' :: '"' :: cs => readLongQuoted? (cs.length + 1) (dropBreak cs)
  | '\'' :: '\'' :: '\'' :: cs =>
    readLongLiteral? (cs.length + 1) (dropBreak cs)
  | cs => readShortString? cs

end SettingsArchive.Toml
