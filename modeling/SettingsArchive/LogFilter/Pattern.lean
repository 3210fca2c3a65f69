import SettingsArchive.Numeral
import SettingsArchive.Text.Alphanumeric

/-!
# Patterns of field values

A log filter may ask for the value of a field by a pattern.  Characters stand
for themselves, brackets for one of several characters, parentheses group,
bars divide alternatives, and `*`, `+` and `?` repeat what stands in front of
them.

What a pattern matches does not matter here.  `Pattern.isValid` says whether
it can be read at all, and `Pattern.hasWordEdge` whether it speaks of the
edges of words, which no pattern of a filter may do.  A comma, a closing brace or a sign of equality never
stands in a pattern, so a counted repetition cannot be finished, and there are
no classes of characters but those between brackets.
-/

namespace SettingsArchive.Pattern

/-! ## Escapes -/

/-- The character of a number in base sixteen with so many digits, and what
follows it. -/
def readCode? (count : Nat) (cs : List Char) : Option (Char × List Char) := do
  let digits := cs.take count
  if digits.length ≠ count then none
  let n ← (Numeral.readDigits 16 Numeral.maxHalfWord 0 digits).toOption
  if h : n.isValidChar then return (Char.ofNatAux n h, cs.drop count)
  else none

/-- Whether a backslash in front makes a character stand for itself. -/
def isMark (c : Char) : Bool :=
  c.toNat < 0x80 && !c.isAlphanum && c != '<' && c != '>'

/-- The character that is meant by what stands behind a backslash, and what
follows it. -/
def readEscape? : List Char → Option (Char × List Char)
  | 'a' :: cs => some ('\x07', cs)
  | 'f' :: cs => some ('\x0c', cs)
  | 'n' :: cs => some ('\n', cs)
  | 'r' :: cs => some ('\r', cs)
  | 't' :: cs => some ('\t', cs)
  | 'v' :: cs => some ('\x0b', cs)
  | 'x' :: cs => readCode? 2 cs
  | 'u' :: cs => readCode? 4 cs
  | 'U' :: cs => readCode? 8 cs
  | c :: cs => if isMark c then some (c, cs) else none
  | [] => none

/-- Whether a backslash in front makes a character mean an edge of a word, or
a place that is none. -/
def isWordEdge (c : Char) : Bool :=
  c == 'b' || c == 'B' || c == '<' || c == '>'

/-- What follows the characters behind a backslash.  Outside brackets they may
also mean the beginning or the end of the value, or an edge of a word. -/
def afterEscape? : List Char → Option (List Char)
  | [] => none
  | c :: cs =>
    if c = 'A' ∨ c = 'z' ∨ isWordEdge c then some cs
    else (readEscape? (c :: cs)).map Prod.snd

/-! ## Brackets -/

/-- The sets of characters that have a name. -/
def setNames : List String :=
  ["alnum", "alpha", "ascii", "blank", "cntrl", "digit", "graph", "lower",
    "print", "punct", "space", "upper", "word", "xdigit"]

/-- What follows a named set, whose bracket is open. -/
def afterName? : List Char → Option (List Char)
  | ':' :: cs =>
    let cs := if cs.head? = some '^' then cs.tail else cs
    let (name, rest) := cs.span (· ≠ ':')
    match rest with
    | ':' :: ']' :: rest =>
      if String.ofList name ∈ setNames then some rest else none
    | _ => none
  | _ => none

/-- The characters without those behind an opening bracket that are taken as
they are: a caret, then hyphens or else one closing bracket. -/
def afterOpening (cs : List Char) : List Char :=
  let cs := if cs.head? = some '^' then cs.tail else cs
  match cs with
  | '-' :: _ => cs.dropWhile (· == '-')
  | ']' :: cs => cs
  | cs => cs

/-- Reads one character between brackets. -/
def readMember? : List Char → Option (Char × List Char)
  | [] => none
  | '\\' :: cs => readEscape? cs
  | c :: cs => some (c, cs)

/-- Reads one character between brackets, or a range of them with the smaller
one in front. -/
def afterRange? (cs : List Char) : Option (List Char) := do
  let (first, cs) ← readMember? cs
  match cs with
  | '-' :: ']' :: _ => return cs
  | '-' :: '-' :: _ => return cs
  | '-' :: cs =>
    let (last, cs) ← readMember? cs
    if first ≤ last then return cs else none
  | cs => return cs

/-- What follows the bracket that closes the outermost of `depth` open ones.
At most `limit` pieces stand in front of it. -/
def afterBrackets? : (limit depth : Nat) → List Char → Option (List Char)
  | 0, _, _ => none
  | limit + 1, depth, cs =>
    match cs with
    | [] => none
    | ']' :: cs =>
      if depth ≤ 1 then some cs else afterBrackets? limit (depth - 1) cs
    | '[' :: cs =>
      match afterName? cs with
      | some cs => afterBrackets? limit depth cs
      | none => afterBrackets? limit (depth + 1) (afterOpening cs)
    | '&' :: '&' :: cs => afterBrackets? limit depth cs
    | '-' :: '-' :: cs => afterBrackets? limit depth cs
    | '~' :: '~' :: cs => afterBrackets? limit depth cs
    | cs => (afterRange? cs).bind (afterBrackets? limit depth)

/-! ## Groups -/

/-- Whether some characters are the name of a group. -/
def isName : List Char → Bool
  | [] => false
  | c :: cs =>
    (c == '_' || (Text.isAlphanumeric c && !c.isDigit))
      && cs.all fun c => Text.isAlphanumeric c || "_.[]".contains c

/-- Whether some characters switch features of patterns on or, behind a
hyphen, off.  None may be named twice, and case cannot be ignored. -/
def areSwitches (cs : List Char) : Bool :=
  let (on, off) := cs.span (· ≠ '-')
  cs.all ("imsUuRx-".contains ·) && cs.Nodup && !on.contains 'i'
    && off != ['-']

/-- What begins with a parenthesis: a group, which may have a name, or
switches alone. -/
inductive Opening where
  | group (name : Option (List Char)) (rest : List Char)
  | switches (rest : List Char)

/-- A group with a name, of which the angle bracket is open. -/
def readName? (cs : List Char) : Option Opening :=
  let (name, rest) := cs.span (· ≠ '>')
  match rest with
  | '>' :: rest => if isName name then some (.group name rest) else none
  | _ => none

/-- Reads what follows an opening parenthesis. -/
def readOpening? : List Char → Option Opening
  | '?' :: 'P' :: '<' :: cs => readName? cs
  | '?' :: '<' :: cs => readName? cs
  | '?' :: cs =>
    let (switches, rest) := cs.span fun c => c ≠ ':' && c ≠ ')'
    if !areSwitches switches then none
    else
      match rest with
      | ':' :: rest => some (.group none rest)
      | ')' :: rest => if switches.isEmpty then none else some (.switches rest)
      | _ => none
  | cs => some (.group none cs)

/-! ## The whole pattern -/

/-- Whether a pattern can be read from some characters on.  `names` are those
of the groups so far, `depth` is the number of open groups, and `full` says
whether there is something in front that can be repeated. -/
def isValidFrom : (limit : Nat) → (names : List (List Char)) → (depth : Nat) →
    (full : Bool) → List Char → Bool
  | 0, _, _, _, _ => false
  | limit + 1, names, depth, full, cs =>
    match cs with
    | [] => depth == 0
    | '\\' :: cs =>
      match afterEscape? cs with
      | some cs => isValidFrom limit names depth true cs
      | none => false
    | '[' :: cs =>
      match afterBrackets? (cs.length + 1) 1 (afterOpening cs) with
      | some cs => isValidFrom limit names depth true cs
      | none => false
    | '(' :: cs =>
      match readOpening? cs with
      | some (.group none cs) => isValidFrom limit names (depth + 1) false cs
      | some (.group (some name) cs) =>
        !names.contains name
          && isValidFrom limit (name :: names) (depth + 1) false cs
      | some (.switches cs) => isValidFrom limit names depth false cs
      | none => false
    | ')' :: cs => 0 < depth && isValidFrom limit names (depth - 1) true cs
    | '|' :: cs => isValidFrom limit names depth false cs
    | '\x7b' :: _ => false
    | c :: cs =>
      (full || !"*+?".contains c) && isValidFrom limit names depth true cs

/-- Whether a pattern can be read. -/
def isValid (cs : List Char) : Bool :=
  isValidFrom (cs.length + 1) [] 0 false cs

/-- Whether a pattern that can be read speaks of an edge of a word. -/
def hasWordEdge : List Char → Bool
  | '\\' :: c :: cs => isWordEdge c || hasWordEdge cs
  | _ :: cs => hasWordEdge cs
  | [] => false

end SettingsArchive.Pattern
