/-!
# Bytes as text

The bytes of a setting are written in base sixty-four with the standard
alphabet.  Three bytes become four symbols, and a last group of one or two
bytes is filled up with padding.  A text is read only in the form that
`encode` writes: the padding must be complete and the bits that it leaves
over must be zero.

A text that cannot be read is refused with the first fault in the order of
`decode`.  All groups but the last must hold four symbols.  In the last
group a padding sign may stand only behind two symbols, and nothing but
padding may follow it.
-/

namespace SettingsArchive.Base64

/-- Why a text is not the written form of any bytes.  Offsets count the
bytes of the text. -/
inductive Fault where
  | symbol (byte : UInt8) (offset : Nat)
  | length (size : Nat)
  | lastSymbol (byte : UInt8) (offset : Nat)
  | padding
deriving DecidableEq, Repr

/-- The wording of a fault. -/
def Fault.message : Fault → String
  | .symbol byte offset => s!"Invalid symbol {byte}, offset {offset}."
  | .length size => s!"Invalid input length: {size}"
  | .lastSymbol byte offset => s!"Invalid last symbol {byte}, offset {offset}."
  | .padding => "Invalid padding"

/-- The symbol that stands for six bits. -/
def symbol (v : Nat) : Char :=
  if v < 26 then Char.ofNat (65 + v)
  else if v < 52 then Char.ofNat (71 + v)
  else if v < 62 then Char.ofNat (v - 4)
  else if v = 62 then '+'
  else '/'

/-- The six bits that a symbol stands for. -/
def value? (b : UInt8) : Option Nat :=
  let n := b.toNat
  if 65 ≤ n ∧ n ≤ 90 then some (n - 65)
  else if 97 ≤ n ∧ n ≤ 122 then some (n - 71)
  else if 48 ≤ n ∧ n ≤ 57 then some (n + 4)
  else if n = 43 then some 62
  else if n = 47 then some 63
  else none

/-- The byte of the padding sign. -/
def pad : UInt8 := 61

/-- The symbols of some bytes, with padding. -/
def encode : List UInt8 → List Char
  | [] => []
  | [a] =>
    let n := a.toNat
    [symbol (n / 4), symbol (n % 4 * 16), '=', '=']
  | [a, b] =>
    let n := a.toNat * 256 + b.toNat
    [symbol (n / 1024), symbol (n / 16 % 64), symbol (n % 16 * 4), '=']
  | a :: b :: c :: rest =>
    let n := (a.toNat * 256 + b.toNat) * 256 + c.toNat
    symbol (n / 262144) :: symbol (n / 4096 % 64) :: symbol (n / 64 % 64)
      :: symbol (n % 64) :: encode rest

/-- The six bits of the symbol at an offset. -/
def readSymbol (offset : Nat) (b : UInt8) : Except Fault Nat :=
  match value? b with
  | some v => .ok v
  | none => .error (.symbol b offset)

/-- Reads the last group: the six bits of each symbol, and the number of
padding signs.  `index` is the place in the group. -/
def readLast (offset : Nat) :
    Nat → List UInt8 → Except Fault (List Nat × Nat)
  | _, [] => .ok ([], 0)
  | index, b :: bs =>
    if b = pad then
      if index < 2 then .error (.symbol b (offset + index))
      else if bs.all (· == pad) then .ok ([], bs.length + 1)
      else .error (.symbol pad (offset + index))
    else do
      let v ← readSymbol (offset + index) b
      let (vs, padding) ← readLast offset (index + 1) bs
      return (v :: vs, padding)

/-- The bytes of the last group, which begins at `offset`. -/
def decodeLast (offset : Nat) (group : List UInt8) :
    Except Fault (List UInt8) := do
  let (values, padding) ← readLast offset 0 group
  let lastFault :=
    Fault.lastSymbol (group.getD (values.length - 1) 0)
      (offset + values.length - 1)
  if values.length < 2 then
    if group.isEmpty then return [] else throw (.length (offset + values.length))
  if (values.length + padding) % 4 ≠ 0 then
    throw .padding
  match values with
  | [u, v] =>
    if v % 16 ≠ 0 then throw lastFault
    return [UInt8.ofNat (u * 4 + v / 16)]
  | [u, v, w] =>
    if w % 4 ≠ 0 then throw lastFault
    let n := (u * 64 + v) * 64 + w
    return [UInt8.ofNat (n / 1024), UInt8.ofNat (n / 4)]
  | [u, v, w, x] =>
    let n := ((u * 64 + v) * 64 + w) * 64 + x
    return [UInt8.ofNat (n / 65536), UInt8.ofNat (n / 256), UInt8.ofNat n]
  | _ => throw .padding

/-- The bytes of the groups from `offset` on. -/
def decodeGroups (offset : Nat) : List UInt8 → Except Fault (List UInt8)
  | a :: b :: c :: d :: e :: rest => do
    let u ← readSymbol offset a
    let v ← readSymbol (offset + 1) b
    let w ← readSymbol (offset + 2) c
    let x ← readSymbol (offset + 3) d
    let n := ((u * 64 + v) * 64 + w) * 64 + x
    let bytes ← decodeGroups (offset + 4) (e :: rest)
    return UInt8.ofNat (n / 65536) :: UInt8.ofNat (n / 256) :: UInt8.ofNat n
      :: bytes
  | group => decodeLast offset group

/-- The bytes that the text stands for.  A lone last byte that can be no
symbol is reported before all other faults. -/
def decode (text : List UInt8) : Except Fault (List UInt8) :=
  match text.getLast? with
  | some b =>
    if text.length % 4 = 1 ∧ b ≠ pad ∧ value? b = none then
      .error (.symbol b (text.length - 1))
    else
      decodeGroups 0 text
  | none => .ok []

end SettingsArchive.Base64
