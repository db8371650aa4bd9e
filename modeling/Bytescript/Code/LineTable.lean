import Bytescript.Source

/-!
# Line tables

A line table tells which place of a script each byte of encoded code came from. It is a sequence of
entries, each three numbers in groups of seven bits: how far the offset advances, and how far line
and column move, signs folded into the lowest bit. A new entry is written only where the mark
changes, and it is in force up to the next one.

All numbers are kept to 32 bits.
-/

namespace Bytescript

/-! ## Numbers in groups of seven bits -/

/-- The groups of a number, lowest first; all but the last have their high bit set. -/
def groups (n : Nat) : List UInt8 :=
  if n < 128 then [n.toUInt8] else (n % 128 + 128).toUInt8 :: groups (n / 128)

/-- Reads a number of at most five groups; `read` holds the bits so far, which reach up to
`shift`. -/
def readGroups : (fuel : Nat) → (shift read : UInt32) → List UInt8 → Option (UInt32 × List UInt8)
  | 0, _, _, _ => none
  | _ + 1, _, _, [] => none
  | fuel + 1, shift, read, b :: rest =>
    let read := read ||| ((b &&& 0x7f).toUInt32 <<< shift)
    if b &&& 0x80 = 0 then some (read, rest) else readGroups fuel (shift + 7) read rest

def readNumber (bytes : List UInt8) : Option (UInt32 × List UInt8) := readGroups 5 0 0 bytes

/-- A signed number with its sign in the lowest bit, cut to 32 bits. -/
def foldSign (n : Int) : UInt32 :=
  if 0 ≤ n then (2 * n).toNat.toUInt32 else (-2 * n - 1).toNat.toUInt32

def unfoldSign (n : UInt32) : Int :=
  if n.toNat % 2 = 0 then n.toNat / 2 else -(n.toNat / 2 : Int) - 1

/-! ## Tables -/

structure LineTable where
  bytes : Array UInt8
deriving DecidableEq, Repr, Inhabited

/-- A table under construction: the bytes so far, and the last entry. -/
structure LineTable.Builder where
  bytes : Array UInt8 := #[]
  offset : UInt32 := 0
  mark : Option Mark := none
deriving Inhabited

namespace LineTable

/-- The code from `offset` on has the given mark. -/
def Builder.add (b : Builder) (offset : UInt32) (mark : Mark) : Builder :=
  if b.mark = some mark then b
  else
    let last := b.mark.getD .unknown
    let entry := groups (offset - b.offset).toNat
      ++ groups (foldSign (mark.line.toNat - last.line.toNat)).toNat
      ++ groups (foldSign (mark.column.toNat - last.column.toNat)).toNat
    { bytes := b.bytes ++ entry, offset, mark := some mark }

def Builder.finish (b : Builder) : LineTable := ⟨b.bytes⟩

def ofEntries (entries : List (UInt32 × Mark)) : LineTable :=
  (entries.foldl (fun (b : Builder) e => b.add e.1 e.2) {}).finish

/-- Where a reader of a table stands: offset, line and column of the last entry it read. -/
structure Cursor where
  offset : UInt32 := 0
  line : Int := 0
  column : Int := 0

def Cursor.mark (c : Cursor) : Mark :=
  ⟨.ofInt c.line, .ofInt c.column⟩

/-- The next entry, and the bytes behind it. -/
def Cursor.next? (c : Cursor) (bytes : List UInt8) : Option (Cursor × List UInt8) := do
  let (offset, bytes) ← readNumber bytes
  let (line, bytes) ← readNumber bytes
  let (column, bytes) ← readNumber bytes
  return (⟨c.offset + offset, c.line + unfoldSign line, c.column + unfoldSign column⟩, bytes)

/-- Follows the entries up to the first one beyond `target`; `best` is the mark in force so far.
A malformed entry on the way leaves no answer. -/
def search (target : UInt32) : (fuel : Nat) → Cursor → Option Mark → List UInt8 → Option Mark
  | 0, _, best, _ => best
  | _ + 1, _, best, [] => best
  | fuel + 1, cursor, best, bytes =>
    match cursor.next? bytes with
    | none => none
    | some (cursor, bytes) =>
      if target < cursor.offset then best else search target fuel cursor (some cursor.mark) bytes

/-- The mark in force at a byte offset, if there is one and it is known. -/
def lookup (t : LineTable) (target : UInt32) : Option Mark :=
  (search target t.bytes.size {} none t.bytes.toList).filter Mark.isKnown

end LineTable

end Bytescript
