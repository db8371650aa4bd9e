import Bytescript.Code.Instruction
import Bytescript.Code.LineTable

/-!
# Encoding

Encoding turns an array of instructions, whose jumps aim at instruction indices, into bytes, where
they aim at byte offsets.

Every instruction takes the narrow form, with a one-byte index, unless its index needs two. The
offsets that jumps aim at depend on the forms chosen, so these are found in rounds: lay everything
out, widen the jumps whose targets have moved beyond one byte, and start over until no jump needs to
be widened. Widening never undoes itself, so there are at most as many rounds as jumps, and one.
-/

namespace Bytescript

inductive EncodeError where
  /-- There is no opcode for the instruction. -/
  | invalid (index : Nat) (instruction : Instruction)
  | targetOutOfRange (index : Nat) (target : UInt32) (size : Nat)
  /-- The byte that a jump aims at is beyond the reach of two bytes. -/
  | offsetOverflow (index : Nat) (offset : Nat)
  /-- Laying the code out overflows its offsets, which are numbers of 32 bits. -/
  | tooLong (bytes : Nat)
deriving DecidableEq, Repr

def EncodeError.message : EncodeError → String
  | invalid index instruction => s!"instruction {index} has no opcode: {instruction.describe}"
  | targetOutOfRange index target size =>
    s!"jump at instruction {index} targets {target.toNat}, past the end ({size})"
  | offsetOverflow index offset =>
    s!"jump at instruction {index} lands at byte {offset}, beyond the 16-bit range"
  | tooLong bytes => s!"code takes {bytes} bytes, beyond the 32-bit range"

/-- The encoded form of a piece of code. -/
structure Body where
  bytes : Array UInt8
  /-- The byte offset of every instruction, and last that of the end. -/
  offsets : Array Nat
  lines : LineTable
deriving Inhabited

namespace Layout

/-! ## Opcodes and forms -/

/-- The opcode of an instruction; its target, if it is a jump, has to be an index of the code or its
end. -/
def opcodeAt (size index : Nat) (i : Instruction) : Except EncodeError Opcode :=
  match i.opcode? with
  | none => .error (.invalid index i)
  | some op =>
    match i.jumpTarget? with
    | some target =>
      if size < target.toNat then .error (.targetOutOfRange index target size) else .ok op
    | none => .ok op

/-- The opcodes of all instructions, or the first reason why there are none. -/
def opcodes (code : Array Instruction) : Except EncodeError (Array Opcode) :=
  code.zipIdx.mapM fun (i, index) => opcodeAt code.size index i

/-- Jumps start out narrow; what else has an index is wide if the index needs it. -/
def startsWide (i : Instruction) : Bool :=
  i.jumpTarget?.isNone && i.index?.any (255 < ·)

/-- How many bytes an instruction takes in the given form. -/
def size (op : Opcode) (isWide : Bool) : Nat :=
  (if isWide then 1 else 0) + 1 + op.operandBytes isWide

/-- The offset of every instruction, and that of the end, when each takes the given form. -/
def offsets (ops : Array Opcode) (wide : Array Bool) : Array Nat :=
  let (before, stop) := (ops.zip wide).foldl
    (fun (before, offset) (op, isWide) => (before.push offset, offset + size op isWide)) (#[], 0)
  before.push stop

/-! ## Rounds -/

/-- The form of one instruction after a round. -/
def widen (offsets : Array Nat) (index : Nat) (i : Instruction) (isWide : Bool) :
    Except EncodeError Bool :=
  match i.jumpTarget? with
  | none => .ok isWide
  | some target =>
    let offset := offsets.getD target.toNat 0
    if 65535 < offset then .error (.offsetOverflow index offset)
    else .ok (isWide || 255 < offset)

/-- The forms after a round, from the forms before it. -/
def round (code : Array Instruction) (ops : Array Opcode) (wide : Array Bool) :
    Except EncodeError (Array Bool) :=
  let offsets := offsets ops wide
  (code.zip wide).zipIdx.mapM fun ((i, isWide), index) => widen offsets index i isWide

/-- Rounds until one changes nothing, at most `fuel` of them. -/
def settle (code : Array Instruction) (ops : Array Opcode) :
    (fuel : Nat) → Array Bool → Except EncodeError (Array Bool)
  | 0, wide => .ok wide
  | fuel + 1, wide =>
    match round code ops wide with
    | .error e => .error e
    | .ok wide' => if wide' = wide then .ok wide else settle code ops fuel wide'

def jumpCount (code : Array Instruction) : Nat :=
  code.foldl (fun n i => if i.jumpTarget?.isSome then n + 1 else n) 0

/-- The form of every instruction. -/
def forms (code : Array Instruction) (ops : Array Opcode) : Except EncodeError (Array Bool) :=
  settle code ops (jumpCount code + 1) (code.map startsWide)

/-! ## Bytes -/

/-- An index in one byte, or in two with the lower first. -/
def indexBytes (isWide : Bool) (n : Nat) : List UInt8 :=
  if isWide then [n.toUInt8, (n / 256).toUInt8] else [n.toUInt8]

/-- The operand of an instruction; a jump aims at an offset. -/
def operandBytes (offsets : Array Nat) (isWide : Bool) (i : Instruction) : List UInt8 :=
  match i with
  | .pushByte value => [value.toUInt8]
  | .pushShort value => indexBytes true value.toUInt16.toNat
  | i =>
    match i.jumpTarget? with
    | some target => indexBytes isWide (offsets.getD target.toNat 0)
    | none => (i.index?.map fun n => indexBytes isWide n.toNat).getD []

def bytesOf (offsets : Array Nat) (op : Opcode) (isWide : Bool) (i : Instruction) : List UInt8 :=
  (if isWide then [Opcode.wide.toByte] else []) ++ op.toByte :: operandBytes offsets isWide i

end Layout

open Layout in
/-- Encodes code in which the instruction at each index has the mark at that index, and none beyond
the end of `marks`. -/
def encode (code : Array Instruction) (marks : Array Mark) : Except EncodeError Body := do
  let ops ← opcodes code
  let wide ← forms code ops
  let offsets := Layout.offsets ops wide
  let size := offsets.back?.getD 0
  if UInt32.size ≤ size then throw (.tooLong size)
  let bytes := ((code.zip ops).zip wide).foldl
    (fun bytes ((i, op), isWide) => bytes ++ bytesOf offsets op isWide i) #[]
  let lines := (offsets.pop).zipIdx.foldl
    (fun (b : LineTable.Builder) (offset, index) =>
      b.add offset.toUInt32 (marks.getD index .unknown)) {}
  return { bytes, offsets, lines := lines.finish }

end Bytescript
