import Bytescript.Code.Instruction
import Bytescript.Text.Quoted

/-!
# Decoding

Reads instructions back from bytes. The targets of decoded jumps are byte offsets. Decoding can go
on behind an error, at `DecodeError.resume`.
-/

namespace Bytescript

inductive DecodeError where
  | unknownOpcode (offset : Nat) (byte : UInt8)
  /-- The bytes end at an offset where an instruction needs one more. -/
  | truncated (offset : Nat)
  /-- The prefix at an offset stands before an opcode without an index. -/
  | misplacedWide (offset : Nat) (op : Opcode)
deriving DecidableEq, Repr

namespace DecodeError

def message : DecodeError → String
  | unknownOpcode offset byte =>
    "unknown opcode 0x" ++ Text.padLeft '0' 2 (Text.hex byte.toNat) ++ s!" at byte {offset}"
  | truncated offset => s!"instruction at byte {offset} is truncated"
  | misplacedWide offset op =>
    s!"wide prefix at byte {offset} precedes {op.name}, which has no index operand"

/-- The offset behind the bytes that were read before the error. -/
def resume : DecodeError → Nat
  | unknownOpcode offset _ => offset + 1
  | truncated offset => offset
  | misplacedWide offset _ => offset + 2

end DecodeError

namespace Decoding

variable (bytes : Array UInt8)

def readByte (pc : Nat) : Except DecodeError UInt8 :=
  match bytes[pc]? with
  | some b => .ok b
  | none => .error (.truncated pc)

def readOpcode (pc : Nat) : Except DecodeError Opcode := do
  let b ← readByte bytes pc
  match Opcode.ofByte? b with
  | some op => return op
  | none => throw (.unknownOpcode pc b)

/-- Two bytes, the lower first. -/
def readShort (pc : Nat) : Except DecodeError UInt16 := do
  let low ← readByte bytes pc
  let high ← readByte bytes (pc + 1)
  return low.toUInt16 ||| (high.toUInt16 <<< 8)

/-- An index of two bytes if it is wide, and of one if not. -/
def readIndex (isWide : Bool) (pc : Nat) : Except DecodeError UInt16 :=
  if isWide then readShort bytes pc else do return (← readByte bytes pc).toUInt16

/-- The instruction of an opcode with an index. -/
def indexed? (index : UInt16) : Opcode → Option Instruction
  | .pushConst => some (.pushConst index)
  | .load kind => some (.load kind index)
  | .store kind => some (.store kind index)
  | .getField kind => some (.getField kind index)
  | .setField kind => some (.setField kind index)
  | .jump trigger => some (.jump trigger index.toUInt32)
  | .call => some (.call index)
  | .callNative => some (.callNative index)
  | .newObject => some (.newObject index)
  | _ => none

/-- The instruction of an opcode without operand. -/
def plain? : Opcode → Option Instruction
  | .noOp => some .noOp
  | .stop => some .stop
  | .pushVoid => some .pushVoid
  | .pop => some .pop
  | .dup => some .dup
  | .dup2 => some .dup2
  | .arith kind op => some (.arith kind.toKind op)
  | .neg kind => some (.neg kind.toKind)
  | .concat => some .concat
  | .compare kind cmp => some (.compare kind.toKind cmp)
  | .eqRef => some (.compare .ref .eq)
  | .neRef => some (.compare .ref .ne)
  | .not => some .not
  | .intToFloat => some .intToFloat
  | .floatToInt => some .floatToInt
  | .ret => some .ret
  | .retVoid => some .retVoid
  | .newArray kind => some (.newArray kind)
  | .getElement kind => some (.getElement kind)
  | .setElement kind => some (.setElement kind)
  | .arrayLength => some .arrayLength
  | .delete => some .delete
  | _ => none

/-- The instruction of an opcode whose operand begins at `pc`, and the offset behind it. -/
def withOperand (op : Opcode) (isWide : Bool) (pc : Nat) :
    Except DecodeError (Instruction × Nat) :=
  match op with
  | .pushByte => do return (.pushByte (← readByte bytes pc).toInt8, pc + 1)
  | .pushShort => do return (.pushShort (← readShort bytes pc).toInt16, pc + 2)
  | op =>
    match plain? op with
    | some i => .ok (i, pc)
    | none => do
      let index ← readIndex bytes isWide pc
      match indexed? index op with
      | some i => return (i, pc + if isWide then 2 else 1)
      | none => throw (.misplacedWide (pc - 1) op)

end Decoding

open Decoding in
/-- The instruction at a byte offset, and the offset of the one behind it. -/
def decodeAt (bytes : Array UInt8) (pc : Nat) : Except DecodeError (Instruction × Nat) := do
  let op ← readOpcode bytes pc
  if op = .wide then
    let op ← readOpcode bytes (pc + 1)
    if op.isScalable then withOperand bytes op true (pc + 2)
    else throw (.misplacedWide pc op)
  else
    withOperand bytes op false (pc + 1)

/-- One item of a decoded stretch: where it begins, what stands there, and where decoding goes on.
-/
structure Decoded where
  offset : Nat
  item : Except DecodeError Instruction
  next : Nat

/-- What stands at an offset, an error included. -/
def Decoded.read (bytes : Array UInt8) (pc : Nat) : Decoded :=
  match decodeAt bytes pc with
  | .ok (i, next) => ⟨pc, .ok i, next⟩
  | .error e => ⟨pc, .error e, e.resume⟩

/-- Every item from an offset on; each takes at least one byte. -/
def decodeItems (bytes : Array UInt8) : (fuel pc : Nat) → (read : Array Decoded) → Array Decoded
  | 0, _, read => read
  | fuel + 1, pc, read =>
    if pc < bytes.size then
      let d := Decoded.read bytes pc
      decodeItems bytes fuel d.next (read.push d)
    else read

def decodeFrom (bytes : Array UInt8) (pc : Nat) : Array Decoded :=
  decodeItems bytes bytes.size pc #[]

/-- One line of a listing: the offset in four places or more, and the instruction. -/
def listingLine (offset : Nat) (i : Instruction) : String :=
  Text.padLeft '0' 4 (toString offset) ++ "  " ++ i.text ++ "\n"

/-- The listing of a piece of encoded code, or the first error in it. -/
def disassemble (bytes : Array UInt8) : Except DecodeError String :=
  (decodeFrom bytes 0).foldlM (fun text d => do return text ++ listingLine d.offset (← d.item)) ""

end Bytescript
