import Bytescript.Code.Instruction
import Bytescript.Json
import Bytescript.Source

/-!
# Code in JSON

An instruction is an array of its name and its operands: `["Load", "Int", 3]`. The kind comes first;
what stands behind the operands is ignored. Bytes are a string of two hexadecimal digits each, and a
mark is an array of line and column.
-/

namespace Bytescript

/-- One of several things, by its name. -/
def Json.named? {α : Type} (name : α → String) (all : List α) (j : Json) : Option α := do
  all.find? (name · = (← j.string?))

def Kind.ofJson? : Json → Option Kind := Json.named? Kind.name Kind.all

def Json.uint16? (j : Json) : Option UInt16 := (j.intIn? 0 65535).map fun n => n.toNat.toUInt16

def Json.uint32? (j : Json) : Option UInt32 := (j.intIn? 0 4294967295).map fun n => n.toNat.toUInt32

/-- The bytes of pairs of hexadecimal digits, appended to others. -/
def Json.pairs? (read : Array UInt8) : List Char → Option (Array UInt8)
  | [] => some read
  | high :: low :: rest => do
    pairs? (read.push (16 * (← hexDigit? high) + (← hexDigit? low)).toUInt8) rest
  | [_] => none

def Json.bytes? (j : Json) : Option (Array UInt8) := do pairs? #[] (← j.string?).toList

def Mark.ofJson? (j : Json) : Option Mark := do
  let [line, column] ← j.array? | none
  return ⟨← line.uint32?, ← column.uint32?⟩

/-- A byte offset before a line and a column. -/
def Mark.entry? (j : Json) : Option (UInt32 × Mark) := do
  let [offset, line, column] ← j.array? | none
  return (← offset.uint32?, ⟨← line.uint32?, ← column.uint32?⟩)

namespace Instruction

/-- The instructions without operands, by name. -/
def plain? : String → Option Instruction
  | "NoOp" => some .noOp
  | "Stop" => some .stop
  | "PushVoid" => some .pushVoid
  | "Pop" => some .pop
  | "Dup" => some .dup
  | "Dup2" => some .dup2
  | "Concat" => some .concat
  | "Not" => some .not
  | "IntToFloat" => some .intToFloat
  | "FloatToInt" => some .floatToInt
  | "Ret" => some .ret
  | "RetVoid" => some .retVoid
  | "ArrayLength" => some .arrayLength
  | "Delete" => some .delete
  | _ => none

/-- The instructions with one operand. -/
def withOne? (name : String) (a : Json) : Option Instruction :=
  match name with
  | "PushByte" => do return .pushByte (.ofInt (← a.intIn? (-128) 127))
  | "PushShort" => do return .pushShort (.ofInt (← a.intIn? (-32768) 32767))
  | "PushConst" => do return .pushConst (← a.uint16?)
  | "Neg" => do return .neg (← Kind.ofJson? a)
  | "Call" => do return .call (← a.uint16?)
  | "CallNative" => do return .callNative (← a.uint16?)
  | "NewArray" => do return .newArray (← Kind.ofJson? a)
  | "GetElement" => do return .getElement (← Kind.ofJson? a)
  | "SetElement" => do return .setElement (← Kind.ofJson? a)
  | "NewObject" => do return .newObject (← a.uint16?)
  | name => do return .jump (← Trigger.all.find? (·.name = name)) (← a.uint32?)

/-- The instructions with a kind and another operand. -/
def withTwo? (name : String) (a b : Json) : Option Instruction := do
  match name with
  | "Load" => return .load (← Kind.ofJson? a) (← b.uint16?)
  | "Store" => return .store (← Kind.ofJson? a) (← b.uint16?)
  | "GetField" => return .getField (← Kind.ofJson? a) (← b.uint16?)
  | "SetField" => return .setField (← Kind.ofJson? a) (← b.uint16?)
  | "Arith" => return .arith (← Kind.ofJson? a) (← b.named? ArithOp.name ArithOp.all)
  | "Compare" => return .compare (← Kind.ofJson? a) (← b.named? Comparison.name Comparison.all)
  | _ => none

def ofJson? (j : Json) : Option Instruction := do
  let name :: operands ← j.array? | none
  let name ← name.string?
  match plain? name, operands with
  | some i, _ => return i
  | none, [a] => withOne? name a
  | none, a :: b :: _ => withTwo? name a b <|> withOne? name a
  | none, [] => none

end Instruction

end Bytescript
