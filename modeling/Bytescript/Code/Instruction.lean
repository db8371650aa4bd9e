import Bytescript.Code.Opcode

/-!
# Instructions

An instruction with its operands at their widest. While code is drafted, the target of a jump is
the index of an instruction; in encoded code it is a byte offset.

Some instructions have no opcode: there is no arithmetic on references and no order among them.
-/

namespace Bytescript

inductive Instruction where
  | noOp
  | stop
  | pushByte (value : Int8)
  | pushShort (value : Int16)
  | pushConst (constant : UInt16)
  | pushVoid
  | pop
  | dup
  | dup2
  | load (kind : Kind) (slot : UInt16)
  | store (kind : Kind) (slot : UInt16)
  | getField (kind : Kind) (member : UInt16)
  | setField (kind : Kind) (member : UInt16)
  | arith (kind : Kind) (op : ArithOp)
  | neg (kind : Kind)
  | concat
  | compare (kind : Kind) (cmp : Comparison)
  | not
  | intToFloat
  | floatToInt
  | jump (trigger : Trigger) (target : UInt32)
  | call (callee : UInt16)
  | callNative (native : UInt16)
  | ret
  | retVoid
  | newArray (kind : Kind)
  | getElement (kind : Kind)
  | setElement (kind : Kind)
  | arrayLength
  | newObject (layout : UInt16)
  | delete
deriving DecidableEq, Repr

namespace Instruction

instance : Inhabited Instruction := ⟨noOp⟩

/-- The kind as one with arithmetic, if it has any. -/
def numKind? : Kind → Option NumKind
  | .int => some .int
  | .float => some .float
  | .ref => none

def opcode? : Instruction → Option Opcode
  | noOp => some .noOp
  | stop => some .stop
  | pushByte _ => some .pushByte
  | pushShort _ => some .pushShort
  | pushConst _ => some .pushConst
  | pushVoid => some .pushVoid
  | pop => some .pop
  | dup => some .dup
  | dup2 => some .dup2
  | load kind _ => some (.load kind)
  | store kind _ => some (.store kind)
  | getField kind _ => some (.getField kind)
  | setField kind _ => some (.setField kind)
  | arith kind op => (numKind? kind).map (.arith · op)
  | neg kind => (numKind? kind).map .neg
  | concat => some .concat
  | compare .ref .eq => some .eqRef
  | compare .ref .ne => some .neRef
  | compare kind cmp => (numKind? kind).map (.compare · cmp)
  | not => some .not
  | intToFloat => some .intToFloat
  | floatToInt => some .floatToInt
  | jump trigger _ => some (.jump trigger)
  | call _ => some .call
  | callNative _ => some .callNative
  | ret => some .ret
  | retVoid => some .retVoid
  | newArray kind => some (.newArray kind)
  | getElement kind => some (.getElement kind)
  | setElement kind => some (.setElement kind)
  | arrayLength => some .arrayLength
  | newObject _ => some .newObject
  | delete => some .delete

/-- The operand that the `wide` form lengthens. -/
def index? : Instruction → Option UInt32
  | pushConst n | load _ n | store _ n | getField _ n | setField _ n | call n | callNative n
  | newObject n => some n.toUInt32
  | jump _ target => some target
  | _ => none

def jumpTarget? : Instruction → Option UInt32
  | jump _ target => some target
  | _ => none

/-- The same jump to another place; other instructions stay as they are. -/
def retarget (target : UInt32) : Instruction → Instruction
  | jump trigger _ => jump trigger target
  | i => i

def isReturn : Instruction → Bool
  | ret | retVoid => true
  | _ => false

/-! ## Texts -/

/-- The name of the instruction and its operands by name. -/
def parts : Instruction → String × List (String × String)
  | noOp => ("NoOp", [])
  | stop => ("Stop", [])
  | pushByte value => ("PushByte", [("value", toString value.toInt)])
  | pushShort value => ("PushShort", [("value", toString value.toInt)])
  | pushConst n => ("PushConst", [("idx", toString n.toNat)])
  | pushVoid => ("PushVoid", [])
  | pop => ("Pop", [])
  | dup => ("Dup", [])
  | dup2 => ("Dup2", [])
  | load kind n => ("Load", [("kind", kind.name), ("slot", toString n.toNat)])
  | store kind n => ("Store", [("kind", kind.name), ("slot", toString n.toNat)])
  | getField kind n => ("GetField", [("kind", kind.name), ("member", toString n.toNat)])
  | setField kind n => ("SetField", [("kind", kind.name), ("member", toString n.toNat)])
  | arith kind op => ("Arith", [("kind", kind.name), ("op", op.name)])
  | neg kind => ("Neg", [("kind", kind.name)])
  | concat => ("Concat", [])
  | compare kind cmp => ("Compare", [("kind", kind.name), ("cmp", cmp.name)])
  | not => ("Not", [])
  | intToFloat => ("IntToFloat", [])
  | floatToInt => ("FloatToInt", [])
  | jump trigger target => (trigger.name, [("target", toString target.toNat)])
  | call n => ("Call", [("idx", toString n.toNat)])
  | callNative n => ("CallNative", [("idx", toString n.toNat)])
  | ret => ("Ret", [])
  | retVoid => ("RetVoid", [])
  | newArray kind => ("NewArray", [("kind", kind.name)])
  | getElement kind => ("GetElement", [("kind", kind.name)])
  | setElement kind => ("SetElement", [("kind", kind.name)])
  | arrayLength => ("ArrayLength", [])
  | newObject n => ("NewObject", [("idx", toString n.toNat)])
  | delete => ("Delete", [])

/-- The instruction spelled out with all its operands. -/
def describe (i : Instruction) : String :=
  match i.parts with
  | (name, []) => name
  | (name, operands) =>
    name ++ " \x7b " ++ ", ".intercalate (operands.map fun (k, v) => k ++ ": " ++ v) ++ " \x7d"

/-- The operand as listings show it, after a sign for what it counts. -/
def operandText : Instruction → String
  | pushByte value => s!" {value.toInt}"
  | pushShort value => s!" {value.toInt}"
  | pushConst n | call n | newObject n => s!" #{n.toNat}"
  | load _ n | store _ n => s!" ${n.toNat}"
  | getField _ n | setField _ n => s!" .{n.toNat}"
  | jump _ target => s!" @{target.toNat}"
  | callNative n => s!" !{n.toNat}"
  | _ => ""

/-- The instruction as listings show it. -/
def text (i : Instruction) : String :=
  match i.opcode? with
  | some op => op.mnemonic ++ i.operandText
  | none => "<invalid " ++ i.describe ++ ">"

end Instruction

end Bytescript
