import Bytescript.Operator

/-!
# Opcodes

Every instruction begins with one opcode byte. Opcodes that work on one kind of values carry it,
and `Opcode.all` lists them in the order of their bytes, from zero on.

An index operand takes one byte, or two after the opcode `wide`; the two immediate pushes have
operands of a fixed width, and all other opcodes none.
-/

namespace Bytescript

/-- Kinds that have arithmetic and an order. -/
inductive NumKind where
  | int
  | float
deriving DecidableEq, Repr

/-- When a jump is taken: always, or depending on the value that it pops. -/
inductive Trigger where
  | always
  | ifTrue
  | ifFalse
deriving DecidableEq, Repr, Inhabited

inductive Opcode where
  /-- The next instruction has a two-byte index. -/
  | wide
  | noOp
  | stop
  | pushByte
  | pushShort
  | pushConst
  | pushVoid
  | pop
  | dup
  | dup2
  | load (kind : Kind)
  | store (kind : Kind)
  | getField (kind : Kind)
  | setField (kind : Kind)
  | arith (kind : NumKind) (op : ArithOp)
  | neg (kind : NumKind)
  | concat
  | compare (kind : NumKind) (cmp : Comparison)
  | eqRef
  | neRef
  | not
  | intToFloat
  | floatToInt
  | jump (trigger : Trigger)
  | call
  | callNative
  | ret
  | retVoid
  | newArray (kind : Kind)
  | getElement (kind : Kind)
  | setElement (kind : Kind)
  | arrayLength
  | newObject
  | delete
deriving DecidableEq, Repr

namespace NumKind

def toKind : NumKind → Kind
  | int => .int
  | float => .float

end NumKind

namespace Trigger

def all : List Trigger := [always, ifTrue, ifFalse]

def name : Trigger → String
  | always => "Jump"
  | ifTrue => "JumpIfTrue"
  | ifFalse => "JumpIfFalse"

def mnemonic : Trigger → String
  | always => "jmp"
  | ifTrue => "jmp_if_true"
  | ifFalse => "jmp_if_false"

end Trigger

namespace Opcode

/-- The opcodes in the order of their bytes. -/
def all : Array Opcode :=
  #[wide, noOp, stop, pushByte, pushShort, pushConst, pushVoid, pop, dup, dup2,
    load .int, load .float, load .ref, store .int, store .float, store .ref,
    getField .int, getField .float, getField .ref, setField .int, setField .float, setField .ref,
    arith .int .add, arith .int .sub, arith .int .mul, arith .int .div, arith .int .mod, neg .int,
    arith .float .add, arith .float .sub, arith .float .mul, arith .float .div, arith .float .mod,
    neg .float, concat,
    compare .int .eq, compare .int .ne, compare .int .lt, compare .int .le, compare .int .gt,
    compare .int .ge, compare .float .eq, compare .float .ne, compare .float .lt,
    compare .float .le, compare .float .gt, compare .float .ge, eqRef, neRef, not,
    intToFloat, floatToInt, jump .always, jump .ifTrue, jump .ifFalse,
    call, callNative, ret, retVoid,
    newArray .int, newArray .float, newArray .ref, getElement .int, getElement .float,
    getElement .ref, setElement .int, setElement .float, setElement .ref, arrayLength,
    newObject, delete]

/-- How many opcodes there are; the bytes from this number on mean nothing. -/
def count : Nat := 71

def ofByte? (b : UInt8) : Option Opcode := all[b.toNat]?

private def kindOffset : Kind → UInt8
  | .int => 0
  | .float => 1
  | .ref => 2

private def arithOffset : ArithOp → UInt8
  | .add => 0
  | .sub => 1
  | .mul => 2
  | .div => 3
  | .mod => 4

private def comparisonOffset : Comparison → UInt8
  | .eq => 0
  | .ne => 1
  | .lt => 2
  | .le => 3
  | .gt => 4
  | .ge => 5

def toByte : Opcode → UInt8
  | wide => 0
  | noOp => 1
  | stop => 2
  | pushByte => 3
  | pushShort => 4
  | pushConst => 5
  | pushVoid => 6
  | pop => 7
  | dup => 8
  | dup2 => 9
  | load kind => 10 + kindOffset kind
  | store kind => 13 + kindOffset kind
  | getField kind => 16 + kindOffset kind
  | setField kind => 19 + kindOffset kind
  | arith .int op => 22 + arithOffset op
  | neg .int => 27
  | arith .float op => 28 + arithOffset op
  | neg .float => 33
  | concat => 34
  | compare .int cmp => 35 + comparisonOffset cmp
  | compare .float cmp => 41 + comparisonOffset cmp
  | eqRef => 47
  | neRef => 48
  | not => 49
  | intToFloat => 50
  | floatToInt => 51
  | jump .always => 52
  | jump .ifTrue => 53
  | jump .ifFalse => 54
  | call => 55
  | callNative => 56
  | ret => 57
  | retVoid => 58
  | newArray kind => 59 + kindOffset kind
  | getElement kind => 62 + kindOffset kind
  | setElement kind => 65 + kindOffset kind
  | arrayLength => 68
  | newObject => 69
  | delete => 70

@[simp]
theorem ofByte?_toByte (op : Opcode) : ofByte? op.toByte = some op := by
  cases op <;> (try (rename Kind => k; cases k)) <;> (try (rename NumKind => k; cases k))
    <;> (try (rename ArithOp => a; cases a)) <;> (try (rename Comparison => c; cases c))
    <;> (try (rename Trigger => t; cases t)) <;> rfl

/-- Whether the opcode has an index operand, which `wide` lengthens. -/
def isScalable : Opcode → Bool
  | pushConst | load _ | store _ | getField _ | setField _ | jump _ | call | callNative
  | newObject => true
  | _ => false

/-- How many operand bytes follow the opcode. -/
def operandBytes (isWide : Bool) : Opcode → Nat
  | pushByte => 1
  | pushShort => 2
  | op => if op.isScalable then (if isWide then 2 else 1) else 0

/-! ## Names -/

def name : Opcode → String
  | wide => "Wide"
  | noOp => "NoOp"
  | stop => "Stop"
  | pushByte => "PushByte"
  | pushShort => "PushShort"
  | pushConst => "PushConst"
  | pushVoid => "PushVoid"
  | pop => "Pop"
  | dup => "Dup"
  | dup2 => "Dup2"
  | load kind => "Load" ++ kind.name
  | store kind => "Store" ++ kind.name
  | getField kind => "GetField" ++ kind.name
  | setField kind => "SetField" ++ kind.name
  | arith kind op => op.name ++ kind.toKind.name
  | neg kind => "Neg" ++ kind.toKind.name
  | concat => "Concat"
  | compare kind cmp => cmp.name ++ kind.toKind.name
  | eqRef => "EqRef"
  | neRef => "NeRef"
  | not => "Not"
  | intToFloat => "IntToFloat"
  | floatToInt => "FloatToInt"
  | jump trigger => trigger.name
  | call => "Call"
  | callNative => "CallNative"
  | ret => "Ret"
  | retVoid => "RetVoid"
  | newArray kind => "NewArray" ++ kind.name
  | getElement kind => "GetElement" ++ kind.name
  | setElement kind => "SetElement" ++ kind.name
  | arrayLength => "ArrayLength"
  | newObject => "NewObject"
  | delete => "Delete"

/-- How listings spell the opcode. -/
def mnemonic : Opcode → String
  | wide => "wide"
  | noOp => "no_op"
  | stop => "stop"
  | pushByte => "push_byte"
  | pushShort => "push_short"
  | pushConst => "push_const"
  | pushVoid => "push_void"
  | pop => "pop"
  | dup => "dup"
  | dup2 => "dup2"
  | load kind => "load_" ++ kind.suffix
  | store kind => "store_" ++ kind.suffix
  | getField kind => "get_field_" ++ kind.suffix
  | setField kind => "set_field_" ++ kind.suffix
  | arith kind op => op.mnemonic ++ "_" ++ kind.toKind.suffix
  | neg kind => "neg_" ++ kind.toKind.suffix
  | concat => "concat"
  | compare kind cmp => cmp.mnemonic ++ "_" ++ kind.toKind.suffix
  | eqRef => "eq_ref"
  | neRef => "ne_ref"
  | not => "not"
  | intToFloat => "int_to_float"
  | floatToInt => "float_to_int"
  | jump trigger => trigger.mnemonic
  | call => "call"
  | callNative => "call_native"
  | ret => "ret"
  | retVoid => "ret_void"
  | newArray kind => "new_array_" ++ kind.suffix
  | getElement kind => "get_element_" ++ kind.suffix
  | setElement kind => "set_element_" ++ kind.suffix
  | arrayLength => "array_length"
  | newObject => "new_object"
  | delete => "delete"

end Opcode

end Bytescript
