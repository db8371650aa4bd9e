import Bytescript.Machine

/-!
# Steps

What each instruction does. Operands are taken off the stack in the order right to left, each
checked as it comes off; a result is pushed last, so running out of stack is the last thing that can
fail.
-/

namespace Bytescript

/-- How it goes on after an instruction. -/
inductive Flow where
  | next
  | halt
  /-- The outermost frame has returned a value, and there is none left. -/
  | leave (result : Value)
deriving DecidableEq, Repr

/-! ## Operators -/

/-- Integers wrap around; quotients are cut toward zero. -/
def ArithOp.onInts : ArithOp → Int64 → Int64 → Except RunError Int64
  | .add, a, b => .ok (a + b)
  | .sub, a, b => .ok (a - b)
  | .mul, a, b => .ok (a * b)
  | .div, a, b => if b = 0 then .error .divisionByZero else .ok (a / b)
  | .mod, a, b => if b = 0 then .error .divisionByZero else .ok (a % b)

def ArithOp.onFloats : ArithOp → Double → Double → Double
  | .add, a, b => a.add b
  | .sub, a, b => a.sub b
  | .mul, a, b => a.mul b
  | .div, a, b => a.div b
  | .mod, a, b => a.rem b

def Comparison.onInts : Comparison → Int64 → Int64 → Bool
  | .eq, a, b => a = b
  | .ne, a, b => a ≠ b
  | .lt, a, b => a < b
  | .le, a, b => a ≤ b
  | .gt, a, b => b < a
  | .ge, a, b => b ≤ a

/-- A NaN is unequal to everything and in no order with anything. -/
def Comparison.onFloats : Comparison → Double → Double → Bool
  | .eq, a, b => a.equal b
  | .ne, a, b => !a.equal b
  | .lt, a, b => a.less b
  | .le, a, b => a.lessEqual b
  | .gt, a, b => b.less a
  | .ge, a, b => b.lessEqual a

namespace Exec

/-- Strings are equal if their texts are; all else is compared as values. -/
def sameReference (a b : Value) : Exec Bool :=
  match a, b with
  | .stringRef a, .stringRef b => readHeap (·.stringsEqual a b)
  | a, b => return a.equal b

variable (env : Setting)

/-- The value of a constant; a string is a new one each time. -/
def constant (index : UInt16) : Exec Value := do
  match env.program.pool.get index with
  | .error e => throw (.pool e)
  | .ok (.integer n) => return .int n
  | .ok (.float x) => return .float x
  | .ok (.string s) => return .stringRef (← allocate (.string s))
  | .ok _ => throw (.unpushableConstant index)

/-- Takes two operands off the stack and computes. -/
def arith (op : ArithOp) : Kind → Exec Value
  | .float => do
    let b ← popFloat
    let a ← popFloat
    return .float (op.onFloats a b)
  | _ => do
    let b ← popInt
    let a ← popInt
    match op.onInts a b with
    | .ok n => return .int n
    | .error e => throw e

/-- Takes two operands off the stack and compares. -/
def compare (cmp : Comparison) : Kind → Exec Bool
  | .int => do
    let b ← popInt
    let a ← popInt
    return cmp.onInts a b
  | .float => do
    let b ← popFloat
    let a ← popFloat
    return cmp.onFloats a b
  | .ref => do
    let b ← pop
    let a ← pop
    let same ← sameReference a b
    return if cmp = .ne then !same else same

/-- Whether a jump is taken; a conditional one takes its condition off the stack. -/
def triggered : Trigger → Exec Bool
  | .always => return true
  | .ifTrue => return (← popInt) != 0
  | .ifFalse => return (← popInt) == 0

/-- Calls a routine by the index of its constant. -/
def call (callee : UInt16) : Exec Unit := do
  match env.program.routines[callee]? with
  | none => throw (.unresolvedCall callee)
  | some routine =>
    if env.limits.frames ≤ (← depth) then throw (.frameOverflow env.limits.frames)
    enter routine

/-- Calls a native with the arguments on top of the stack. -/
def callNative (index : UInt16) : Exec Value := do
  match env.natives[index.toNat]? with
  | none => throw (.unresolvedNative index)
  | some native =>
    let args ← popMany native.signature.params.length
    onWorld (.nativeFailure native.signature.name) (native.run args.toList)

/-- Hands a value to the caller. The return address has to lie on top of the stack. -/
def ret (result : Value) : Exec Flow := do
  match ← pop with
  | .int address =>
    if address.toUInt64.toNat ≠ (← get).frame.returnAddress then throw .corruptFrame
    if ← leave then
      push env.limits.stack result
      return .next
    else return .leave result
  | _ => throw .corruptFrame

/-- The effect of an instruction. -/
def perform (i : Instruction) : Exec Flow := do
  let push := push env.limits.stack
  match i with
  | .noOp => return .next
  | .stop => return .halt
  | .pushByte n => push (.int n.toInt64)
  | .pushShort n => push (.int n.toInt64)
  | .pushConst index => push (← constant env index)
  | .pushVoid => push .void
  | .pop => let _ ← pop
  | .dup => push (← peek 0)
  | .dup2 =>
    let below ← peek 1
    let top ← peek 0
    push below
    push top
  | .load _ slot => push (← readSlot slot)
  | .store kind slot =>
    let index ← slotIndex slot
    writeSlot index (← popKind kind)
  | .getField _ member =>
    let object ← popObject
    push (← readHeap (·.field object member.toNat))
  | .setField kind member =>
    let v ← popKind kind
    let object ← popObject
    onHeap (·.setField object member.toNat v)
  | .arith kind op => push (← arith op kind)
  | .neg .float => push (.float (← popFloat).neg)
  | .neg _ => push (.int (-(← popInt)))
  | .concat =>
    let right ← popString
    let left ← popString
    push (.stringRef (← onWorld .heap (·.concat left right)))
  | .compare kind cmp => push (.ofBool (← compare cmp kind))
  | .not => push (.ofBool ((← popInt) == 0))
  | .intToFloat => push (.float (.ofInt (← popInt)))
  | .floatToInt => push (.int (← popFloat).toInt)
  | .jump trigger target => if ← triggered trigger then goTo target.toNat
  | .call callee => call env callee
  | .callNative index => push (← callNative env index)
  | .ret => return ← ret env (← pop)
  | .retVoid => return ← ret env .void
  | .newArray kind =>
    let n ← popInt
    if n < 0 then throw (.negativeLength n)
    push (.objectRef (← allocate (.array (.replicate n.toNatClampNeg (.initial kind)))))
  | .getElement _ =>
    let index ← popIndex
    let array ← popObject
    push (← readHeap (·.element array index))
  | .setElement kind =>
    let v ← popKind kind
    let index ← popIndex
    let array ← popObject
    onHeap (·.setElement array index v)
  | .arrayLength =>
    let array ← popObject
    push (.int (.ofNat (← readHeap (·.arraySize array))))
  | .newObject layout =>
    match env.program.shapes[layout]? with
    | none => throw (.unresolvedClass layout)
    | some shape => push (.objectRef (← allocate (.object layout shape.fields)))
  | .delete =>
    let id ← popReference
    let _ ← onWorld .heap (·.release id)
  return .next

/-- Reads the next instruction and moves behind it. There is none at the end of the outermost frame;
a called routine has to return before its end. -/
def fetch : Exec (Option Instruction)
  | ⟨id, ⟨routine, next, back, stack, slots⟩, callers, pc, world⟩ =>
    if next < routine.body.bytes.size then
      match decodeAt routine.body.bytes next with
      | .error e => .error (.decode e) ⟨id, ⟨routine, next, back, stack, slots⟩, callers, pc, world⟩
      | .ok (i, behind) =>
        let world := world.note .trace fun _ =>
          s!"context {id}: " ++ Text.padLeft '0' 4 (toString next) ++ " " ++ i.text
        .ok (some i) ⟨id, ⟨routine, behind, back, stack, slots⟩, callers, next, world⟩
    else if callers.isEmpty then
      .ok none ⟨id, ⟨routine, next, back, stack, slots⟩, callers, pc, world⟩
    else
      .error (.missingReturn routine.name)
        ⟨id, ⟨routine, next, back, stack, slots⟩, callers, pc, world⟩

/-- One step of a machine. -/
def step : Exec Flow := do
  match ← fetch with
  | some i => perform env i
  | none => return .halt

end Exec

/-! ## Runs -/

/-- How a run ends. -/
inductive Ending where
  /-- The steps that were granted are used up. -/
  | paused
  | halted
  | returned (result : Value)
  | failed (cause : RunError)
deriving DecidableEq, Repr

/-- Takes steps until the machine stops or the fuel is used up. -/
def Machine.run (env : Setting) : (fuel : Nat) → Machine → Ending × Machine
  | 0, m => (.paused, m)
  | fuel + 1, m =>
    match Exec.step env m with
    | .ok .next m => run env fuel m
    | .ok .halt m => (.halted, m)
    | .ok (.leave result) m => (.returned result, m)
    | .error cause m => (.failed cause, m)

end Bytescript
