import Bytescript.Native
import Bytescript.Program

/-!
# Machines

The state of one running script and what its instructions are made of. Every routine that has been
called and has not returned has a frame with an operand stack and variable slots of its own.

An operation that fails leaves the machine as it was when it failed: what it had taken off a stack
by then stays off.
-/

namespace Bytescript

/-- Why a script cannot go on. -/
inductive RunError where
  | divisionByZero
  | typeMismatch (expected : Kind) (found : Value)
  | stackUnderflow
  | stackOverflow (limit : Nat)
  | frameOverflow (limit : Nat)
  | unresolvedCall (callee : UInt16)
  | unresolvedNative (native : UInt16)
  | unresolvedClass (layout : UInt16)
  | unpushableConstant (constant : UInt16)
  | negativeLength (length : Int64)
  | negativeIndex (index : Int64)
  | badSlot (slot : UInt16) (count : Nat)
  | nativeFailure (name message : String)
  | corruptFrame
  | missingReturn (name : String)
  | heap (cause : HeapError)
  | pool (cause : PoolError)
  | decode (cause : DecodeError)
deriving DecidableEq, Repr

def RunError.message : RunError → String
  | divisionByZero => "division by zero"
  | typeMismatch expected found =>
    s!"type mismatch: expected {expected.name} value, found {found.typeName}"
  | stackUnderflow => "operand stack underflow"
  | stackOverflow limit => s!"operand stack overflow ({limit} values)"
  | frameOverflow limit => s!"call depth exceeds {limit} frames"
  | unresolvedCall callee => s!"call target #{callee.toNat} is not a compiled callable"
  | unresolvedNative native => s!"native #{native.toNat} is not registered"
  | unresolvedClass layout => s!"class #{layout.toNat} is not a compiled class"
  | unpushableConstant constant => s!"constant #{constant.toNat} cannot be pushed"
  | negativeLength length => s!"array length {length.toInt} is negative"
  | negativeIndex index => s!"array index {index.toInt} is negative"
  | badSlot slot count => s!"slot {slot.toNat} out of range ({count} slots)"
  | nativeFailure name message => s!"native '{name}' failed: {message}"
  | corruptFrame => "frame return address is corrupt"
  | missingReturn name => s!"execution ran past the end of '{name}'"
  | heap cause => cause.message
  | pool cause => cause.message
  | decode cause => cause.message

structure Limits where
  /-- How many frames there may be when a routine is called from code. -/
  frames : Nat := 1024
  /-- How many values the operand stack of a frame may hold. -/
  stack : Nat := 65536
deriving DecidableEq, Repr, Inhabited

/-- What a machine goes by and never changes. -/
structure Setting where
  program : Program
  natives : Array Native
  limits : Limits

structure Frame where
  routine : Routine
  /-- The offset of the next instruction. -/
  pc : Nat
  /-- Where the caller goes on. -/
  returnAddress : Nat
  /-- The operand stack, its top last. -/
  stack : Array Value
  slots : Array Value
deriving Inhabited

namespace Frame

/-- A frame at the start of a routine. -/
def enter (routine : Routine) (returnAddress : Nat) (stack : Array Value) : Frame where
  routine
  pc := 0
  returnAddress
  stack
  slots := .replicate routine.slots .void

/-- A frame at the start of a called routine: on its stack lies the return address, and on that the
arguments with the first on top. -/
def call (routine : Routine) (returnAddress : Nat) (args : Array Value) : Frame :=
  enter routine returnAddress (#[.int (.ofNat returnAddress)] ++ args.reverse)

end Frame

structure Machine where
  /-- The number of the context that runs. -/
  id : Nat
  /-- The innermost frame. -/
  frame : Frame
  /-- The other frames, the outermost first. -/
  callers : Array Frame
  /-- The offset of the instruction that is being executed. -/
  pc : Nat
  world : World

abbrev Exec := EStateM RunError Machine

namespace Exec

/-! ## The operand stack -/

/-- Puts a value onto the stack, if the limit allows. -/
def push (limit : Nat) (v : Value) : Exec Unit
  | ⟨id, ⟨routine, next, back, stack, slots⟩, callers, pc, world⟩ =>
    if limit ≤ stack.size then
      .error (.stackOverflow limit) ⟨id, ⟨routine, next, back, stack, slots⟩, callers, pc, world⟩
    else .ok () ⟨id, ⟨routine, next, back, stack.push v, slots⟩, callers, pc, world⟩

/-- Takes the top off the stack. -/
def pop : Exec Value
  | ⟨id, ⟨routine, next, back, stack, slots⟩, callers, pc, world⟩ =>
    match stack.back? with
    | none => .error .stackUnderflow ⟨id, ⟨routine, next, back, stack, slots⟩, callers, pc, world⟩
    | some v => .ok v ⟨id, ⟨routine, next, back, stack.pop, slots⟩, callers, pc, world⟩

/-- The value so many places below the top of the stack. -/
def peek (below : Nat) : Exec Value := do
  let stack := (← get).frame.stack
  if h : below < stack.size then return stack[stack.size - 1 - below]
  else throw .stackUnderflow

/-- Takes a number of values off the stack; the one on top comes last. -/
def popMany (count : Nat) : Exec (Array Value)
  | ⟨id, ⟨routine, next, back, stack, slots⟩, callers, pc, world⟩ =>
    if stack.size < count then
      .error .stackUnderflow ⟨id, ⟨routine, next, back, stack, slots⟩, callers, pc, world⟩
    else
      let kept := stack.size - count
      let taken := stack.extract kept
      .ok taken ⟨id, ⟨routine, next, back, stack.shrink kept, slots⟩, callers, pc, world⟩

def popInt : Exec Int64 := do
  let v ← pop
  match v with
  | .int n => return n
  | _ => throw (.typeMismatch .int v)

def popFloat : Exec Double := do
  let v ← pop
  match v with
  | .float x => return x
  | _ => throw (.typeMismatch .float v)

def popObject : Exec HeapId := do
  let v ← pop
  match v with
  | .objectRef id => return id
  | _ => throw (.typeMismatch .ref v)

def popString : Exec HeapId := do
  let v ← pop
  match v with
  | .stringRef id => return id
  | _ => throw (.typeMismatch .ref v)

/-- Takes a reference of either sort off the stack. -/
def popReference : Exec HeapId := do
  let v ← pop
  match v.heapId? with
  | some id => return id
  | none => throw (.typeMismatch .ref v)

def popIndex : Exec Nat := do
  let n ← popInt
  if n < 0 then throw (.negativeIndex n) else return n.toNatClampNeg

/-- Takes a value of a kind off the stack. -/
def popKind (kind : Kind) : Exec Value := do
  let v ← pop
  if v.hasKind kind then return v else throw (.typeMismatch kind v)

/-! ## Slots -/

/-- The index of a slot, which has to be there. -/
def slotIndex (slot : UInt16) : Exec Nat := do
  let count := (← get).frame.slots.size
  if slot.toNat < count then return slot.toNat else throw (.badSlot slot count)

def readSlot (slot : UInt16) : Exec Value := do
  let m ← get
  match m.frame.slots[slot.toNat]? with
  | some v => return v
  | none => throw (.badSlot slot m.frame.slots.size)

def writeSlot (index : Nat) (v : Value) : Exec Unit
  | ⟨id, ⟨routine, next, back, stack, slots⟩, callers, pc, world⟩ =>
    .ok () ⟨id, ⟨routine, next, back, stack, slots.setIfInBounds index v⟩, callers, pc, world⟩

/-- Goes on at an offset. -/
def goTo (offset : Nat) : Exec Unit
  | ⟨id, ⟨routine, _, back, stack, slots⟩, callers, pc, world⟩ =>
    .ok () ⟨id, ⟨routine, offset, back, stack, slots⟩, callers, pc, world⟩

/-! ## The world -/

/-- Acts on the world. -/
@[inline]
def onWorld {ε α : Type} (cause : ε → RunError) (f : World → Except ε α × World) : Exec α
  | ⟨id, frame, callers, pc, world⟩ =>
    match f world with
    | (.ok a, world) => .ok a ⟨id, frame, callers, pc, world⟩
    | (.error e, world) => .error (cause e) ⟨id, frame, callers, pc, world⟩

/-- Reads the heap. -/
@[inline]
def readHeap {α : Type} (f : Heap → Except HeapError α) : Exec α := do
  match f (← get).world.heap with
  | .ok a => return a
  | .error e => throw (.heap e)

/-- Changes the heap. -/
@[inline]
def onHeap {α : Type} (f : Heap → Except HeapError α × Heap) : Exec α :=
  onWorld .heap (·.onHeap f)

def allocate (p : Payload) : Exec HeapId := onWorld .heap (·.allocate p)

/-! ## Frames -/

/-- How many frames there are. -/
def depth : Exec Nat := return (← get).callers.size + 1

/-- Calls a routine with the arguments on top of the stack. -/
def enter (routine : Routine) : Exec Unit := do
  let args ← popMany routine.arity
  modify fun ⟨id, frame, callers, pc, world⟩ =>
    ⟨id, .call routine frame.pc args, callers.push frame, pc, world⟩

/-- Drops the innermost frame and goes on in its caller. Answers whether there is one. -/
def leave : Exec Bool
  | ⟨id, frame, callers, pc, world⟩ =>
    match callers.back? with
    | none => .ok false ⟨id, frame, callers, pc, world⟩
    | some ⟨routine, _, back, stack, slots⟩ =>
      .ok true ⟨id, ⟨routine, frame.returnAddress, back, stack, slots⟩, callers.pop, pc, world⟩

end Exec

end Bytescript
