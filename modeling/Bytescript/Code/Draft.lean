import Bytescript.Code.Instruction
import Bytescript.Source

/-!
# Drafts

A draft is code under construction. Each instruction is noted together with the mark that is current
when it is emitted. Jumps may be emitted before their target is known and bound to it later; the
draft keeps a record of both.
-/

namespace Bytescript

structure Draft where
  code : Array Instruction := #[]
  marks : Array Mark := #[]
  /-- The mark of what is emitted next. -/
  mark : Mark := .unknown
  /-- The jumps that were emitted without a target, the last one first. -/
  labels : List Nat := []
  /-- The jumps that have been bound, and what they were bound to, the last one first. -/
  bindings : List (Nat × Nat) := []
deriving Inhabited

namespace Draft

variable (d : Draft)

/-- The index of the next instruction. -/
def size : Nat := d.code.size

def emit (i : Instruction) : Draft :=
  { d with code := d.code.push i, marks := d.marks.push d.mark }

def setMark (mark : Mark) : Draft := { d with mark }

/-- Takes the last instruction off, with its mark. -/
def takeLast : Option (Instruction × Mark) × Draft :=
  match d.code.back? with
  | none => (none, d)
  | some i =>
    (some (i, d.marks.back?.getD .unknown), { d with code := d.code.pop, marks := d.marks.pop })

/-- Appends an instruction that was taken off, with the mark it had. -/
def restore (taken : Instruction × Mark) : Draft :=
  { d with code := d.code.push taken.1, marks := d.marks.push taken.2 }

/-- The instruction that pushes a small integer without a constant. -/
def immediate? (value : Int64) : Option Instruction :=
  let n := value.toInt
  if -128 ≤ n ∧ n ≤ 127 then some (.pushByte (.ofInt n))
  else if -32768 ≤ n ∧ n ≤ 32767 then some (.pushShort (.ofInt n))
  else none

/-- Emits a jump whose target is not known yet. -/
def emitJump (trigger : Trigger) : Draft :=
  { d.emit (.jump trigger 0) with labels := d.size :: d.labels }

/-- Lets the jump at an index aim at `target`. -/
def bind (jump target : Nat) : Draft :=
  { d with
    code := d.code.modify jump (·.retarget target.toUInt32)
    bindings := (jump, target) :: d.bindings }

/-- Lets the jump at an index aim at the next instruction. -/
def bindHere (jump : Nat) : Draft := d.bind jump d.size

end Draft

end Bytescript
