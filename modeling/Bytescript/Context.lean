import Bytescript.Machine.Step

/-!
# Contexts

A context is one run of a program, of its top-level code or of one of its functions. It can be
executed once; how it ended stays on record.
-/

namespace Bytescript

/-- Where and why a context stopped with an error. -/
structure Fault where
  cause : RunError
  /-- The routine whose frame was the innermost. -/
  routine : String
  pc : Nat
  mark : Option Mark
deriving DecidableEq, Repr

def Fault.message (f : Fault) : String :=
  s!"{f.cause.message} in {f.routine} at pc {f.pc}" ++
    match f.mark with
    | some mark => s!" (line {mark.text})"
    | none => ""

inductive Status where
  | ready
  | running
  | halted
  | failed
deriving DecidableEq, Repr, Inhabited

/-- Whether the context has run to its end. -/
def Status.isOver : Status → Bool
  | halted | failed => true
  | ready | running => false

structure Context where
  id : Nat
  /-- Whether it runs the top-level code. -/
  isMain : Bool
  status : Status := .ready
  /-- The frames, the outermost first. -/
  frames : Array Frame
  /-- The offset of the instruction that was executed last. -/
  pc : Nat := 0
  result : Option Value := none
  fault : Option Fault := none

namespace Context

/-- A context for the top-level code. -/
def forMain (p : Program) (id : Nat) : Context where
  id
  isMain := true
  frames := #[.enter p.main 0 #[]]

/-- A context for one call. -/
def forCall (routine : Routine) (args : List Value) (id : Nat) : Context where
  id
  isMain := false
  frames := #[.call routine 0 args.toArray]

/-- The value of a variable of the top-level code, if this is what the context runs. -/
def global (c : Context) (p : Program) (name : String) : Option Value := do
  let global ← p.globals[name]?
  guard c.isMain
  let frame ← c.frames[0]?
  frame.slots[global.slot.toNat]?

/-- The context of a machine that has stopped, and the world it leaves. -/
def settle (isMain : Bool) (ending : Ending) (m : Machine) : Context × World :=
  match m with
  | ⟨id, frame, callers, pc, world⟩ =>
    match ending with
    | .paused =>
      ({ id, isMain, pc, status := .running, frames := callers.push frame }, world)
    | .halted =>
      ({ id, isMain, pc, status := .halted, frames := callers.push frame },
        world.note .debug fun _ => s!"context {id}: halted with None")
    | .returned result =>
      ({ id, isMain, pc, status := .halted, frames := callers, result := some result },
        world.note .debug fun _ => s!"context {id}: halted with Some({result.describe})")
    | .failed cause =>
      let fault : Fault := ⟨cause, frame.routine.name, pc, frame.routine.markAt pc⟩
      ({ id, isMain, pc, status := .failed, frames := callers.push frame, fault := some fault },
        world.note .warn fun _ => s!"context {id}: {fault.message}")

/-- Runs the frames of a context; without any there is nothing to run. -/
def run (env : Setting) (fuel : Nat) (c : Context) (world : World) : Context × World :=
  match c with
  | ⟨id, isMain, status, frames, pc, result, fault⟩ =>
    match frames.back? with
    | none =>
      (⟨id, isMain, status, frames, pc, result, fault⟩, world)
    | some frame =>
      let (ending, m) := Machine.run env fuel ⟨id, frame, frames.pop, pc, world⟩
      settle isMain ending m

/-- Runs a context that is ready. A context that has run before stays as it is. -/
def execute (env : Setting) (fuel : Nat) (c : Context) (world : World) : Context × World :=
  match c.status with
  | .ready => c.run env fuel (world.note .debug fun _ => s!"context {c.id}: running")
  | _ => (c, world)

/-- Runs a context on that was interrupted. -/
def resume (env : Setting) (fuel : Nat) (c : Context) (world : World) : Context × World :=
  match c.status with
  | .running => c.run env fuel world
  | _ => (c, world)

end Context

end Bytescript
