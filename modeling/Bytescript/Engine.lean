import Bytescript.Context

/-!
# Engines

An engine holds a loaded program and the contexts that run it. Contexts share the world and are
numbered in the order in which they were made.
-/

namespace Bytescript

inductive EngineError where
  | unknownContext (id : Nat)
  | unknownFunction (name : String)
  | ambiguousFunction (name : String)
  | arityMismatch (name : String) (expected found : Nat)
deriving DecidableEq, Repr

namespace EngineError

def message : EngineError → String
  | unknownContext id => s!"no execution context with id {id}"
  | unknownFunction name => s!"no compiled function named '{name}'"
  | ambiguousFunction name => s!"'{name}' is overloaded; use the mangled name"
  | arityMismatch name expected found =>
    s!"'{name}' expects {expected} argument(s), got {found}"

def ofLookup : LookupError → EngineError
  | .unknown name => unknownFunction name
  | .ambiguous name => ambiguousFunction name

end EngineError

structure Engine where
  setting : Setting
  world : World
  contexts : Std.TreeMap Nat Context := ∅
  nextId : Nat := 0

namespace Engine

variable (e : Engine)

/-- An engine for an image. -/
def load (image : Image) (natives : Array Native) (limits : Limits) (world : World) : Engine :=
  let program := Program.load image
  { setting := { program, natives, limits }
    world := world.note .debug fun _ =>
      s!"loaded program: {program.routines.size} callables, {image.classes.size} classes" }

/-- Adds a context under the next number. -/
def register (context : Nat → Context) : Nat × Engine :=
  (e.nextId,
    { e with
      contexts := e.contexts.insert e.nextId (context e.nextId)
      nextId := e.nextId + 1
      world := e.world.note .debug fun _ => s!"spawned context {e.nextId}" })

/-- A new context for the top-level code. -/
def spawnMain : Nat × Engine := e.register (.forMain e.setting.program)

def function (name : String) : Except EngineError Routine :=
  (e.setting.program.function name).mapError .ofLookup

/-- A new context for a call of a free function. -/
def spawnCall (name : String) (args : List Value) : Except EngineError (Nat × Engine) := do
  let routine ← e.function name
  if routine.arity = args.length then return e.register (.forCall routine args)
  else throw (.arityMismatch routine.name routine.arity args.length)

def context? (id : Nat) : Option Context := e.contexts[id]?

/-- The contexts by number. -/
def contextList : List Context := e.contexts.values

/-- Takes a context out of the engine. -/
def take (id : Nat) : Except EngineError (Context × Engine) :=
  match e.contexts[id]? with
  | some c => .ok (c, { e with contexts := e.contexts.erase id })
  | none => .error (.unknownContext id)

/-- Puts a context into the engine under its number. -/
def restore (c : Context) : Engine :=
  { e with contexts := e.contexts.insert c.id c }

/-- Executes a context that need not be in the engine. -/
def executeTaken (fuel : Nat) (c : Context) : Context × Engine :=
  match e with
  | ⟨setting, world, contexts, nextId⟩ =>
    let (c, world) := c.execute setting fuel world
    (c, ⟨setting, world, contexts, nextId⟩)

/-- Executes a context of the engine. -/
def execute (fuel : Nat) (id : Nat) : Except EngineError (Status × Engine) := do
  let (c, e) ← e.take id
  let (c, e) := e.executeTaken fuel c
  return (c.status, e.restore c)

end Engine

end Bytescript
