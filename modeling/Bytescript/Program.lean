import Bytescript.Image
import Bytescript.Value
import Std.Data.TreeMap

/-!
# Programs

A `Program` is an image made ready to run: routines and classes are found by the index of their
constant, and free functions by name.
-/

namespace Bytescript

/-- What running scripts have to know about a class. -/
structure Shape where
  name : String
  kinds : List Kind
deriving DecidableEq, Repr, Inhabited

/-- The members of a new object, before its constructor runs. -/
def Shape.fields (s : Shape) : Array Value := (s.kinds.map Value.initial).toArray

inductive LookupError where
  | unknown (name : String)
  | ambiguous (name : String)
deriving DecidableEq, Repr

structure Program where
  pool : Pool
  main : Routine
  globals : Std.TreeMap String Global
  routines : Std.TreeMap UInt16 Routine
  shapes : Std.TreeMap UInt16 Shape
  /-- The constants of the free functions. -/
  functions : Std.TreeMap String UInt16

namespace Program

/-- Makes an image ready to run. If two routines share a constant, the later one counts. -/
def load (i : Image) : Program where
  pool := i.pool
  main := i.main
  globals := i.globals
  routines := i.routines.foldl
    (fun found r => match r.constant with
      | some c => found.insert c r
      | none => found) ∅
  shapes := i.classes.values.foldl
    (fun found c => found.insert c.constant ⟨c.name, (c.members.map Member.kind).toList⟩) ∅
  functions := i.functions.filterMap fun _ r => r.constant

/-- A free function by its full name, or by what stands before its parameters if no other function
shares that. -/
def function (p : Program) (name : String) : Except LookupError Routine := do
  let constant ←
    match p.functions[name]? with
    | some constant => pure constant
    | none =>
      match p.functions.toList.filter fun (full, _) => full.startsWith (name ++ "(") with
      | [] => throw (.unknown name)
      | [(_, constant)] => pure constant
      | _ => throw (.ambiguous name)
  match p.routines[constant]? with
  | some r => return r
  | none => throw (.unknown name)

end Program

end Bytescript
