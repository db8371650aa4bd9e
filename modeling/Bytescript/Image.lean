import Bytescript.Code.Decoding
import Bytescript.Code.Layout
import Bytescript.Constant
import Bytescript.Types
import Std.Data.TreeMap

/-!
# Images

An `Image` is a compiled script: its constants, its top-level code, and its functions and classes
by name. Names of routines carry the types of their parameters, as in `add(int,int)` or
`Point.move(int)`, so overloads have different names.
-/

namespace Bytescript

/-- One function, method or constructor, or the top-level code. -/
structure Routine where
  name : String
  result : TypeId
  /-- Begins with the receiver for a method and a constructor. -/
  params : List TypeId
  /-- Where the constant stands that calls refer to; the top-level code has none. -/
  constant : Option UInt16
  slots : Nat
  /-- The targets of jumps are indices of instructions. -/
  code : Array Instruction
  body : Body
deriving Inhabited

namespace Routine

def arity (r : Routine) : Nat := r.params.length

/-- The place in the source that an instruction was compiled from. -/
def markAt (r : Routine) (pc : Nat) : Option Mark := r.body.lines.lookup pc.toUInt32

/-- The code of the routine under a title. -/
def listing (r : Routine) : String :=
  s!"\n== {r.name} ({r.slots} slots) ==\n" ++
    match disassemble r.body.bytes with
    | .ok text => text
    | .error e => "<" ++ e.message ++ ">\n"

end Routine

/-- One member of a class; its slot is its place among the members. -/
structure Member where
  name : String
  type : TypeId
  kind : Kind
deriving DecidableEq, Repr, Inhabited

structure ClassImage where
  /-- Begins with the names of the enclosing classes, as in `Outer.Inner`. -/
  name : String
  type : TypeId
  constant : UInt16
  members : Array Member
  /-- Takes a new object, runs the initialisers of its members, and returns it. -/
  constructor : Routine
  methods : Std.TreeMap String Routine

namespace ClassImage

def routines (c : ClassImage) : List Routine := c.constructor :: c.methods.values

end ClassImage

/-- A variable of the outermost scope of the top-level code. -/
structure Global where
  slot : UInt16
  type : TypeId
deriving DecidableEq, Repr, Inhabited

structure Image where
  pool : Pool
  main : Routine
  functions : Std.TreeMap String Routine
  classes : Std.TreeMap String ClassImage
  globals : Std.TreeMap String Global
  types : TypeTable

namespace Image

/-- All that can be called: the functions, then class by class the constructor and the methods. -/
def routines (i : Image) : List Routine :=
  i.functions.values ++ i.classes.values.flatMap ClassImage.routines

/-- The first class, by name, with a constant at an index. -/
def classAt? (i : Image) (constant : UInt16) : Option ClassImage :=
  i.classes.values.find? (·.constant = constant)

/-- The constants and the code of every routine. -/
def listing (i : Image) : String :=
  let constants := (i.pool.entries.foldl
    (fun (text, index) c =>
      (text ++ "#" ++ Text.padRight 4 (toString index) ++ " " ++ c.text ++ "\n", index + 1))
    ("== constants ==\n", 0)).1
  (i.main :: i.routines).foldl (fun text r => text ++ r.listing) constants

end Image

end Bytescript
