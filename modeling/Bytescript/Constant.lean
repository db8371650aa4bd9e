import Bytescript.Double.Decimal
import Bytescript.Text.Quoted
import Std.Data.TreeMap

/-!
# Constant pools

Compiled code refers to its constants by index. A pool holds every constant once: adding one that is
there already gives its index again, and a new one gets the next index, up to 65536 in all. Floats
are told apart by bit pattern, and the names of functions, methods and classes from strings and from
each other.
-/

namespace Bytescript

inductive ConstantKind where
  | integer
  | float
  | string
  | function
  | method
  | classRef
deriving DecidableEq, Repr

def ConstantKind.name : ConstantKind → String
  | integer => "Integer"
  | float => "Float"
  | string => "String"
  | function => "FunctionRef"
  | method => "MethodRef"
  | classRef => "ClassRef"

inductive Constant where
  | integer (value : Int64)
  | float (value : Double)
  | string (value : String)
  | function (name : String)
  | method (name : String)
  | classRef (name : String)
deriving DecidableEq, Repr

namespace Constant

instance : Inhabited Constant := ⟨integer 0⟩

def kind : Constant → ConstantKind
  | integer _ => .integer
  | float _ => .float
  | string _ => .string
  | function _ => .function
  | method _ => .method
  | classRef _ => .classRef

/-- The constant as listings show it. -/
def text (c : Constant) : String :=
  let content :=
    match c with
    | integer value => toString value.toInt
    | float value => value.text
    | string s | function s | method s | classRef s => Text.quoted s
  c.kind.name ++ "(" ++ content ++ ")"

end Constant

inductive PoolError where
  | full
  | missing (index : UInt16)
  | wrongKind (index : UInt16) (expected found : ConstantKind)
deriving DecidableEq, Repr

namespace PoolError

/-- How many constants a pool can hold. -/
def capacity : Nat := 65536

def message : PoolError → String
  | full => s!"constant pool is full ({capacity} entries)"
  | missing index => s!"constant #{index.toNat} does not exist"
  | wrongKind index expected found =>
    s!"constant #{index.toNat} is {found.name}, expected {expected.name}"

end PoolError

/-- A pool as programs read it. -/
structure Pool where
  entries : Array Constant := #[]
deriving Inhabited

namespace Pool

def size (p : Pool) : Nat := p.entries.size

def get (p : Pool) (index : UInt16) : Except PoolError Constant :=
  match p.entries[index.toNat]? with
  | some c => .ok c
  | none => .error (.missing index)

/-- The constant at an index, which has to be of the given kind. -/
def expect (p : Pool) (kind : ConstantKind) (index : UInt16) : Except PoolError Constant := do
  let c ← p.get index
  if c.kind = kind then return c else throw (.wrongKind index kind c.kind)

/-- A pool under construction knows the index of every constant, in a map for each kind. -/
structure Builder where
  /-- The next free index. -/
  next : Nat := 0
  integers : Std.TreeMap Int64 UInt16 := ∅
  /-- By bit pattern. -/
  floats : Std.TreeMap UInt64 UInt16 := ∅
  strings : Std.TreeMap String UInt16 := ∅
  functions : Std.TreeMap String UInt16 := ∅
  methods : Std.TreeMap String UInt16 := ∅
  classes : Std.TreeMap String UInt16 := ∅
deriving Inhabited

namespace Builder

variable (b : Builder)

def size : Nat := b.next

/-- The index of a value in a map. A new value gets the next free index, if there is one left. -/
def intern {α : Type} [Ord α] (map : Std.TreeMap α UInt16) (next : Nat) (value : α) :
    Except PoolError UInt16 × Std.TreeMap α UInt16 × Nat :=
  match map[value]? with
  | some index => (.ok index, map, next)
  | none =>
    if next < PoolError.capacity then
      (.ok next.toUInt16, map.insert value next.toUInt16, next + 1)
    else (.error .full, map, next)

def addInteger (value : Int64) : Except PoolError UInt16 × Builder :=
  let (answer, integers, next) := intern b.integers b.next value
  (answer, { b with integers, next })

def addFloat (value : Double) : Except PoolError UInt16 × Builder :=
  let (answer, floats, next) := intern b.floats b.next value.bits
  (answer, { b with floats, next })

def addString (value : String) : Except PoolError UInt16 × Builder :=
  let (answer, strings, next) := intern b.strings b.next value
  (answer, { b with strings, next })

def addFunction (name : String) : Except PoolError UInt16 × Builder :=
  let (answer, functions, next) := intern b.functions b.next name
  (answer, { b with functions, next })

def addMethod (name : String) : Except PoolError UInt16 × Builder :=
  let (answer, methods, next) := intern b.methods b.next name
  (answer, { b with methods, next })

def addClass (name : String) : Except PoolError UInt16 × Builder :=
  let (answer, classes, next) := intern b.classes b.next name
  (answer, { b with classes, next })

/-- The index of a constant, which is added if it is new. A full pool stays as it is. -/
def add : Constant → Except PoolError UInt16 × Builder
  | .integer value => b.addInteger value
  | .float value => b.addFloat value
  | .string value => b.addString value
  | .function name => b.addFunction name
  | .method name => b.addMethod name
  | .classRef name => b.addClass name

/-- Adds constants in order, up to the first that there is no room for. Answers the index of the
last one, or `last` if there is none. -/
def addAll (b : Builder) (last : Except PoolError UInt16) :
    List Constant → Except PoolError UInt16 × Builder
  | [] => (last, b)
  | c :: cs =>
    match b.add c with
    | (.ok index, b) => addAll b (.ok index) cs
    | (.error e, b) => (.error e, b)

/-- Enters the values of a map as constants, each at its index. -/
def invert {α : Type} [Ord α] (map : Std.TreeMap α UInt16) (constant : α → Constant)
    (slots : Array (Option Constant)) : Array (Option Constant) :=
  map.foldl (fun slots value index => slots.setIfInBounds index.toNat (some (constant value))) slots

/-- What stands at the indexes that have been given out. -/
def slots : Array (Option Constant) :=
  .replicate b.next none
    |> invert b.integers .integer
    |> invert b.floats (.float ⟨·⟩)
    |> invert b.strings .string
    |> invert b.functions .function
    |> invert b.methods .method
    |> invert b.classes .classRef

/-- The constants in the order of their indexes. -/
def entries : Array Constant := b.slots.filterMap id

def finish : Pool := ⟨b.entries⟩

end Builder

end Pool

end Bytescript
