import Bytescript.Double.Decimal
import Bytescript.Operator

/-!
# Values

What operand stacks, variable slots, members and elements hold. Truth values are the integers zero
and one. A reference names an entry of the heap by its place and by how often that place had been
freed before, so that a reference to a freed entry never means the entry that took its place.
-/

namespace Bytescript

structure HeapId where
  /-- A number of 32 bits in a heap that may hold at most `2 ^ 32` entries. -/
  index : Nat
  generation : UInt32
deriving DecidableEq, Repr, Inhabited

def HeapId.text (id : HeapId) : String := s!"{id.index}v{id.generation.toNat}"

inductive Value where
  /-- The content of a reference that was never assigned. -/
  | void
  | int (value : Int64)
  | float (value : Double)
  | stringRef (id : HeapId)
  /-- An object or an array. -/
  | objectRef (id : HeapId)
deriving DecidableEq, Repr, Inhabited

namespace Value

def ofBool (b : Bool) : Value := .int (if b then 1 else 0)

/-- The content of a member or an element before anything is stored in it. -/
def initial : Kind → Value
  | .int => .int 0
  | .float => .float ⟨0⟩
  | .ref => .void

def typeName : Value → String
  | void => "void"
  | int _ => "integer"
  | float _ => "float"
  | stringRef _ => "string"
  | objectRef _ => "object"

def int? : Value → Option Int64
  | int n => some n
  | _ => none

def float? : Value → Option Double
  | float x => some x
  | _ => none

def heapId? : Value → Option HeapId
  | stringRef id | objectRef id => some id
  | _ => none

/-- Whether the value may stand where a reference is expected. -/
def isReferenceLike : Value → Bool
  | void | stringRef _ | objectRef _ => true
  | _ => false

/-- Whether the value is of a kind. -/
def hasKind (v : Value) : Kind → Bool
  | .int => v.int?.isSome
  | .float => v.float?.isSome
  | .ref => v.isReferenceLike

/-- Equality while a script runs: floats are compared as numbers, references by identity. -/
def equal : Value → Value → Bool
  | void, void => true
  | int a, int b => a = b
  | float a, float b => a.equal b
  | stringRef a, stringRef b => a = b
  | objectRef a, objectRef b => a = b
  | _, _ => false

def text : Value → String
  | void => "void"
  | int n => toString n.toInt
  | float x => x.text
  | stringRef id => "string@" ++ id.text
  | objectRef id => "object@" ++ id.text

/-- The value spelled out with the parts of a reference. -/
def describe : Value → String
  | void => "Void"
  | int n => s!"Integer({n.toInt})"
  | float x => s!"Float({x.text})"
  | stringRef id => "StringRef(" ++ reference id ++ ")"
  | objectRef id => "ObjectRef(" ++ reference id ++ ")"
where
  reference (id : HeapId) : String :=
    s!"HeapId \x7b index: {id.index}, generation: {id.generation.toNat} \x7d"

end Value

end Bytescript
