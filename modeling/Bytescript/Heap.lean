import Bytescript.Value

/-!
# Heaps

A heap holds strings, arrays and objects until they are deleted. Its entries stand in slots; the
slot of a deleted entry is used again, and its generation then tells the new entry from the old one.
`Heap.find?` is the meaning of a heap: a map from references to what they name.

Operations that may fail also give back the heap, unchanged if they fail.
-/

namespace Bytescript

inductive HeapTag where
  | string
  | array
  | object
deriving DecidableEq, Repr

def HeapTag.name : HeapTag → String
  | string => "String"
  | array => "Array"
  | object => "Object"

inductive Payload where
  | string (text : String)
  | array (elements : Array Value)
  /-- An object, with the constant that names its class. -/
  | object (layout : UInt16) (fields : Array Value)
deriving DecidableEq, Repr

namespace Payload

instance : Inhabited Payload := ⟨string ""⟩

def tag : Payload → HeapTag
  | string _ => .string
  | array _ => .array
  | object _ _ => .object

/-- Stores a value at an index of an array's elements or an object's fields. -/
def setAt (index : Nat) (v : Value) : Payload → Payload
  | string s => string s
  | array elements => array (elements.setIfInBounds index v)
  | object layout fields => object layout (fields.setIfInBounds index v)

end Payload

inductive HeapError where
  | freed (id : HeapId)
  | wrongKind (id : HeapId) (expected found : HeapTag)
  | outOfBounds (id : HeapId) (index size : Nat)
  /-- There is no room for another entry beside this many. -/
  | exhausted (live : Nat)
deriving DecidableEq, Repr

def HeapError.message : HeapError → String
  | freed id => s!"heap entry {id.text} was already freed"
  | wrongKind id expected found =>
    s!"heap entry {id.text} is {found.name}, expected {expected.name}"
  | outOfBounds id index size =>
    s!"index {index} out of bounds for heap entry {id.text} of length {size}"
  | exhausted live => s!"heap is full ({live} live entries)"

structure HeapSettings where
  /-- Room to set aside at the start; of no consequence for results. -/
  initialCapacity : Nat := 256
  /-- How many entries may be live at once. -/
  maxEntries : Nat := 4294967295
deriving DecidableEq, Repr, Inhabited

structure HeapSlot where
  /-- How many entries of this slot have been deleted, modulo `2 ^ 32`. -/
  generation : UInt32
  payload : Option Payload
deriving Inhabited

namespace HeapSlot

def fill (p : Payload) (slot : HeapSlot) : HeapSlot := { slot with payload := some p }

/-- An empty slot, for an entry that differs from all before it. -/
def clear (slot : HeapSlot) : HeapSlot := ⟨slot.generation + 1, none⟩

def setAt (index : Nat) (v : Value) (slot : HeapSlot) : HeapSlot :=
  match slot with
  | ⟨generation, payload⟩ => ⟨generation, payload.map (Payload.setAt index v)⟩

end HeapSlot

structure Heap where
  settings : HeapSettings := {}
  slots : Array HeapSlot := #[]
  /-- The empty slots, last emptied first. -/
  free : List Nat := []
  live : Nat := 0
deriving Inhabited

namespace Heap

variable (h : Heap) (id : HeapId)

/-! ## Reading -/

/-- What a reference names, if that has not been deleted. -/
def find? : Option Payload :=
  match h.slots[id.index]? with
  | some slot => if slot.generation = id.generation then slot.payload else none
  | none => none

def contains : Bool := (h.find? id).isSome

def get : Except HeapError Payload :=
  match h.find? id with
  | some p => .ok p
  | none => .error (.freed id)

def tag : Except HeapError HeapTag := return (← h.get id).tag

def string : Except HeapError String := do
  match ← h.get id with
  | .string s => return s
  | p => throw (.wrongKind id .string p.tag)

def array : Except HeapError (Array Value) := do
  match ← h.get id with
  | .array elements => return elements
  | p => throw (.wrongKind id .array p.tag)

def object : Except HeapError (UInt16 × Array Value) := do
  match ← h.get id with
  | .object layout fields => return (layout, fields)
  | p => throw (.wrongKind id .object p.tag)

def arraySize : Except HeapError Nat := return (← h.array id).size

def fieldCount : Except HeapError Nat := return (← h.object id).2.size

def layoutOf : Except HeapError UInt16 := return (← h.object id).1

/-- The value at an index of an entry's values. -/
def valueAt (values : Array Value) (index : Nat) : Except HeapError Value :=
  match values[index]? with
  | some v => .ok v
  | none => .error (.outOfBounds id index values.size)

def element (index : Nat) : Except HeapError Value := do
  valueAt id (← h.array id) index

def field (index : Nat) : Except HeapError Value := do
  valueAt id (← h.object id).2 index

/-- Whether two strings have the same text. -/
def stringsEqual (left right : HeapId) : Except HeapError Bool := do
  let left ← h.string left
  let right ← h.string right
  return left = right

/-! ## Entries -/

/-- A new entry, in the slot emptied last if there is one. -/
def insert (p : Payload) : Except HeapError HeapId × Heap :=
  if h.settings.maxEntries ≤ h.live then (.error (.exhausted h.live), h)
  else
    match h with
    | ⟨settings, slots, [], live⟩ =>
      let id : HeapId := ⟨slots.size, 0⟩
      (.ok id, ⟨settings, slots.push ⟨0, some p⟩, [], live + 1⟩)
    | ⟨settings, slots, index :: free, live⟩ =>
      let id : HeapId := ⟨index, (slots.getD index default).generation⟩
      (.ok id, ⟨settings, slots.modify index (HeapSlot.fill p), free, live + 1⟩)

/-- Ends an entry and hands out what it held. -/
def delete : Except HeapError Payload × Heap :=
  match h.find? id with
  | none => (.error (.freed id), h)
  | some p =>
    match h with
    | ⟨settings, slots, free, live⟩ =>
      (.ok p, ⟨settings, slots.modify id.index HeapSlot.clear, id.index :: free, live - 1⟩)

/-- A new string of the texts of two strings. -/
def concat (left right : HeapId) : Except HeapError HeapId × Heap :=
  let joined : Except HeapError String := do
    let left ← h.string left
    let right ← h.string right
    return left ++ right
  match joined with
  | .error e => (.error e, h)
  | .ok text => h.insert (.string text)

/-! ## Changing entries -/

/-- Stores a value at an index of the array or object in a slot. -/
def setAt (index : Nat) (v : Value) : Heap :=
  match h with
  | ⟨settings, slots, free, live⟩ =>
    ⟨settings, slots.modify id.index (HeapSlot.setAt index v), free, live⟩

/-- Stores a value at an index of an entry that has as many values as `size` says. -/
def store (size : Except HeapError Nat) (index : Nat) (v : Value) : Except HeapError Unit × Heap :=
  match size with
  | .error e => (.error e, h)
  | .ok size =>
    if index < size then (.ok (), h.setAt id index v) else (.error (.outOfBounds id index size), h)

def setElement (index : Nat) (v : Value) : Except HeapError Unit × Heap :=
  h.store id (h.arraySize id) index v

def setField (index : Nat) (v : Value) : Except HeapError Unit × Heap :=
  h.store id (h.fieldCount id) index v

end Heap

end Bytescript
