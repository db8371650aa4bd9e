import Bytescript.World

/-!
# Natives

Functions of the host that scripts can call, by their place in a list. A native gets the arguments
in order and may read and change the world; it answers a value, or a message if it fails.
-/

namespace Bytescript

/-- What a compiler has to know about a native; types are given by name. -/
structure NativeSignature where
  name : String
  params : List String
  result : String
deriving DecidableEq, Repr, Inhabited

structure Native where
  signature : NativeSignature
  run : List Value → World → Except String Value × World

namespace Native

/-- The text of the argument at an index, which has to be a live string. -/
def stringArg (args : List Value) (heap : Heap) (index : Nat) : Except String String :=
  match args[index]? with
  | some (.stringRef id) => (heap.string id).mapError HeapError.message
  | some v => .error s!"argument {index + 1} is {v.typeName}, expected string"
  | none => .error s!"missing argument {index + 1}"

def intArg (args : List Value) (index : Nat) : Except String Int64 :=
  match args[index]?.bind Value.int? with
  | some n => .ok n
  | none => .error s!"argument {index + 1} is not an integer"

def floatArg (args : List Value) (index : Nat) : Except String Double :=
  match args[index]?.bind Value.float? with
  | some x => .ok x
  | none => .error s!"argument {index + 1} is not a float"

/-- Prints the text of an argument, if it has one. -/
def printing (text : Except String String) (w : World) : Except String Value × World :=
  match text with
  | .ok line => (.ok .void, w.printLine line)
  | .error e => (.error e, w)

/-- Prints a string. -/
def print : Native where
  signature := ⟨"print", ["string"], "void"⟩
  run args w := printing (stringArg args w.heap 0) w

/-- Prints an integer. -/
def printInt : Native where
  signature := ⟨"print_int", ["int"], "void"⟩
  run args w := printing ((intArg args 0).map fun n => toString n.toInt) w

/-- Prints a double, without an exponent. -/
def printFloat : Native where
  signature := ⟨"print_float", ["double"], "void"⟩
  run args w := printing ((floatArg args 0).map Double.plainText) w

/-- The numeral of an integer, as a new string. -/
def intToString : Native where
  signature := ⟨"int_to_string", ["int"], "string"⟩
  run args w :=
    match intArg args 0 with
    | .error e => (.error e, w)
    | .ok n =>
      match w.allocate (.string (toString n.toInt)) with
      | (.ok id, w) => (.ok (.stringRef id), w)
      | (.error e, w) => (.error e.message, w)

/-- How many characters a string has. -/
def stringLength : Native where
  signature := ⟨"string_length", ["string"], "int"⟩
  run args w := ((stringArg args w.heap 0).map fun s => .int (.ofNat s.length), w)

/-- The natives that every script may use. -/
def builtins : Array Native := #[print, printInt, printFloat, intToString, stringLength]

/-- Notes that natives are made known, in order. -/
def announce (natives : Array Native) (j : Journal) : Journal :=
  natives.foldl (fun j n => j.note .debug fun _ => s!"registering native {n.signature.name}") j

end Native

end Bytescript
