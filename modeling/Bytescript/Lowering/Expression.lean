import Bytescript.Lowering.Naming

/-!
# Expressions

The code of an expression leaves exactly one value on the stack, and compiling it answers the type
of that value. Operands are evaluated from left to right. An assignment is no value; it is compiled
for its effect alone.
-/

namespace Bytescript

/-- Where an assignment stores its value. -/
inductive Place where
  | slot (kind : Kind) (slot : UInt16)
  /-- The object is on the stack. -/
  | field (kind : Kind) (member : UInt16)
  /-- The array and the index are on the stack. -/
  | element (kind : Kind)
deriving DecidableEq, Repr

namespace Place

def store : Place → Instruction
  | slot kind index => .store kind index
  | field kind member => .setField kind member
  | element kind => .setElement kind

/-- Reads the place and keeps what addresses it on the stack. -/
def read : Place → List Instruction
  | slot kind index => [.load kind index]
  | field kind member => [.dup, .getField kind member]
  | element kind => [.dup2, .getElement kind]

end Place

/-- What an operator does with two operands of a type, and the type of the result. Numbers have
arithmetic and an order, strings can be joined, and all values can be compared for equality. -/
def TypeTable.operation? (t : TypeTable) (op : BinaryOp) (type : TypeId) :
    Option (Instruction × TypeId) :=
  let resolved := t.resolve type
  let kind := resolved.kind
  if resolved = .int ∨ resolved = .double then
    match op with
    | .arith op => some (.arith kind op, type)
    | .compare cmp => some (.compare kind cmp, .bool)
    | _ => none
  else if resolved = .string ∧ op = .arith .add then some (.concat, type)
  else if resolved = .void then none
  else
    match op with
    | .compare .eq => some (.compare kind .eq, .bool)
    | .compare .ne => some (.compare kind .ne, .bool)
    | _ => none

/-- What turns a value of one type into a value of another. -/
def TypeTable.convert (t : TypeTable) (source target : TypeId) : List Instruction :=
  let source := t.resolve source
  let target := t.resolve target
  if source = target then []
  else
    (match t.kindOf source, t.kindOf target with
      | .int, .float => [.intToFloat]
      | .float, .int => [.floatToInt]
      | _, _ => []) ++
    (if target = .bool then [.pushByte 0, .compare .int .ne] else [])

namespace Lower

variable (natives : List NativeSignature) (span : Span)

/-! ## Conversions -/

def emitAll (code : List Instruction) : Lower Unit := code.forM emit

/-- Converts the value on the stack. -/
def convert (source target : TypeId) : Lower Unit := do
  emitAll ((← get).types.convert source target)

/-- Accepts a value of the type `found` where another is expected, if it converts by itself. -/
def coerce (found expected : TypeId) : Lower Unit := do
  if !(← get).types.isAssignable found expected then
    fail span (.typeMismatch (← typeName expected) (← typeName found))
  convert found expected

def requireBool (type : TypeId) : Lower Unit := do
  if !(← isSame type .bool) then fail span (.conditionNotBool (← typeName type))

/-! ## Names -/

/-- Pushes the receiver. -/
def loadSelf : Lower TypeId := do
  let self? ← if (← get).site.role.class?.isSome then localNamed? "this" else pure none
  match self? with
  | some (slot, type) =>
    emit (.load .ref slot)
    return type
  | none => fail span .thisOutsideMethod

/-- Where a name can be read and written, with its type: a variable, or a member of the receiver,
which then is pushed. -/
def namedPlace (name : String) : Lower (Place × TypeId) := do
  match ← localNamed? name with
  | some (slot, type) => return (.slot (← kindOf type) slot, type)
  | none =>
    let some type := (← get).site.role.class? | fail span (.undeclared name)
    let some (member, type) ← member? (← classOf span type) name | fail span (.undeclared name)
    let _ ← loadSelf span
    return (.field (← kindOf type) member, type)

/-- Pushes the value of a name. -/
def ident (name : String) : Lower TypeId := do
  let (place, type) ← namedPlace span name
  match place with
  | .slot kind slot => emit (.load kind slot)
  | .field kind member => emit (.getField kind member)
  | .element kind => emit (.getElement kind)
  return type

/-! ## Operators -/

def unary (op : UnaryOp) (type : TypeId) : Lower TypeId := do
  let types := (← get).types
  let resolved := types.resolve type
  match op with
  | .neg =>
    if resolved = .int ∨ resolved = .double then
      emit (.neg resolved.kind)
      return type
  | .not =>
    if resolved = .bool then
      emit .not
      return type
  fail span (.unsupportedOperator op.symbol (types.name type))

/-- An operator on two operands of a type that are on the stack. -/
def binary (op : BinaryOp) (type : TypeId) : Lower TypeId := do
  let types := (← get).types
  match types.operation? op type with
  | some (i, result) =>
    emit i
    return result
  | none => fail span (.unsupportedOperator op.symbol (types.name type))

/-- Two operands have to be of one type. -/
def requireSame (op : BinaryOp) (left right : TypeId) : Lower Unit := do
  if !(← isSame left right) then
    fail span (.operandMismatch op.symbol (← typeName left) (← typeName right))

/-! ## Calls -/

/-- What a plain call may mean: functions, methods of the receiver, which then is pushed, or
natives, in this order. -/
def callees (name : String) :
    Lower (List Candidate × (UInt16 → Instruction)) := do
  let functions ← functionsNamed name
  if !functions.isEmpty then return (functions, .call)
  if let some type := (← get).site.role.class? then
    let methods ← methodsNamed (← classOf span type) name
    if !methods.isEmpty then
      let _ ← loadSelf span
      return (methods, .call)
  let natives ← nativesNamed natives span name
  if natives.isEmpty then fail span (.undefinedFunction name)
  return (natives, .callNative)

/-- The methods that a call on an object of a type may mean. -/
def methodCallees (type : TypeId) (name : String) : Lower (List Candidate) := do
  let info ← classOf span type
  let methods ← methodsNamed info name
  if methods.isEmpty then fail span (.unknownMethod info.scopes.qualified name)
  return methods

/-- The candidates that take so many arguments. If there is only one candidate at all, the number
has to be right. -/
def fitting (name : String) (candidates : List Candidate) (count : Nat) :
    Lower (List Candidate) := do
  let fits := candidates.filter (·.params.length = count)
  match fits, candidates with
  | [], [only] => fail span (.arityMismatch name only.params.length count)
  | _, _ => return fits

/-- The types that arguments are converted to. Arguments are converted only if there is no choice.
-/
def expected? : List Candidate → Option (List TypeId)
  | [only] => some only.params
  | _ => none

/-- A list of types without the parentheses around it. -/
def bare (signature : String) : String :=
  let isParen (c : Char) : Bool := c = '(' || c = ')'
  .ofList ((signature.toList.dropWhile isParen).reverse.dropWhile isParen).reverse

/-- The candidate to call. Among several, the types of the arguments have to match exactly. -/
def pick (name : String) (fits : List Candidate) (found : List TypeId) :
    Lower Candidate := do
  match fits with
  | [only] => return only
  | _ =>
    let types := (← get).types
    match fits.find? fun c => (c.params.zip found).all fun (p, f) => types.same p f with
    | some c => return c
    | none => fail span (.noMatchingOverload name (bare (types.signature found)))

/-- Accepts an argument where a type is expected. -/
def passArgument (name : String) (position : Nat) (found expected : TypeId) :
    Lower Unit := do
  if !(← get).types.isAssignable found expected then
    fail span (.argumentType name position (← typeName expected) (← typeName found))
  convert found expected

/-! ## Expressions -/

/-- Reads a member of the object on the stack, or the length of the array. -/
def property (type : TypeId) (name : String) : Lower TypeId := do
  if name = "length" && ((← get).types.element? type).isSome then
    emit .arrayLength
    return .int
  let (member, type) ← member span (← classOf span type) name
  emit (.getField (← kindOf type) member)
  return type

/-- The element type of an array type. -/
def elementType (type : TypeId) : Lower TypeId := do
  match (← get).types.element? type with
  | some element => return element
  | none => fail span (.notAnArray (← typeName type))

/-- Pushes a new object whose constructor has run. -/
def newObject (name : String) : Lower TypeId := do
  let info ← classNamed (← get).site.typeScope span name
  emit (.newObject info.scopes.constant)
  emit (.call info.constructor)
  return info.type

/-- Converts the value on the stack because the script says so. -/
def cast (found target : TypeId) : Lower TypeId := do
  if ((← get).types.conversion found target).isNone then
    fail span (.invalidCast (← typeName found) (← typeName target))
  convert found target
  return target

/-- The condition under which the right operand is not needed, and the truth value then. -/
def shortcut? : BinaryOp → Option (Trigger × Bool)
  | .and => some (.ifFalse, false)
  | .or => some (.ifTrue, true)
  | _ => none

def pushBool (b : Bool) : Lower Unit := emit (.pushByte (if b then 1 else 0))

/-- Two conditions, each of which may decide on the truth value. -/
def shortcut (trigger : Trigger) (short : Bool) (left right : Lower Unit) : Lower TypeId := do
  left
  let first ← emitJump trigger
  right
  let second ← emitJump trigger
  pushBool !short
  let done ← emitJump .always
  bindHere first
  bindHere second
  pushBool short
  bindHere done
  return .bool

mutual

/-- The code of an expression. -/
def expr (natives : List NativeSignature) (e : Expr) : Lower TypeId :=
  withMark e.span <| match e with
    | .int _ value => do
      match Draft.immediate? value with
      | some i => emit i
      | none => emit (.pushConst (← constant (.integer value)))
      return .int
    | .float _ value => do
      emit (.pushConst (← constant (.float value)))
      return .double
    | .string _ value => do
      emit (.pushConst (← constant (.string value)))
      return .string
    | .bool _ value => do
      pushBool value
      return .bool
    | .ident span name => ident span name
    | .self span => loadSelf span
    | .unary span op operand => do
      let type ← expr natives operand
      unary span op type
    | .binary span op left right =>
      match shortcut? op with
      | some (trigger, short) =>
        shortcut trigger short (do requireBool left.span (← expr natives left))
          (do requireBool right.span (← expr natives right))
      | none => do
        let leftType ← expr natives left
        let rightType ← expr natives right
        requireSame span op leftType rightType
        binary span op leftType
    | .assign span _ _ _ => fail span .assignmentAsValue
    | .call span name list => do
      let (candidates, instruction) ← callees natives span name
      let fits ← fitting span name candidates list.length
      let found ← args natives name 1 (expected? fits) list
      let candidate ← pick span name fits found
      emit (instruction candidate.callee)
      return candidate.result
    | .methodCall span receiver name list => do
      let type ← expr natives receiver
      let candidates ← methodCallees span type name
      let fits ← fitting span name candidates list.length
      let found ← args natives name 1 (expected? fits) list
      let candidate ← pick span name fits found
      emit (.call candidate.callee)
      return candidate.result
    | .property span object name => do
      let type ← expr natives object
      property span type name
    | .newObject span name => newObject span name
    | .newArray span element length => do
      let element ← resolveType (← get).site.typeScope span element
      if ← isSame element .void then fail span .voidElement
      let found ← expr natives length
      coerce length.span found .int
      emit (.newArray (← kindOf element))
      generic span .array [element]
    | .index span array position => do
      let type ← expr natives array
      let element ← elementType span type
      let found ← expr natives position
      coerce position.span found .int
      emit (.getElement (← kindOf element))
      return element
    | .cast span target operand => do
      let target ← resolveType (← get).site.typeScope span target
      let found ← expr natives operand
      cast span found target

/-- The code of the arguments of a call, with their types. If types are expected, each argument is
converted as soon as it is computed. -/
def args (natives : List NativeSignature) (name : String) (position : Nat)
    (expected : Option (List TypeId)) : List Expr → Lower (List TypeId)
  | [] => return []
  | e :: es => do
    let found ← expr natives e
    if let some (type :: _) := expected then passArgument e.span name position found type
    return found :: (← args natives name (position + 1) (expected.map List.tail) es)

end

/-- The code of an expression that has to be a truth value. -/
def condition (e : Expr) : Lower Unit := do
  requireBool e.span (← expr natives e)

/-! ## Assignments -/

/-- The code that addresses the target of an assignment. -/
def place : Expr → Lower (Place × TypeId)
  | .ident span name => namedPlace span name
  | .property span object name => do
    let type ← expr natives object
    if ((← get).types.element? type).isSome then fail span .invalidAssignTarget
    let (member, type) ← member span (← classOf span type) name
    return (.field (← kindOf type) member, type)
  | .index span array position => do
    let type ← expr natives array
    let element ← elementType span type
    let found ← expr natives position
    coerce position.span found .int
    return (.element (← kindOf element), element)
  | target => fail target.span .invalidAssignTarget

/-- Emits an instruction and takes it off again, with its mark. -/
def setAside (i : Instruction) : Lower (Instruction × Mark) := do
  emit i
  let some taken ← onDraft Draft.takeLast | fail span .invalidAssignTarget
  return taken

def putBack (taken : Instruction × Mark) : Lower Unit := onDraft fun d => ((), d.restore taken)

/-- The code of an assignment. The target is addressed once, and the store that belongs to it is set
aside; a compound assignment reads its old value before the right side is computed. -/
def assign (op : Option ArithOp)
    (target value : Expr) : Lower Unit := do
  let (place, type) ← place natives target
  let store ← setAside span place.store
  match op with
  | none => coerce value.span (← expr natives value) type
  | some op =>
    emitAll place.read
    let found ← expr natives value
    requireSame span (.arith op) type found
    let result ← binary span (.arith op) type
    coerce span result type
  putBack store

/-- The code of an expression that leaves nothing on the stack. -/
def effect : Expr → Lower Unit
  | .assign span op target value => withMark span (assign natives span op target value)
  | e => do
    let _ ← expr natives e
    emit .pop

end Lower

end Bytescript
