import Bytescript.Lowering.Statement

/-!
# Declarations

A script is compiled in three passes over its top-level items, so that classes and functions can be
used before they are declared: first the classes with their types, then their members and the heads
of all functions, and last the bodies together with the top-level code.
-/

namespace Bytescript

namespace Lower

variable (natives : List NativeSignature) (options : CompileOptions) (info : ClassInfo)
  (span : Span)

/-! ## Classes -/

/-- Declares a class without its members; answers its scopes. -/
def declareClass (name qualified : String) (scope : ScopeId)
    (typeScope : TypeScopeId) : Lower ClassScopes := do
  let type ← onTypes span (·.insert typeScope name .classType none)
  let (inner, types) := (← get).types.newScope typeScope
  modify ({ · with types })
  let index ← constant (.classRef qualified)
  let constructor ← constant (.method (qualified ++ "." ++ constructorName))
  let scopes ← onScopes span (·.insertClass scope name qualified type inner index)
  onScopes span (·.insertMethod scopes.methods constructorName type [] constructor)
  return scopes

mutual

/-- Declares the classes among items, and the classes inside of them. -/
def declareClasses (scope : ScopeId) (typeScope : TypeScopeId) (outer : String) :
    List Stmt → Lower Unit
  | [] => return ()
  | s :: rest => do
    declareNested scope typeScope outer s
    declareClasses scope typeScope outer rest

/-- Declares an item if it is a class; `outer` stands before its name. -/
def declareNested (scope : ScopeId) (typeScope : TypeScopeId) (outer : String) : Stmt → Lower Unit
  | .classDecl span name body => do
    let scopes ← declareClass span name (outer ++ name) scope typeScope
    declareClasses scopes.members scopes.types (outer ++ name ++ ".") body
  | _ => return ()

end

/-- Declares a function without its body. -/
def declareFunction (head : FunctionHead) : Lower Unit := do
  let (params, result) ← resolveHead .top span head
  let index ← constant (.function (← mangle head.name params))
  onScopes span (·.insertFunction .top head.name result params index)

/-- The full name of a method. -/
def methodName (head : FunctionHead) (params : List TypeId) : Lower String :=
  mangle (info.scopes.qualified ++ "." ++ head.name) params

/-- Declares a method without its body. -/
def declareMethod (head : FunctionHead) : Lower Unit := do
  let (params, result) ← resolveHead info.scopes.types span head
  let index ← constant (.method (← methodName info head params))
  onScopes span (·.insertMethod info.scopes.methods head.name result params index)

mutual

/-- Declares what a class contains. -/
def declareMember (info : ClassInfo) : Stmt → Lower Unit
  | .var span name term _ => do
    let type ← variableType info.scopes.types span name term
    let _ ← onScopes span (·.insertVariable info.scopes.members name type)
  | .function span head _ => declareMethod info span head
  | .classDecl span name body => do
    declareMembers (← classNamed info.scopes.types span name) body
  | s => fail s.span (.malformedClass info.scopes.qualified)

def declareMembers (info : ClassInfo) : List Stmt → Lower Unit
  | [] => return ()
  | s :: rest => do
    declareMember info s
    declareMembers info rest

end

/-- Declares the members of a class and the heads of functions. -/
def declareItem : Stmt → Lower Unit
  | .classDecl span name body => do declareMembers (← classNamed .top span name) body
  | .function span head _ => declareFunction span head
  | _ => return ()

/-! ## Bodies -/

/-- Encodes a finished draft. -/
def finish (name : String) (site : Site) (params : List TypeId)
    (constant : Option UInt16) (slots : Nat) : Lower Routine := do
  let code := site.draft.code
  match encode code site.draft.marks with
  | .error e => throw ⟨.encode e, none⟩
  | .ok body =>
    note .debug fun _ =>
      s!"compiled {name}: {code.size} instructions, {body.bytes.size} bytes, {slots} slots"
    if options.listings then
      if let .ok text := disassemble body.bytes then note .debug fun _ => s!"{name}:\n{text}"
    return { name, result := site.result, params, constant, slots, code, body }

/-- Compiles a routine in a scope of its own, away from the one that is being compiled. -/
def routine (role : SiteRole) (parent : ScopeId)
    (typeScope : TypeScopeId) (result : TypeId) (name : String) (constant : UInt16)
    (act : Lower (List TypeId)) : Lower Routine := do
  let scope ← openScope fun t depth => t.pushRoot parent depth
  let outer ← onSite fun outer => (outer, { role, scope, typeScope, result })
  setMark span.mark
  let params ← act
  let slots := (← get).scopes.slotCount scope
  let site ← onSite fun site => (site, outer)
  closeScope
  finish options name site params (some constant) slots

/-- Declares a parameter and stores the argument on the stack in it. -/
def parameter (name : String) (type : TypeId) : Lower UInt16 := do
  let slot ← declareVariable span name type
  emit (.store (← kindOf type) slot)
  return slot

/-- Whether control can reach the end of a draft. -/
def fallsThrough (d : Draft) : Bool :=
  !d.code.back?.any Instruction.isReturn ||
    d.code.any (·.jumpTarget? = some d.size.toUInt32)

/-- The code of a function or a method. The arguments are on the stack, the first on top. A body
that ends without returning a value it owes is no error yet. -/
def bodyCode (role : SiteRole) (head : FunctionHead)
    (declared : List TypeId) (result : TypeId) (code : List Stmt) : Lower (List TypeId) := do
  let receiver := role.class?.toList
  for type in receiver do
    let _ ← parameter span "this" type
  for (p, type) in head.params.zip declared do
    let _ ← parameter span p.name type
  stmts natives code
  if (← isSame result .void) && fallsThrough (← get).site.draft then emit .retVoid
  return receiver ++ declared

/-- Compiles a function or a method. -/
def body (role : SiteRole) (parent : ScopeId)
    (typeScope : TypeScopeId) (head : FunctionHead) (name : String) (constant : UInt16)
    (code : List Stmt) : Lower Routine := do
  let (declared, result) ← resolveHead typeScope span head
  routine options span role parent typeScope result name constant
    (bodyCode options.natives span role head declared result code)

def function (head : FunctionHead) (code : List Stmt) :
    Lower Unit := do
  let (params, _) ← resolveHead .top span head
  let name ← mangle head.name params
  let index ← constant (.function name)
  let r ← body options span .function .top .top head name index code
  modify fun s => { s with functions := s.functions.insert name r }

def method (head : FunctionHead)
    (code : List Stmt) : Lower (String × Routine) := do
  let (params, _) ← resolveHead info.scopes.types span head
  let name ← methodName info head params
  let index ← constant (.method name)
  let r ← body options span (.method info.type) info.scopes.methods info.scopes.types head name
    index code
  return (name, r)

/-- The code that initialises a member of the receiver. -/
def initialise (self : UInt16) : Stmt → Lower Unit
  | .var span name _ (some init) => do
    let some (member, type) ← member? info name | fail span (.undeclared name)
    setMark span.mark
    emit (.load .ref self)
    coerce init.span (← expr natives init) type
    emit (.setField (← kindOf type) member)
  | _ => return ()

/-- The code of a constructor, which initialises its argument and returns it. -/
def constructorCode (items : List Stmt) :
    Lower (List TypeId) := do
  let self ← parameter span "this" info.type
  items.forM (initialise natives info self)
  emit (.load .ref self)
  emit .ret
  return [info.type]

/-- Compiles the constructor of a class. -/
def constructor (items : List Stmt) :
    Lower Routine :=
  let name := info.scopes.qualified ++ "." ++ constructorName
  routine options span (.constructor info.type) info.scopes.methods info.scopes.types info.type name
    info.constructor (constructorCode options.natives info span items)

/-- The members of a class in the order of their slots. -/
def membersOf : Lower (Array Member) := do
  let s ← get
  return ((s.scopes.members info.scopes.members).map fun sym =>
    ⟨sym.name, sym.type, s.types.kindOf sym.type⟩).toArray

def finishClass (constructor : Routine) (methods : Std.TreeMap String Routine) :
    Lower Unit := do
  let image : ClassImage := {
    name := info.scopes.qualified
    type := info.type
    constant := info.scopes.constant
    members := ← membersOf info
    constructor
    methods }
  modify fun s => { s with classes := s.classes.insert image.name image }

mutual

/-- Compiles what a class contains and adds its methods to those already there. -/
def classItems (options : CompileOptions) (info : ClassInfo)
    (methods : Std.TreeMap String Routine) :
    List Stmt → Lower (Std.TreeMap String Routine)
  | [] => return methods
  | s :: rest => do
    let methods ← classItem options info methods s
    classItems options info methods rest

def classItem (options : CompileOptions) (info : ClassInfo) (methods : Std.TreeMap String Routine) :
    Stmt → Lower (Std.TreeMap String Routine)
  | .function span head code => do
    let (name, r) ← method options info span head code
    return methods.insert name r
  | .classDecl span name items => do
    let inner ← classNamed info.scopes.types span name
    let built ← constructor options inner span items
    let inside ← classItems options inner ∅ items
    finishClass inner built inside
    return methods
  | _ => return methods

end

/-- Compiles a top-level item. -/
def item : Stmt → Lower Unit
  | .function span head code => function options span head code
  | .classDecl span name items => do
    let info ← classNamed .top span name
    let built ← constructor options info span items
    let methods ← classItems options info ∅ items
    finishClass info built methods
  | s => stmt options.natives s

/-- The code at the top level; the routines are compiled on the way. -/
def mainCode (items : List Stmt) : Lower Unit := do
  declareClasses .top .top "" items
  items.forM declareItem
  items.forM (item options)
  emit .stop

/-- Compiles a whole script. -/
def script (items : List Stmt) : Lower Image := do
  note .debug fun _ => s!"compiling {items.length} top-level items"
  mainCode options items
  let slots := (← get).scopes.slotCount .top
  let site ← onSite fun site => (site, {})
  let main ← finish options "<top-level>" site [] none slots
  let s ← get
  note .debug fun _ =>
    s!"compiled {s.functions.size} functions, {s.classes.size} classes, {s.pool.size} constants"
  return {
    pool := s.pool.finish
    main
    functions := s.functions
    classes := s.classes
    globals := s.globals
    types := s.types }

end Lower

/-- Compiles a script with a table of types to start from. The journal is answered even if there is
an error. -/
def Script.compile (script : Script) (options : CompileOptions := {})
    (types : TypeTable := .primitives) (journal : Journal := {}) :
    Except CompileError Image × Journal :=
  match Lower.script options script.items { types, journal } with
  | .ok image s => (.ok image, s.journal)
  | .error e s => (.error e, s.journal)

end Bytescript
