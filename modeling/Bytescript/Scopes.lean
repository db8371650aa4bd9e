import Bytescript.Types

/-!
# Scope tables

A scope table knows what the names of a script mean while it is being compiled. Scopes are numbered
in order of creation. Blocks and function bodies are opened and, innermost first, removed again; the
two scopes of a class, its members and its methods, stay.

Variables live in numbered slots. A slot root (the top level, a function body, the members of a
class) counts the variables declared in it and in the blocks inside it, and never gives a slot
twice, even when the block that used it is gone.
-/

namespace Bytescript

structure ScopeId where
  index : Nat
deriving DecidableEq, Repr

/-- The scope of the top level. -/
def ScopeId.top : ScopeId := ⟨0⟩

instance : Inhabited ScopeId := ⟨.top⟩

/-- What a class symbol knows about its class. -/
structure ClassScopes where
  /-- The name with those of the enclosing classes before it. -/
  qualified : String
  members : ScopeId
  methods : ScopeId
  types : TypeScopeId
  /-- The constant that names the class. -/
  constant : UInt16
deriving DecidableEq, Repr, Inhabited

inductive Role where
  | variable (slot : UInt16)
  | function (params : List TypeId) (constant : UInt16)
  /-- The receiver is not among the parameters. -/
  | method (params : List TypeId) (constant : UInt16)
  | classRole (scopes : ClassScopes)
deriving DecidableEq, Repr

structure Symbol where
  name : String
  /-- The type of a variable, the result of a callable, the type of a class. -/
  type : TypeId
  role : Role
deriving DecidableEq, Repr

namespace Symbol

variable (s : Symbol)

def slot? : Option UInt16 :=
  match s.role with
  | .variable slot => some slot
  | _ => none

def params? : Option (List TypeId) :=
  match s.role with
  | .function params _ | .method params _ => some params
  | _ => none

/-- The constant that names a callable. -/
def callee? : Option UInt16 :=
  match s.role with
  | .function _ constant | .method _ constant => some constant
  | _ => none

def isFunction : Bool :=
  match s.role with
  | .function .. => true
  | _ => false

def isMethod : Bool :=
  match s.role with
  | .method .. => true
  | _ => false

def class? : Option ClassScopes :=
  match s.role with
  | .classRole scopes => some scopes
  | _ => none

end Symbol

inductive ScopeError where
  | redeclared (name : String)
  | duplicateSignature (name : String)
  | tooManySlots
deriving DecidableEq, Repr

namespace ScopeError

/-- How many slots a root can give out. -/
def slotLimit : Nat := 65536

def message : ScopeError → String
  | redeclared name => s!"'{name}' is already declared in this scope"
  | duplicateSignature name => s!"'{name}' is already declared with the same parameter types"
  | tooManySlots => s!"more than {slotLimit} variables in one function"

end ScopeError

inductive ScopeKind where
  | block
  /-- A function body or the top level. -/
  | root
  | members
  | methods
deriving DecidableEq, Repr, Inhabited

namespace ScopeKind

def ownsSlots : ScopeKind → Bool
  | root | members => true
  | block | methods => false

/-- Whether scopes of this kind are removed again. -/
def isTransient : ScopeKind → Bool
  | block | root => true
  | members | methods => false

end ScopeKind

structure Scope where
  /-- This scope and those around it, from the inside out. -/
  path : List ScopeId
  depth : Nat
  kind : ScopeKind
  /-- How many slots have been given out, if this is a slot root. -/
  slots : Nat := 0
  symbols : Array Symbol := #[]
  alive : Bool := true
deriving Inhabited

structure ScopeTable where
  scopes : Array Scope := #[{ path := [.top], depth := 0, kind := .root }]
  /-- The blocks and function bodies that are open, innermost first. -/
  active : List ScopeId := []
  /-- Where the symbol of the class of a type is; the first entry of a type counts. -/
  classes : List (TypeId × ScopeId × Nat) := []
deriving Inhabited

namespace ScopeTable

variable (t : ScopeTable)

def scope (id : ScopeId) : Scope := t.scopes.getD id.index default

def size : Nat := t.scopes.size

/-! ## Looking up -/

def path (id : ScopeId) : List ScopeId := (t.scope id).path

/-- The innermost symbol of a name; within one scope the last one. -/
def lookup (id : ScopeId) (name : String) : Option Symbol :=
  (t.path id).findSome? fun s => (t.scope s).symbols.findRev? (·.name = name)

def isVariable (name : String) (s : Symbol) : Bool := s.slot?.isSome && s.name = name

/-- The innermost variable of a name along a path, not beyond the first slot root. -/
def lookupVariableOn (t : ScopeTable) (name : String) : List ScopeId → Option Symbol
  | [] => none
  | id :: rest =>
    let s := t.scope id
    match s.symbols.find? (isVariable name) with
    | some v => some v
    | none => if s.kind.ownsSlots then none else t.lookupVariableOn name rest

def lookupVariable (id : ScopeId) (name : String) : Option Symbol :=
  t.lookupVariableOn name (t.path id)

/-- The first symbol of a name that a scope itself declares. -/
def lookupHere (id : ScopeId) (name : String) : Option Symbol :=
  (t.scope id).symbols.find? (·.name = name)

/-- Every function of a name, from the inside out. -/
def lookupFunctions (id : ScopeId) (name : String) : List Symbol :=
  (t.path id).flatMap fun s =>
    (t.scope s).symbols.toList.filter fun sym => sym.isFunction && sym.name = name

/-- Every method of a name in a class's method scope. -/
def lookupMethods (id : ScopeId) (name : String) : List Symbol :=
  (t.scope id).symbols.toList.filter fun sym => sym.isMethod && sym.name = name

/-- The variables of a class in the order of their slots. -/
def members (id : ScopeId) : List Symbol :=
  ((t.scope id).symbols.toList.filter fun sym => sym.slot?.isSome).mergeSort
    fun a b => a.slot?.getD 0 ≤ b.slot?.getD 0

/-- The symbol of the class whose type this is. -/
def lookupClass (type : TypeId) : Option Symbol := do
  let (id, position) ← t.classes.lookup type
  let sym ← (t.scope id).symbols[position]?
  if sym.type = type ∧ sym.class?.isSome then return sym else none

/-- The scope whose counter gives the slots of a scope's variables. -/
def slotRoot (id : ScopeId) : ScopeId :=
  ((t.path id).find? fun s => (t.scope s).kind.ownsSlots).getD .top

def slotCount (id : ScopeId) : Nat := (t.scope (t.slotRoot id)).slots

/-! ## Opening and removing -/

/-- A new scope inside another one. -/
def push (parent : ScopeId) (depth : Nat) (kind : ScopeKind) :
    ScopeId × ScopeTable :=
  let id : ScopeId := ⟨t.scopes.size⟩
  let path := id :: t.path parent
  (id, { t with
    scopes := t.scopes.push { path, depth, kind }
    active := if kind.isTransient then id :: t.active else t.active })

def pushBlock (parent : ScopeId) (depth : Nat) : ScopeId × ScopeTable :=
  t.push parent depth .block

/-- A function body, which counts its own slots. -/
def pushRoot (parent : ScopeId) (depth : Nat) : ScopeId × ScopeTable :=
  t.push parent depth .root

/-- A removed scope keeps its place but declares nothing. -/
def Scope.close (s : Scope) : Scope := { s with symbols := #[], alive := false }

/-- The open scopes that stay when those of `depth` and deeper are removed from the inside. -/
def staying (depth : Nat) : List ScopeId :=
  t.active.dropWhile fun id => depth ≤ (t.scope id).depth

def leaving (depth : Nat) : List ScopeId :=
  t.active.takeWhile fun id => depth ≤ (t.scope id).depth

/-- Removes open scopes from the inside, as long as they are at `depth` or deeper. -/
def remove (depth : Nat) : ScopeTable :=
  let leaving := t.leaving depth
  let active := t.staying depth
  { t with
    scopes := leaving.foldl (fun scopes id => scopes.modify id.index Scope.close) t.scopes
    active }

def isAlive (id : ScopeId) : Bool := (t.scope id).alive

/-! ## Declaring -/

/-- Adds a symbol to a scope, behind the others. -/
def declare (id : ScopeId) (sym : Symbol) : ScopeTable :=
  { t with scopes := t.scopes.modify id.index fun s => { s with symbols := s.symbols.push sym } }

/-- Counts one more slot of a root. -/
def takeSlot (root : ScopeId) : ScopeTable :=
  { t with scopes := t.scopes.modify root.index fun s => { s with slots := s.slots + 1 } }

/-- Declares a variable in the next slot of its root. It may neither hide a variable of the same
root nor share its name with anything in its scope. -/
def insertVariable (id : ScopeId) (name : String) (type : TypeId) :
    Except ScopeError UInt16 × ScopeTable :=
  if (t.lookupVariable id name).isSome || (t.lookupHere id name).isSome then
    (.error (.redeclared name), t)
  else
    let root := t.slotRoot id
    let slots := (t.scope root).slots
    if slots < ScopeError.slotLimit then
      let slot := slots.toUInt16
      (.ok slot, (t.takeSlot root).declare id ⟨name, type, .variable slot⟩)
    else (.error .tooManySlots, t)

/-- Why a callable cannot join the symbols of a scope: only callables may share a name, and only
with other parameters. -/
def clash? (symbols : Array Symbol) (name : String) (params : List TypeId) : Option ScopeError :=
  symbols.toList.findSome? fun sym =>
    if sym.name = name then
      match sym.params? with
      | some other => if other = params then some (.duplicateSignature name) else none
      | none => some (.redeclared name)
    else none

def insertCallable (id : ScopeId) (sym : Symbol) :
    Except ScopeError Unit × ScopeTable :=
  match clash? (t.scope id).symbols sym.name (sym.params?.getD []) with
  | some e => (.error e, t)
  | none => (.ok (), t.declare id sym)

def insertFunction (id : ScopeId) (name : String) (result : TypeId)
    (params : List TypeId) (constant : UInt16) : Except ScopeError Unit × ScopeTable :=
  t.insertCallable id ⟨name, result, .function params constant⟩

def insertMethod (id : ScopeId) (name : String) (result : TypeId)
    (params : List TypeId) (constant : UInt16) : Except ScopeError Unit × ScopeTable :=
  t.insertCallable id ⟨name, result, .method params constant⟩

/-- Declares a class and opens its two scopes: the members inside the given scope, the methods
inside the members. -/
def insertClass (id : ScopeId) (name qualified : String) (type : TypeId)
    (types : TypeScopeId) (constant : UInt16) : Except ScopeError ClassScopes × ScopeTable :=
  if (t.lookupHere id name).isSome then (.error (.redeclared name), t)
  else
    let depth := (t.scope id).depth
    let (members, t) := t.push id depth .members
    let (methods, t) := t.push members depth .methods
    let scopes : ClassScopes := { qualified, members, methods, types, constant }
    let position := (t.scope id).symbols.size
    let t := t.declare id ⟨name, type, .classRole scopes⟩
    (.ok scopes, { t with classes := (type, id, position) :: t.classes })

end ScopeTable

end Bytescript
