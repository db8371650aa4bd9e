/-!
# Type tables

A type table holds every type that a script can refer to. Types are numbered in order of entry; the
first five are the primitive ones. Names are bound in scopes, and a name that a scope does not bind
means what it means in the scope around it. A type may be declared first and defined later, and a
typedef redirects to another type, which `TypeTable.resolve` follows.
-/

namespace Bytescript

structure TypeId where
  index : Nat
deriving DecidableEq, Hashable, Repr, Inhabited

namespace TypeId

def void : TypeId := ⟨0⟩
def int : TypeId := ⟨1⟩
def double : TypeId := ⟨2⟩
def bool : TypeId := ⟨3⟩
def string : TypeId := ⟨4⟩

end TypeId

structure TypeScopeId where
  index : Nat
deriving DecidableEq, Repr

/-- The scope of the whole script. -/
def TypeScopeId.top : TypeScopeId := ⟨0⟩

instance : Inhabited TypeScopeId := ⟨.top⟩

inductive TypeKind where
  | primitive
  | classType
  | array
  | tuple
  | function
  | typedef
deriving DecidableEq, Repr, Inhabited

namespace TypeKind

def all : List TypeKind := [primitive, classType, array, tuple, function, typedef]

def name : TypeKind → String
  | primitive => "Primitive"
  | classType => "Class"
  | array => "Array"
  | tuple => "Tuple"
  | function => "Function"
  | typedef => "Typedef"

end TypeKind

/-- How a value of one type may take the place of another. -/
inductive Conversion where
  /-- Without being asked. -/
  | implicit
  /-- Only by a cast. -/
  | explicit
deriving DecidableEq, Repr

namespace Conversion

def all : List Conversion := [implicit, explicit]

def name : Conversion → String
  | implicit => "Implicit"
  | explicit => "Explicit"

end Conversion

/-- A step from one type to another in the graph of conversions. -/
structure Relation where
  other : TypeId
  conversion : Conversion
deriving DecidableEq, Repr

structure TypeEntry where
  name : String
  kind : TypeKind
  /-- What a typedef stands for. -/
  redirect : Option TypeId
  subtypes : List Relation := []
  supertypes : List Relation := []
  /-- The parts of a structural type; those of a function end with its result. -/
  args : List TypeId := []
  /-- Whether the type is defined and not only declared. -/
  complete : Bool
  scope : TypeScopeId
deriving Inhabited

inductive TypeError where
  | redefinition (name : String)
  | unknown (name : String)
  | missingRedirect (name : String)
  | cycle (name : String)
  | notGeneric (kind : TypeKind)
deriving DecidableEq, Repr

def TypeError.message : TypeError → String
  | redefinition name => s!"type '{name}' is already defined"
  | unknown name => s!"unknown type '{name}'"
  | missingRedirect name => s!"typedef '{name}' needs a target type"
  | cycle name => s!"typedef '{name}' would form a cycle"
  | notGeneric kind => s!"{kind.name} types take type arguments"

structure TypeScope where
  /-- This scope and those around it, from the inside out. -/
  path : List TypeScopeId
  /-- The names bound here; the first binding of a name counts. -/
  names : List (String × TypeId) := []
deriving Inhabited

structure TypeTable where
  entries : Array TypeEntry := #[]
  scopes : Array TypeScope := #[{ path := [.top] }]

namespace TypeTable

variable (t : TypeTable)

/-! ## Reading -/

def size : Nat := t.entries.size

def get (id : TypeId) : TypeEntry := t.entries.getD id.index default

def scope (s : TypeScopeId) : TypeScope := t.scopes.getD s.index default

def name (id : TypeId) : String := (t.get id).name

/-- The meaning of a name in one scope, not looking outward. -/
def lookupHere (s : TypeScopeId) (name : String) : Option TypeId :=
  (t.scope s).names.lookup name

/-- The meaning of a name in a scope and those around it. -/
def lookup (s : TypeScopeId) (name : String) : Option TypeId :=
  (t.scope s).path.findSome? (t.lookupHere · name)

def isComplete (s : TypeScopeId) (name : String) : Bool :=
  (t.lookup s name).any fun id => (t.get id).complete

/-! ## Typedefs -/

/-- Follows at most `fuel` redirects. -/
def follow (t : TypeTable) : (fuel : Nat) → TypeId → TypeId
  | 0, id => id
  | fuel + 1, id =>
    match (t.get id).redirect with
    | some next => t.follow fuel next
    | none => id

/-- The type that a type stands for. A table without cycles has fewer redirects than entries. -/
def resolve (id : TypeId) : TypeId := t.follow (t.size + 1) id

def same (a b : TypeId) : Bool := t.resolve a = t.resolve b

/-- Whether redirects lead from one type to another, within `fuel` steps; more steps than that mean
a cycle, which is as bad. -/
def leadsTo (t : TypeTable) (target : TypeId) : (fuel : Nat) → TypeId → Bool
  | 0, _ => true
  | fuel + 1, id =>
    id = target ||
    match (t.get id).redirect with
    | some next => t.leadsTo target fuel next
    | none => false

def reaches (source target : TypeId) : Bool :=
  t.leadsTo target (t.size + 1) source

/-! ## Entering types -/

/-- A new scope inside another one. -/
def newScope (parent : TypeScopeId) : TypeScopeId × TypeTable :=
  let id : TypeScopeId := ⟨t.scopes.size⟩
  (id, { t with scopes := t.scopes.push { path := id :: (t.scope parent).path } })

/-- Appends an entry and binds its name in its scope. -/
def push (entry : TypeEntry) : TypeId × TypeTable :=
  let id : TypeId := ⟨t.entries.size⟩
  (id, {
    entries := t.entries.push entry
    scopes := t.scopes.modify entry.scope.index fun s => { s with names :=
      (entry.name, id) :: s.names } })

/-- Announces a type. A type of that name that is already visible is taken instead. -/
def declare (s : TypeScopeId) (name : String) (kind : TypeKind) :
    TypeId × TypeTable :=
  match t.lookup s name with
  | some id => (id, t)
  | none => t.push { name, kind, redirect := none, complete := false, scope := s }

/-- Defines a type. One that is announced in the same scope is completed in place. -/
def insert (s : TypeScopeId) (name : String) (kind : TypeKind)
    (redirect : Option TypeId) : Except TypeError TypeId × TypeTable :=
  if t.isComplete s name then (.error (.redefinition name), t)
  else if kind = .typedef ∧ redirect = none then (.error (.missingRedirect name), t)
  else
    match t.lookupHere s name with
    | none => (t.push { name, kind, redirect, complete := true, scope := s }).map .ok id
    | some id =>
      if redirect.any (t.reaches · id) then (.error (.cycle name), t)
      else
        (.ok id, { t with
          entries := t.entries.modify id.index fun e => { e with kind, redirect, complete :=
            true } })

/-! ## Structural types -/

/-- The name of a structural type, from the names of what its parts stand for. -/
def canonicalName (kind : TypeKind) (args : List TypeId) :
    Except TypeError String :=
  let names := args.map fun id => t.name (t.resolve id)
  match kind with
  | .array => .ok ("Array<" ++ ",".intercalate names ++ ">")
  | .tuple => .ok ("Tuple<" ++ ",".intercalate names ++ ">")
  | .function =>
    .ok ("Function<(" ++ ",".intercalate names.dropLast ++ ")->" ++ names.getLastD "void" ++ ">")
  | kind => .error (.notGeneric kind)

/-- The structural type with the given parts; equal names make equal types. -/
def insertGeneric (kind : TypeKind) (args : List TypeId) :
    Except TypeError TypeId × TypeTable :=
  match t.canonicalName kind args with
  | .error e => (.error e, t)
  | .ok name =>
    match t.lookupHere .top name with
    | some id => (.ok id, t)
    | none =>
      (t.push { name, kind, redirect := none, args, complete := true, scope := .top }).map .ok id

/-- The answer together with the table, where there is an answer. -/
instance : Coe (Except TypeError TypeId × TypeTable) (Except TypeError (TypeId × TypeTable)) where
  coe r := (·, r.2) <$> r.1

/-! ## Conversions -/

/-- Makes `a` a subtype of `b`: `upward` says how an `a` serves as a `b`, and `downward` the
reverse. -/
def relate (a b : TypeId) (downward upward : Conversion) : TypeTable :=
  { t with
    entries := (t.entries.modify a.index fun e =>
        { e with supertypes := e.supertypes ++ [⟨b, upward⟩] }).modify b.index fun e =>
        { e with subtypes := e.subtypes ++ [⟨a, downward⟩] } }

/-- The types one step away from a type, by any step or by implicit ones only. -/
def neighbours (implicitOnly : Bool) (id : TypeId) : List TypeId :=
  let e := t.get id
  (e.supertypes ++ e.subtypes).filterMap fun r =>
    if implicitOnly && r.conversion != .implicit then none else some (t.resolve r.other)

/-- Whether a search that has seen some types and still has to expand a queue of them comes to
`target`. Every type is expanded at most once. -/
def expand (t : TypeTable) (implicitOnly : Bool) (target : TypeId) :
    (fuel : Nat) → (seen queue : List TypeId) → Bool
  | 0, _, _ => false
  | _ + 1, _, [] => false
  | fuel + 1, seen, id :: queue =>
    let near := t.neighbours implicitOnly id
    if target ∈ near then true
    else
      let fresh := near.eraseDups.filter (· ∉ seen)
      t.expand implicitOnly target fuel (fresh ++ seen) (queue ++ fresh)

def connected (implicitOnly : Bool) (source target : TypeId) : Bool :=
  t.expand implicitOnly target (t.size + 1) [source] [source]

/-- How a value of one type may be used as another: along a path of relations in either direction,
implicitly if there is a path on which every step is implicit. -/
def conversion (source target : TypeId) : Option Conversion :=
  let source := t.resolve source
  let target := t.resolve target
  if source = target then some .implicit
  else if t.connected true source target then some .implicit
  else if t.connected false source target then some .explicit
  else none

def isAssignable (source target : TypeId) : Bool :=
  t.conversion source target = some .implicit

/-! ## The table of every script -/

def enterPrimitive (name : String) : TypeTable :=
  (t.push { name, kind := .primitive, redirect := none, complete := true, scope := .top }).2

/-- The primitive types. An integer widens to a double, and a truth value is an integer; the ways
back need a cast. -/
def primitives : TypeTable :=
  (["void", "int", "double", "bool", "string"].foldl enterPrimitive {})
    |>.relate .int .double .explicit .implicit
    |>.relate .bool .int .explicit .implicit

instance : Inhabited TypeTable := ⟨primitives⟩

end TypeTable

end Bytescript
