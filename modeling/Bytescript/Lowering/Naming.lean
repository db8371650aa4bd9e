import Bytescript.Lowering
import Bytescript.Tree

/-!
# Naming

What the names in a script stand for: types, classes with their members and methods, and the
routines and natives that a call may mean.
-/

namespace Bytescript

/-- How the values of a type that stands for itself are represented. -/
def TypeId.kind (type : TypeId) : Kind :=
  if type = .int ∨ type = .bool then .int
  else if type = .double then .float
  else .ref

/-- How the values of a type are represented. -/
def TypeTable.kindOf (t : TypeTable) (type : TypeId) : Kind := (t.resolve type).kind

/-- The element type of an array type. -/
def TypeTable.element? (t : TypeTable) (type : TypeId) : Option TypeId :=
  let entry := t.get (t.resolve type)
  if entry.kind = .array then entry.args.head? else none

/-- The types of parameters as they are part of a name. -/
def TypeTable.signature (t : TypeTable) (params : List TypeId) : String :=
  "(" ++ ",".intercalate (params.map fun p => t.name (t.resolve p)) ++ ")"

namespace Lower

/-! ## Types -/

def kindOf (type : TypeId) : Lower Kind := return (← get).types.kindOf type

def generic (span : Span) (kind : TypeKind) (args : List TypeId) : Lower TypeId :=
  onTypes span (·.insertGeneric kind args)

mutual

/-- The type that a term means in a scope. -/
def resolveType (scope : TypeScopeId) (span : Span) : TypeTerm → Lower TypeId
  | .named name => do
    let types := (← get).types
    match types.lookup scope name with
    | some id =>
      if (types.get id).complete then return id
      else fail span (.type (.unknown name))
    | none => fail span (.type (.unknown name))
  | .array element => do
    let element ← resolveType scope span element
    generic span .array [element]
  | .tuple elements => do
    let elements ← resolveTypes scope span elements
    generic span .tuple elements
  | .function params result => do
    let params ← resolveTypes scope span params
    let result ← resolveType scope span result
    generic span .function (params ++ [result])

def resolveTypes (scope : TypeScopeId) (span : Span) : List TypeTerm → Lower (List TypeId)
  | [] => return []
  | t :: ts => do
    let id ← resolveType scope span t
    return id :: (← resolveTypes scope span ts)

end

/-- The type of a variable, which has to have values. -/
def variableType (scope : TypeScopeId) (span : Span) (name : String) (term : TypeTerm) :
    Lower TypeId := do
  let type ← resolveType scope span term
  if ← isSame type .void then fail span (.voidVariable name)
  return type

/-- The types of the parameters and the result of a function. -/
def resolveHead (scope : TypeScopeId) (span : Span) (head : FunctionHead) :
    Lower (List TypeId × TypeId) := do
  let params ← head.params.mapM fun p => variableType scope span p.name p.type
  return (params, ← resolveType scope span head.result)

/-- The name of a function together with the types of its parameters. -/
def mangle (name : String) (params : List TypeId) : Lower String :=
  return name ++ (← get).types.signature params

/-! ## Classes -/

structure ClassInfo where
  type : TypeId
  scopes : ClassScopes
  /-- The constant of the constructor. -/
  constructor : UInt16

/-- The name of a constructor among the methods; no script can spell it. -/
def constructorName : String := "<init>"

def classOfType? (type : TypeId) : Lower (Option ClassInfo) := do
  let s ← get
  let type := s.types.resolve type
  return do
    let scopes ← (← s.scopes.lookupClass type).class?
    let constructor ← (← s.scopes.lookupHere scopes.methods constructorName).callee?
    return { type, scopes, constructor }

def classOf (span : Span) (type : TypeId) : Lower ClassInfo := do
  match ← classOfType? type with
  | some info => return info
  | none => fail span (.notAClass (← typeName type))

/-- The class of a name in a scope of types. -/
def classNamed (scope : TypeScopeId) (span : Span) (name : String) : Lower ClassInfo := do
  let info? ←
    match (← get).types.lookup scope name with
    | some type => classOfType? type
    | none => pure none
  match info? with
  | some info => return info
  | none => fail span (.notAClass name)

/-- The slot and the type of a member. -/
def member? (info : ClassInfo) (name : String) : Lower (Option (UInt16 × TypeId)) := do
  let s ← get
  return do
    let sym ← s.scopes.lookupHere info.scopes.members name
    return (← sym.slot?, sym.type)

def member (span : Span) (info : ClassInfo) (name : String) : Lower (UInt16 × TypeId) := do
  match ← member? info name with
  | some found => return found
  | none => fail span (.unknownMember info.scopes.qualified name)

/-- The slot and the type of a variable of the routine. -/
def localNamed? (name : String) : Lower (Option (UInt16 × TypeId)) := do
  let s ← get
  return do
    let sym ← s.scopes.lookupVariable s.site.scope name
    return (sym.slot?.getD 0, sym.type)

/-! ## Callees -/

/-- What a call may mean. -/
structure Candidate where
  params : List TypeId
  result : TypeId
  callee : UInt16

def Candidate.ofSymbol? (sym : Symbol) : Option Candidate := do
  return ⟨← sym.params?, sym.type, ← sym.callee?⟩

def functionsNamed (name : String) : Lower (List Candidate) := do
  let s ← get
  return (s.scopes.lookupFunctions s.site.scope name).filterMap Candidate.ofSymbol?

def methodsNamed (info : ClassInfo) (name : String) : Lower (List Candidate) :=
  return ((← get).scopes.lookupMethods info.scopes.methods name).filterMap Candidate.ofSymbol?

/-- A type by a name that a native gives it. -/
def nativeType (span : Span) (name : String) : Lower TypeId := do
  match (← get).types.lookup .top name with
  | some type => return type
  | none => fail span (.type (.unknown name))

def nativesNamed (natives : List NativeSignature) (span : Span) (name : String) :
    Lower (List Candidate) :=
  (natives.zipIdx.filter fun (n, _) => n.name = name).mapM fun (n, index) => do
    if UInt16.size ≤ index then fail span (.undefinedFunction name)
    let params ← n.params.mapM (nativeType span)
    return ⟨params, ← nativeType span n.result, index.toUInt16⟩

end Lower

end Bytescript
