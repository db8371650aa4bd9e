import Bytescript.Code.Draft
import Bytescript.Image
import Bytescript.Journal
import Bytescript.Lowering.Error
import Bytescript.Native

/-!
# Lowering

The state in which a script is compiled, and the steps that compiling is made of. The first error
ends it; what was noted in the journal before stays noted.

The steps that change a table take it out of the state first, so that nothing else holds on to it
meanwhile and it can be changed in place.
-/

namespace Bytescript

/-- What a compiler is told besides the script. -/
structure CompileOptions where
  /-- The natives that scripts may call, by their place. -/
  natives : List NativeSignature := []
  /-- Whether the code of each routine is noted in the journal. -/
  listings : Bool := false

/-- What sort of routine is being compiled. -/
inductive SiteRole where
  | main
  | function
  | method (type : TypeId)
  | constructor (type : TypeId)
deriving DecidableEq, Repr, Inhabited

/-- The class whose members can be named without saying of which object. -/
def SiteRole.class? : SiteRole → Option TypeId
  | method type | constructor type => some type
  | main | function => none

/-- A loop around the statement being compiled. -/
structure Loop where
  /-- Where the next turn begins. -/
  top : Nat
  /-- The jumps that have to leave the loop. -/
  breaks : List Nat := []

/-- The routine being compiled. -/
structure Site where
  draft : Draft := {}
  role : SiteRole := .main
  scope : ScopeId := .top
  typeScope : TypeScopeId := .top
  result : TypeId := .void
  /-- The loops around the current statement, innermost first. -/
  loops : List Loop := []
deriving Inhabited

structure Lowering where
  types : TypeTable
  scopes : ScopeTable := {}
  pool : Pool.Builder := {}
  site : Site := {}
  /-- How many scopes are open around the current statement. -/
  depth : Nat := 0
  functions : Std.TreeMap String Routine := ∅
  classes : Std.TreeMap String ClassImage := ∅
  globals : Std.TreeMap String Global := ∅
  journal : Journal := {}

abbrev Lower := EStateM CompileError Lowering

namespace Lower

/-- Ends compiling with an error in a part of the script. -/
def fail {α : Type} (span : Span) (cause : CompileCause) : Lower α := throw ⟨cause, some span⟩

/-! ## The draft -/

@[inline]
def onSite {α : Type} (f : Site → α × Site) : Lower α
  | ⟨types, scopes, pool, site, depth, functions, classes, globals, journal⟩ =>
    let (a, site) := f site
    .ok a ⟨types, scopes, pool, site, depth, functions, classes, globals, journal⟩

@[inline]
def onDraft {α : Type} (f : Draft → α × Draft) : Lower α :=
  onSite fun ⟨draft, role, scope, typeScope, result, loops⟩ =>
    let (a, draft) := f draft
    (a, ⟨draft, role, scope, typeScope, result, loops⟩)

def emit (i : Instruction) : Lower Unit := onDraft fun d => ((), d.emit i)

/-- The index of the next instruction. -/
def here : Lower Nat := return (← get).site.draft.size

/-- Emits a jump whose target is not known yet, and answers where it stands. -/
def emitJump (trigger : Trigger) : Lower Nat :=
  onDraft fun d => (d.size, d.emitJump trigger)

/-- Emits a jump to an earlier instruction. -/
def emitJumpTo (target : Nat) : Lower Unit := emit (.jump .always target.toUInt32)

/-- Lets a jump aim at the next instruction. -/
def bindHere (jump : Nat) : Lower Unit := onDraft fun d => ((), d.bindHere jump)

def setMark (mark : Mark) : Lower Unit := onDraft fun d => ((), d.setMark mark)

/-- Sets another mark and answers the one there was. -/
def swapMark (mark : Mark) : Lower Mark :=
  onDraft fun ⟨code, marks, saved, labels, bindings⟩ =>
    (saved, ⟨code, marks, mark, labels, bindings⟩)

/-- Marks what is emitted meanwhile with the beginning of a span. -/
def withMark {α : Type} (span : Span) (act : Lower α) : Lower α := do
  let saved ← swapMark span.mark
  let a ← act
  setMark saved
  return a

/-! ## Tables -/

/-- Acts on the scopes on behalf of a part of the script. -/
@[inline]
def onScopes {α : Type} (span : Span) (f : ScopeTable → Except ScopeError α × ScopeTable) : Lower α
  | ⟨types, scopes, pool, site, depth, functions, classes, globals, journal⟩ =>
    match f scopes with
    | (.ok a, scopes) =>
      .ok a ⟨types, scopes, pool, site, depth, functions, classes, globals, journal⟩
    | (.error e, scopes) =>
      .error ⟨.scope e, some span⟩
        ⟨types, scopes, pool, site, depth, functions, classes, globals, journal⟩

/-- The index of a constant. -/
def constant (c : Constant) : Lower UInt16
  | ⟨types, scopes, pool, site, depth, functions, classes, globals, journal⟩ =>
    match pool.add c with
    | (.ok index, pool) =>
      .ok index ⟨types, scopes, pool, site, depth, functions, classes, globals, journal⟩
    | (.error e, pool) =>
      .error ⟨.pool e, none⟩
        ⟨types, scopes, pool, site, depth, functions, classes, globals, journal⟩

/-- Enters a type on behalf of a part of the script. -/
def onTypes (span : Span) (f : TypeTable → Except TypeError (TypeId × TypeTable)) :
    Lower TypeId := do
  match f (← get).types with
  | .ok (id, types) =>
    modify ({ · with types })
    return id
  | .error e => fail span (.type e)

def note (level : Level) (text : Unit → String) : Lower Unit :=
  modify fun s => { s with journal := s.journal.note level text }

/-- The name of a type as errors give it. -/
def typeName (type : TypeId) : Lower String := return (← get).types.name type

def isSame (a b : TypeId) : Lower Bool := return (← get).types.same a b

/-! ## Scopes -/

/-- Opens a scope of a new routine or a new block, and answers it. -/
@[inline]
def openScope (f : ScopeTable → Nat → ScopeId × ScopeTable) : Lower ScopeId
  | ⟨types, scopes, pool, site, depth, functions, classes, globals, journal⟩ =>
    let (id, scopes) := f scopes (depth + 1)
    .ok id ⟨types, scopes, pool, site, depth + 1, functions, classes, globals, journal⟩

/-- Removes the innermost scope. -/
def closeScope : Lower Unit
  | ⟨types, scopes, pool, site, depth, functions, classes, globals, journal⟩ =>
    .ok () ⟨types, scopes.remove depth, pool, site, depth - 1, functions, classes, globals, journal⟩

def setScope (scope : ScopeId) : Lower Unit := onSite fun site => ((), { site with scope })

/-- Compiles something within a block of its own. -/
def inBlock (act : Lower Unit) : Lower Unit := do
  let outer := (← get).site.scope
  setScope (← openScope fun t depth => t.pushBlock outer depth)
  act
  closeScope
  setScope outer

/-! ## Loops -/

/-- Enters a loop whose next turn begins at `top`. -/
def openLoop (top : Nat) : Lower Unit :=
  onSite fun site => ((), { site with loops := { top } :: site.loops })

/-- Ends the innermost loop: goes back for the next turn, and lets what leaves the loop go on behind
that. -/
def closeLoop : Lower Unit := do
  match (← get).site.loops with
  | [] => return ()
  | loop :: outer =>
    onSite fun site => ((), { site with loops := outer })
    emitJumpTo loop.top
    loop.breaks.forM bindHere

end Lower

end Bytescript
