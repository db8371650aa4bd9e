import Bytescript.Lowering.Expression

/-!
# Statements

The code of a statement leaves the operand stack as it found it. Conditions jump over what they
guard; a `for` is entered behind its step: `init; jmp cond; top: step; cond; body; jmp top`.
-/

namespace Bytescript

namespace Lower

variable (natives : List NativeSignature) (span : Span)

/-- Declares a variable in the current scope. -/
def declareVariable (name : String) (type : TypeId) : Lower UInt16 := do
  let scope := (← get).site.scope
  onScopes span (·.insertVariable scope name type)

/-- Pushes what a variable without initialiser starts with. -/
def pushInitial : Kind → Lower Unit
  | .int => emit (.pushByte 0)
  | .float => do emit (.pushConst (← constant (.float ⟨0⟩)))
  | .ref => emit .pushVoid

/-- The code of a declaration, which gives the variable its first value each time it runs. The
initialiser does not see the variable. -/
def varDecl (name : String) (term : TypeTerm)
    (init : Option Expr) : Lower Unit := do
  let type ← variableType (← get).site.typeScope span name term
  let kind ← kindOf type
  match init with
  | some e => coerce e.span (← expr natives e) type
  | none => pushInitial kind
  let slot ← declareVariable span name type
  emit (.store kind slot)
  let site := (← get).site
  if site.role = .main && site.scope = .top then
    modify fun s => { s with globals := s.globals.insert name ⟨slot, type⟩ }

/-- Jumps behind the innermost loop. -/
def breakLoop : Lower Unit := do
  match (← get).site.loops with
  | [] => fail span .breakOutsideLoop
  | loop :: outer =>
    let jump ← emitJump .always
    onSite fun site => ((), { site with loops :=
      { loop with breaks := jump :: loop.breaks } :: outer })

/-- Jumps to the next turn of the innermost loop. -/
def continueLoop : Lower Unit := do
  match (← get).site.loops with
  | [] => fail span .continueOutsideLoop
  | loop :: _ => emitJumpTo loop.top

def ret (value : Option Expr) : Lower Unit := do
  let site := (← get).site
  if site.role = .main then fail span .returnOutsideFunction
  let isVoid ← isSame site.result .void
  match value with
  | some e =>
    if isVoid then fail span .unexpectedReturnValue
    coerce e.span (← expr natives e) site.result
    emit .ret
  | none =>
    if !isVoid then fail span (.missingReturnValue (← typeName site.result))
    emit .retVoid

/-- Only what lives on the heap can be deleted. -/
def delete (value : Expr) : Lower Unit := do
  let type ← expr natives value
  if (← isSame type .void) || (← kindOf type) != .ref then
    fail span (.invalidDelete (← typeName type))
  emit .delete

mutual

def stmt (natives : List NativeSignature) (s : Stmt) : Lower Unit := do
  setMark s.span.mark
  match s with
  | .var span name type init => varDecl natives span name type init
  | .expr _ value => effect natives value
  | .block _ body => inBlock (stmts natives body)
  | .choose _ list otherwise =>
    let ends ← arms natives otherwise.isSome list
    match otherwise with
    | some s => stmt natives s
    | none => pure ()
    ends.forM bindHere
  | .whileLoop _ cond body =>
    let top ← here
    condition natives cond
    let exit ← emitJump .ifFalse
    openLoop top
    stmt natives body
    closeLoop
    bindHere exit
  | .forLoop _ init cond step body =>
    inBlock do
      match init with
      | some s => stmt natives s
      | none => pure ()
      let entry ← emitJump .always
      let top ← here
      step.forM (effect natives)
      bindHere entry
      cond.forM (condition natives)
      let exit ← if cond.isSome then some <$> emitJump .ifFalse else pure none
      openLoop top
      stmt natives body
      closeLoop
      exit.forM bindHere
  | .breakLoop span => breakLoop span
  | .continueLoop span => continueLoop span
  | .ret span value => ret natives span value
  | .delete span value => delete natives span value
  | .function span _ _ => fail span (.misplacedDeclaration "function")
  | .classDecl span _ _ => fail span (.misplacedDeclaration "class")

/-- Statements one after the other. -/
def stmts (natives : List NativeSignature) : List Stmt → Lower Unit
  | [] => return ()
  | s :: rest => do
    stmt natives s
    stmts natives rest

/-- The arms of a choice. Answers the jumps at their ends, which have to leave the choice; the last
arm needs none if nothing stands behind it. -/
def arms (natives : List NativeSignature) (hasElse : Bool) : List Arm → Lower (List Nat)
  | [] => return []
  | .mk cond body :: rest => do
    condition natives cond
    let skip ← emitJump .ifFalse
    stmt natives body
    let ends ← if hasElse || !rest.isEmpty then do pure [← emitJump .always] else pure []
    bindHere skip
    return ends ++ (← arms natives hasElse rest)

end

end Lower

end Bytescript
