import Bytescript.Code.Layout
import Bytescript.Constant
import Bytescript.Scopes

/-!
# Compile errors

Why a script cannot be compiled, and which part of it is to blame. Running out of constants and
code that is too long blame no part.
-/

namespace Bytescript

inductive CompileCause where
  | scope (cause : ScopeError)
  | type (cause : TypeError)
  | pool (cause : PoolError)
  | encode (cause : EncodeError)
  | undeclared (name : String)
  | undefinedFunction (name : String)
  | arityMismatch (name : String) (expected found : Nat)
  /-- Positions count from one. -/
  | argumentType (name : String) (position : Nat) (expected found : String)
  | noMatchingOverload (name found : String)
  | operandMismatch (op left right : String)
  | unsupportedOperator (op type : String)
  | typeMismatch (expected found : String)
  | invalidCast (source target : String)
  | conditionNotBool (type : String)
  | voidVariable (name : String)
  | voidElement
  | unknownMember (type name : String)
  | unknownMethod (type name : String)
  | notAClass (name : String)
  | notAnArray (type : String)
  | breakOutsideLoop
  | continueOutsideLoop
  | returnOutsideFunction
  | missingReturnValue (type : String)
  | unexpectedReturnValue
  | thisOutsideMethod
  | assignmentAsValue
  | invalidAssignTarget
  | invalidDelete (type : String)
  | misplacedDeclaration (what : String)
  | malformedClass (name : String)
deriving DecidableEq, Repr

def CompileCause.message : CompileCause → String
  | scope cause => cause.message
  | type cause => cause.message
  | pool cause => cause.message
  | encode cause => cause.message
  | undeclared name => s!"use of undeclared identifier '{name}'"
  | undefinedFunction name => s!"call to undefined function '{name}'"
  | arityMismatch name expected found =>
    s!"'{name}' expects {expected} argument(s), got {found}"
  | argumentType name position expected found =>
    s!"argument {position} of call to '{name}': expected {expected}, found {found}"
  | noMatchingOverload name found => s!"no overload of '{name}' accepts ({found})"
  | operandMismatch op left right =>
    s!"operands of '{op}' must have the same type, found {left} and {right}"
  | unsupportedOperator op ty => s!"operator '{op}' is not defined for {ty}"
  | typeMismatch expected found => s!"expected {expected}, found {found}"
  | invalidCast source target => s!"cannot cast {source} to {target}"
  | conditionNotBool ty => s!"condition must be bool, found {ty}"
  | voidVariable name => s!"variable '{name}' cannot have type void"
  | voidElement => "array elements cannot have type void"
  | unknownMember ty name => s!"type {ty} has no member '{name}'"
  | unknownMethod ty name => s!"type {ty} has no method '{name}'"
  | notAClass name => s!"'{name}' is not a class"
  | notAnArray ty => s!"{ty} is not an array"
  | breakOutsideLoop => "'break' outside of a loop"
  | continueOutsideLoop => "'continue' outside of a loop"
  | returnOutsideFunction => "'return' outside of a function"
  | missingReturnValue ty => s!"function returning {ty} must return a value"
  | unexpectedReturnValue => "void function cannot return a value"
  | thisOutsideMethod => "'this' used outside of a method"
  | assignmentAsValue => "assignment cannot be used as a value"
  | invalidAssignTarget => "invalid assignment target"
  | invalidDelete ty => s!"only strings and objects can be deleted, found {ty}"
  | misplacedDeclaration what =>
    s!"{what} declarations are only allowed at top level or inside a class"
  | malformedClass name => s!"class '{name}' may only contain members, methods and classes"

structure CompileError where
  cause : CompileCause
  span : Option Span
deriving DecidableEq, Repr

def CompileError.message (e : CompileError) : String :=
  match e.span with
  | some span => s!"{span.start.line}:{span.start.column}: {e.cause.message}"
  | none => e.cause.message

end Bytescript
