import Bytescript.Double
import Bytescript.Operator
import Bytescript.Source

/-!
# Scripts

The tree of a script: statements over expressions, each with the span of text it came from. Types
are written as terms and mean nothing until a type table resolves them.
-/

namespace Bytescript

/-- A type as a script writes it. -/
inductive TypeTerm where
  | named (name : String)
  | array (element : TypeTerm)
  | tuple (elements : List TypeTerm)
  | function (params : List TypeTerm) (result : TypeTerm)

namespace TypeTerm

instance : Inhabited TypeTerm := ⟨named ""⟩

mutual

/-- The canonical spelling of a type. -/
def text : TypeTerm → String
  | named name => name
  | array element => "Array<" ++ element.text ++ ">"
  | tuple elements => "Tuple<" ++ ",".intercalate (texts elements) ++ ">"
  | function params result =>
    "Function<(" ++ ",".intercalate (texts params) ++ ")->" ++ result.text ++ ">"

def texts : List TypeTerm → List String
  | [] => []
  | t :: ts => t.text :: texts ts

end

end TypeTerm

inductive UnaryOp where
  | neg
  | not
deriving DecidableEq, Repr, Inhabited

namespace UnaryOp

def name : UnaryOp → String
  | neg => "Neg"
  | not => "Not"

def symbol : UnaryOp → String
  | neg => "-"
  | not => "!"

end UnaryOp

inductive BinaryOp where
  | arith (op : ArithOp)
  | compare (op : Comparison)
  | and
  | or
deriving DecidableEq, Repr

namespace BinaryOp

def name : BinaryOp → String
  | arith op => op.name
  | compare op => op.name
  | and => "And"
  | or => "Or"

def symbol : BinaryOp → String
  | arith op => op.symbol
  | compare op => op.symbol
  | and => "&&"
  | or => "||"

end BinaryOp

inductive Expr where
  | int (span : Span) (value : Int64)
  | float (span : Span) (value : Double)
  | string (span : Span) (value : String)
  | bool (span : Span) (value : Bool)
  | ident (span : Span) (name : String)
  /-- The receiver of the method that is running. -/
  | self (span : Span)
  | unary (span : Span) (op : UnaryOp) (operand : Expr)
  | binary (span : Span) (op : BinaryOp) (left right : Expr)
  /-- Plain assignment without an operator, compound assignment with one. -/
  | assign (span : Span) (op : Option ArithOp) (target value : Expr)
  | call (span : Span) (name : String) (args : List Expr)
  | methodCall (span : Span) (receiver : Expr) (method : String) (args : List Expr)
  | property (span : Span) (object : Expr) (name : String)
  | newObject (span : Span) (className : String)
  | newArray (span : Span) (element : TypeTerm) (length : Expr)
  | index (span : Span) (array position : Expr)
  | cast (span : Span) (target : TypeTerm) (operand : Expr)

namespace Expr

def span : Expr → Span
  | int s _ | float s _ | string s _ | bool s _ | ident s _ | self s | unary s _ _
  | binary s _ _ _ | assign s _ _ _ | call s _ _ | methodCall s _ _ _ | property s _ _
  | newObject s _ | newArray s _ _ | index s _ _ | cast s _ _ => s

instance : Inhabited Expr := ⟨self default⟩

end Expr

structure Param where
  name : String
  type : TypeTerm

/-- What a function shows to its callers. -/
structure FunctionHead where
  name : String
  params : List Param
  result : TypeTerm

mutual

inductive Stmt where
  | var (span : Span) (name : String) (type : TypeTerm) (init : Option Expr)
  | expr (span : Span) (value : Expr)
  | block (span : Span) (body : List Stmt)
  /-- The first arm whose condition holds, or else the last part. -/
  | choose (span : Span) (arms : List Arm) (otherwise : Option Stmt)
  | whileLoop (span : Span) (cond : Expr) (body : Stmt)
  | forLoop (span : Span) (init : Option Stmt) (cond step : Option Expr) (body : Stmt)
  | breakLoop (span : Span)
  | continueLoop (span : Span)
  | ret (span : Span) (value : Option Expr)
  | delete (span : Span) (value : Expr)
  | function (span : Span) (head : FunctionHead) (body : List Stmt)
  | classDecl (span : Span) (name : String) (body : List Stmt)

inductive Arm where
  | mk (cond : Expr) (body : Stmt)

end

namespace Stmt

def span : Stmt → Span
  | var s _ _ _ | expr s _ | block s _ | choose s _ _ | whileLoop s _ _ | forLoop s _ _ _ _
  | breakLoop s | continueLoop s | ret s _ | delete s _ | function s _ _ | classDecl s _ _ => s

instance : Inhabited Stmt := ⟨breakLoop default⟩

end Stmt

/-- A whole script: its top-level items in order. -/
structure Script where
  items : List Stmt

end Bytescript
