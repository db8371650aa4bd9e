import Bytescript.Tree

/-!
# Scripts written by hand

Shorthands for the nodes of a script that came from no text: every span is the origin, and types
are given by name.
-/

namespace Bytescript.Build

/-! ## Types -/

def arrayOf (element : String) : TypeTerm := .array (.named element)

/-! ## Expressions -/

def int (value : Int64) : Expr := .int default value

def float (value : Double) : Expr := .float default value

def string (value : String) : Expr := .string default value

def bool (value : Bool) : Expr := .bool default value

def ident (name : String) : Expr := .ident default name

def self : Expr := .self default

def unary (op : UnaryOp) (operand : Expr) : Expr := .unary default op operand

def binary (op : BinaryOp) (left right : Expr) : Expr := .binary default op left right

def assign (target value : Expr) : Expr := .assign default none target value

def assignOp (op : Option ArithOp) (target value : Expr) : Expr := .assign default op target value

def call (name : String) (args : List Expr) : Expr := .call default name args

def methodCall (receiver : Expr) (method : String) (args : List Expr) : Expr :=
  .methodCall default receiver method args

def property (object : Expr) (name : String) : Expr := .property default object name

def newObject (className : String) : Expr := .newObject default className

def newArray (element : String) (length : Expr) : Expr := .newArray default (.named element) length

def index (array position : Expr) : Expr := .index default array position

def cast (target : String) (operand : Expr) : Expr := .cast default (.named target) operand

/-! ## Statements -/

def varTyped (type : TypeTerm) (name : String) (init : Option Expr) : Stmt :=
  .var default name type init

def var (type name : String) (init : Option Expr) : Stmt := varTyped (.named type) name init

def expr (value : Expr) : Stmt := .expr default value

def block (body : List Stmt) : Stmt := .block default body

def choose (arms : List (Expr × Stmt)) (otherwise : Option Stmt) : Stmt :=
  .choose default (arms.map fun arm => .mk arm.1 arm.2) otherwise

def whileLoop (cond : Expr) (body : Stmt) : Stmt := .whileLoop default cond body

def forLoop (init : Option Stmt) (cond step : Option Expr) (body : Stmt) : Stmt :=
  .forLoop default init cond step body

def breakLoop : Stmt := .breakLoop default

def continueLoop : Stmt := .continueLoop default

def ret (value : Option Expr) : Stmt := .ret default value

def delete (value : Expr) : Stmt := .delete default value

/-- A function whose parameters are given as type and name. -/
def function (name : String) (params : List (String × String)) (result : String)
    (body : List Stmt) : Stmt :=
  .function default ⟨name, params.map fun p => ⟨p.2, .named p.1⟩, .named result⟩ body

def classDecl (name : String) (body : List Stmt) : Stmt := .classDecl default name body

end Bytescript.Build
