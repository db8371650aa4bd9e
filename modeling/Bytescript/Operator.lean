/-!
# Kinds of values and operators

The vocabulary that scripts and compiled code share: how a value is represented while a script runs,
and the arithmetic and comparing operators.
-/

namespace Bytescript

/-- How a value is represented at run time. -/
inductive Kind where
  /-- Integers and truth values. -/
  | int
  | float
  /-- Strings, objects and arrays. -/
  | ref
deriving DecidableEq, Repr, Inhabited

namespace Kind

def all : List Kind := [int, float, ref]

def name : Kind → String
  | int => "Int"
  | float => "Float"
  | ref => "Ref"

def suffix : Kind → String
  | int => "int"
  | float => "float"
  | ref => "ref"

end Kind

inductive ArithOp where
  | add
  | sub
  | mul
  | div
  | mod
deriving DecidableEq, Repr, Inhabited

namespace ArithOp

def all : List ArithOp := [add, sub, mul, div, mod]

def name : ArithOp → String
  | add => "Add"
  | sub => "Sub"
  | mul => "Mul"
  | div => "Div"
  | mod => "Mod"

def mnemonic : ArithOp → String
  | add => "add"
  | sub => "sub"
  | mul => "mul"
  | div => "div"
  | mod => "mod"

def symbol : ArithOp → String
  | add => "+"
  | sub => "-"
  | mul => "*"
  | div => "/"
  | mod => "%"

end ArithOp

inductive Comparison where
  | eq
  | ne
  | lt
  | le
  | gt
  | ge
deriving DecidableEq, Repr, Inhabited

namespace Comparison

def all : List Comparison := [eq, ne, lt, le, gt, ge]

def name : Comparison → String
  | eq => "Eq"
  | ne => "Ne"
  | lt => "Lt"
  | le => "Le"
  | gt => "Gt"
  | ge => "Ge"

def mnemonic : Comparison → String
  | eq => "eq"
  | ne => "ne"
  | lt => "lt"
  | le => "le"
  | gt => "gt"
  | ge => "ge"

def symbol : Comparison → String
  | eq => "=="
  | ne => "!="
  | lt => "<"
  | le => "<="
  | gt => ">"
  | ge => ">="

end Comparison

end Bytescript
