import Bytescript.Tree.Build
import Bytescript.Tree.Json

/-!
# Forms

A compact way to write scripts in JSON without spans. A form is an array: the name of a shorthand,
then what the shorthand takes, as in `["binary", "Add", ["int", 1], ["ident", "a"]]`. What stands
behind that is ignored.
-/

namespace Bytescript

inductive FormError where
  | malformed
  /-- An operator, or a type that is written out, is not one. -/
  | unknown
deriving DecidableEq, Repr

abbrev FormReader := Except FormError

namespace Form

def get {α : Type} (o : Option α) : FormReader α := o.elim (.error .malformed) .ok

def text (j : Json) : FormReader String := get j.string?

def operator {α : Type} (names : List (String × α)) (j : Json) : FormReader α := do
  (names.lookup (← text j)).elim (.error .unknown) .ok

/-- Deeper than any tree. -/
def depth : Nat := 1000000

/-- A type by name, an array of a named type, or a tree of a type. -/
def type : Json → FormReader TypeTerm
  | .string name => return .named name
  | .array [.string "array_of", name] => return Build.arrayOf (← text name)
  | j => (TypeTerm.ofJson? false depth j).elim (.error .unknown) .ok

/-- A name behind the name of its type. -/
def param : Json → FormReader (String × String)
  | .array (type :: name :: _) => return (← text type, ← text name)
  | _ => .error .malformed

def params (j : Json) : FormReader (List (String × String)) := do (← get j.array?).mapM param

mutual

def expr : Json → FormReader Expr
  | .array (.string "int" :: v :: _) => return Build.int (← get v.int64?)
  | .array (.string "float" :: v :: _) => return Build.float (← get v.double?)
  | .array (.string "string" :: v :: _) => return Build.string (← text v)
  | .array (.string "boolean" :: v :: _) => return Build.bool (← get v.bool?)
  | .array (.string "ident" :: v :: _) => return Build.ident (← text v)
  | .array (.string "this" :: _) => return Build.self
  | .array (.string "unary" :: op :: e :: _) => do
    let op ← operator UnaryOp.names op
    return Build.unary op (← expr e)
  | .array (.string "binary" :: op :: l :: r :: _) => do
    let op ← operator BinaryOp.names op
    return Build.binary op (← expr l) (← expr r)
  | .array (.string "assign_op" :: op :: t :: v :: _) => do
    let op ← operator assignmentNames op
    return Build.assignOp op (← expr t) (← expr v)
  | .array (.string "assign" :: t :: v :: _) => return Build.assign (← expr t) (← expr v)
  | .array (.string "call" :: n :: .array es :: _) => do
    let name ← text n
    return Build.call name (← exprs es)
  | .array (.string "method_call" :: r :: n :: .array es :: _) => do
    let receiver ← expr r
    return Build.methodCall receiver (← text n) (← exprs es)
  | .array (.string "property" :: o :: n :: _) => return Build.property (← expr o) (← text n)
  | .array (.string "new_object" :: c :: _) => return Build.newObject (← text c)
  | .array (.string "new_array" :: t :: e :: _) => do
    let type ← text t
    return Build.newArray type (← expr e)
  | .array (.string "index" :: a :: i :: _) => return Build.index (← expr a) (← expr i)
  | .array (.string "cast" :: t :: e :: _) => do
    let type ← text t
    return Build.cast type (← expr e)
  | _ => .error .malformed

def exprs : List Json → FormReader (List Expr)
  | [] => return []
  | j :: js => return (← expr j) :: (← exprs js)

end

/-- An expression that may be absent. -/
def expr? : Json → FormReader (Option Expr)
  | .null => return none
  | j => return some (← expr j)

mutual

def stmt : Json → FormReader Stmt
  | .array (.string "var" :: t :: n :: e :: _) =>
    return Build.var (← text t) (← text n) (← expr? e)
  | .array (.string "var_typed" :: t :: n :: e :: _) =>
    return Build.varTyped (← type t) (← text n) (← expr? e)
  | .array (.string "expr" :: e :: _) => return Build.expr (← expr e)
  | .array (.string "block" :: .array body :: _) => return Build.block (← stmts body)
  | .array (.string "if_else" :: .array list :: .null :: _) =>
    return Build.choose (← arms list) none
  | .array (.string "if_else" :: .array list :: o :: _) => do
    let list ← arms list
    return Build.choose list (some (← stmt o))
  | .array (.string "while_loop" :: c :: b :: _) => return Build.whileLoop (← expr c) (← stmt b)
  | .array (.string "for_loop" :: .null :: c :: s :: b :: _) =>
    return Build.forLoop none (← expr? c) (← expr? s) (← stmt b)
  | .array (.string "for_loop" :: i :: c :: s :: b :: _) => do
    let init ← stmt i
    return Build.forLoop (some init) (← expr? c) (← expr? s) (← stmt b)
  | .array (.string "break" :: _) => return Build.breakLoop
  | .array (.string "continue" :: _) => return Build.continueLoop
  | .array (.string "ret" :: e :: _) => return Build.ret (← expr? e)
  | .array (.string "delete" :: e :: _) => return Build.delete (← expr e)
  | .array (.string "function" :: n :: ps :: r :: .array body :: _) =>
    return Build.function (← text n) (← params ps) (← text r) (← stmts body)
  | .array (.string "class" :: n :: .array body :: _) =>
    return Build.classDecl (← text n) (← stmts body)
  | _ => .error .malformed

def stmts : List Json → FormReader (List Stmt)
  | [] => return []
  | j :: js => return (← stmt j) :: (← stmts js)

def arms : List Json → FormReader (List (Expr × Stmt))
  | [] => return []
  | .array (c :: b :: _) :: js => do
    let cond ← expr c
    return (cond, ← stmt b) :: (← arms js)
  | _ :: _ => .error .malformed

end

end Form

/-- A script from the forms of its items. -/
def Script.ofForms (items : List Json) : FormReader Script := return ⟨← Form.stmts items⟩

end Bytescript
