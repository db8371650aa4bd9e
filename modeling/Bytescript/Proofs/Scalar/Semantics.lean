import Bytescript.Proofs.Flow.Statement

/-!
# What scalar scripts mean

Scripts that declare and assign variables of the types `int` and `bool`, and choose and loop, are
given a meaning here without any reference to code: expressions denote values and statements
transform the variables.

Arithmetic is that of the integers, wrapped to 64 bits. Variables live in a stack of bindings. A
declaration adds one in front, where it hides older ones of the same name, and at the end of a block
the stack is cut back to what it was.

A loop is given some number of turns. A script ends if it ends for some such number (`Ends`,
`Faults`), and goes on forever if it runs out of turns for every number (`Diverges`).
-/

namespace Bytescript

/-! ## Values -/

inductive ScalarType where
  | int
  | bool
deriving DecidableEq, Repr

inductive Scalar where
  | int (n : Int64)
  | bool (b : Bool)
deriving DecidableEq, Repr

def ScalarType.id : ScalarType → TypeId
  | int => .int
  | bool => .bool

def TypeTerm.scalar? : TypeTerm → Option ScalarType
  | .named "int" => some .int
  | .named "bool" => some .bool
  | _ => none

namespace Scalar

def type : Scalar → ScalarType
  | int _ => .int
  | bool _ => .bool

/-- How a machine represents the value. -/
def value : Scalar → Value
  | int n => .int n
  | bool b => .ofBool b

/-- What a variable of a type starts with. -/
def initial : ScalarType → Scalar
  | .int => int 0
  | .bool => bool false

def cast : ScalarType → Scalar → Scalar
  | .int, int n => int n
  | .int, bool b => int (if b then 1 else 0)
  | .bool, int n => bool (n ≠ 0)
  | .bool, bool b => bool b

end Scalar

/-! ## Expressions -/

/-- Why there is no value. -/
inductive Trap where
  | division
  /-- What is asked for has no meaning. -/
  | stuck
deriving DecidableEq, Repr

def Scalar.truth : Scalar → Except Trap Bool
  | .bool b => .ok b
  | .int _ => .error .stuck

def UnaryOp.eval : UnaryOp → Scalar → Except Trap Scalar
  | .neg, .int n => .ok (.int (.ofInt (-n.toInt)))
  | .not, .bool b => .ok (.bool !b)
  | _, _ => .error .stuck

/-- The result of an operator on integers. Quotients are cut toward zero. -/
def ArithOp.exact : ArithOp → Int → Int → Int
  | .add, a, b => a + b
  | .sub, a, b => a - b
  | .mul, a, b => a * b
  | .div, a, b => a.tdiv b
  | .mod, a, b => a.tmod b

def ArithOp.divides : ArithOp → Bool
  | .div | .mod => true
  | .add | .sub | .mul => false

def Comparison.holds : Comparison → Int → Int → Bool
  | .eq, a, b => a = b
  | .ne, a, b => a ≠ b
  | .lt, a, b => a < b
  | .le, a, b => a ≤ b
  | .gt, a, b => b < a
  | .ge, a, b => b ≤ a

/-- The operators that need both operands. -/
def BinaryOp.eval : BinaryOp → Scalar → Scalar → Except Trap Scalar
  | .arith op, .int a, .int b =>
    if op.divides && b = 0 then .error .division else .ok (.int (.ofInt (op.exact a.toInt b.toInt)))
  | .compare cmp, .int a, .int b => .ok (.bool (cmp.holds a.toInt b.toInt))
  | .compare .eq, .bool a, .bool b => .ok (.bool (a = b))
  | .compare .ne, .bool a, .bool b => .ok (.bool (a ≠ b))
  | _, _, _ => .error .stuck

/-- Bindings, the innermost first. -/
abbrev Bindings := List (String × Scalar)

namespace Bindings

def read (S : Bindings) (name : String) : Except Trap Scalar :=
  match S.lookup name with
  | some v => .ok v
  | none => .error .stuck

/-- Changes the binding that a name refers to. -/
def set : Bindings → String → Scalar → Bindings
  | [], _, _ => []
  | (n, old) :: rest, name, v => if n = name then (n, v) :: rest else (n, old) :: set rest name v

/-- The outermost bindings, as many as there were. -/
def cut (S : Bindings) (depth : Nat) : Bindings := S.drop (S.length - depth)

end Bindings

namespace Expr

def eval (S : Bindings) : Expr → Except Trap Scalar
  | int _ n => .ok (.int n)
  | bool _ b => .ok (.bool b)
  | ident _ name => S.read name
  | unary _ op e => do op.eval (← e.eval S)
  | binary _ .and l r => do
    if ← (← l.eval S).truth then return .bool (← (← r.eval S).truth) else return .bool false
  | binary _ .or l r => do
    if ← (← l.eval S).truth then return .bool true else return .bool (← (← r.eval S).truth)
  | binary _ op l r => do
    let a ← l.eval S
    let b ← r.eval S
    op.eval a b
  | cast _ term e =>
    match term.scalar? with
    | some t => return (← e.eval S).cast t
    | none => .error .stuck
  | _ => .error .stuck

def holds (e : Expr) (S : Bindings) : Except Trap Bool := do (← e.eval S).truth

/-- An assignment converts to the type of the variable. -/
def act (S : Bindings) : Expr → Except Trap Bindings
  | assign _ none (ident _ name) e => do
    let old ← S.read name
    let v ← e.eval S
    return S.set name (v.cast old.type)
  | assign _ (some op) (ident _ name) e => do
    let old ← S.read name
    let v ← e.eval S
    return S.set name (← (BinaryOp.arith op).eval old v)
  | assign _ _ _ _ => .error .stuck
  | e => do
    let _ ← e.eval S
    return S

end Expr

/-! ## Statements -/

inductive Completion where
  | next (S : Bindings)
  | breaks (S : Bindings)
  | continues (S : Bindings)
  | traps (t : Trap)
  /-- A loop has run out of turns. -/
  | unfinished
deriving DecidableEq, Repr

namespace Completion

def of : Except Trap Bindings → Completion
  | .ok S => next S
  | .error t => traps t

def andThen (o : Completion) (f : Bindings → Completion) : Completion :=
  match o with
  | next S => f S
  | o => o

def branch (c : Except Trap Bool) (yes no : Completion) : Completion :=
  match c with
  | .ok true => yes
  | .ok false => no
  | .error t => traps t

/-- The bindings of a scope go away. -/
def leave (depth : Nat) : Completion → Completion
  | next S => next (S.cut depth)
  | breaks S => breaks (S.cut depth)
  | continues S => continues (S.cut depth)
  | o => o

/-- Goes on behind a body: with the step of the loop, or behind the loop. -/
def turn (o : Completion) (again : Bindings → Completion) : Completion :=
  match o with
  | next S | continues S => again S
  | breaks S => next S
  | o => o

end Completion

/-- A loop of at most so many turns, each of them a scope. -/
def looping (guard : Bindings → Except Trap Bool) (step : Bindings → Except Trap Bindings)
    (body : Bindings → Completion) :
    Nat → Bindings → Completion
  | 0, _ => .unfinished
  | turns + 1, S =>
    .branch (guard S) (((body S).leave S.length).turn fun S =>
      (Completion.of (step S)).andThen (looping guard step body turns)) (.next S)

/-- A loop without a condition is left by other means. -/
def guarding (cond : Option Expr) (S : Bindings) : Except Trap Bool :=
  match cond with
  | some e => e.holds S
  | none => .ok true

def stepping (step : Option Expr) (S : Bindings) : Except Trap Bindings :=
  match step with
  | some e => e.act S
  | none => .ok S

def declaring (name : String) (term : TypeTerm) (init : Option Expr) (S : Bindings) :
    Except Trap Bindings :=
  match term.scalar?, init with
  | some t, some e => do return (name, (← e.eval S).cast t) :: S
  | some t, none => .ok ((name, .initial t) :: S)
  | none, _ => .error .stuck

mutual

/-- Executes a statement, where every loop may take so many turns each time that it is reached. -/
def Stmt.exec (turns : Nat) : Stmt → Bindings → Completion
  | .var _ name term init, S => .of (declaring name term init S)
  | .expr _ e, S => .of (e.act S)
  | .block _ body, S => (execAll turns body S).leave S.length
  | .choose _ arms none, S => execArms turns arms (.next S) S
  | .choose _ arms (some otherwise), S => execArms turns arms (otherwise.exec turns S) S
  | .whileLoop _ cond body, S => looping cond.holds .ok (body.exec turns) turns S
  | .forLoop _ none cond step body, S =>
    (looping (guarding cond) (stepping step) (body.exec turns) turns S).leave S.length
  | .forLoop _ (some init) cond step body, S =>
    ((init.exec turns S).andThen (looping (guarding cond) (stepping step)
      (body.exec turns) turns)).leave S.length
  | .breakLoop _, S => .breaks S
  | .continueLoop _, S => .continues S
  | _, _ => .traps .stuck

def execAll (turns : Nat) : List Stmt → Bindings → Completion
  | [], S => .next S
  | s :: rest, S => (s.exec turns S).andThen (execAll turns rest)

/-- The first arm whose condition holds, or what is done otherwise. -/
def execArms (turns : Nat) : List Arm → Completion → Bindings → Completion
  | [], otherwise, _ => otherwise
  | .mk cond body :: rest, otherwise, S =>
    .branch (cond.holds S) (body.exec turns S) (execArms turns rest otherwise S)

end

/-! ## Scripts -/

def Ends (items : List Stmt) (S : Bindings) : Prop := ∃ turns, execAll turns items [] = .next S

/-- A script stops where it divides by zero. -/
def Faults (items : List Stmt) : Prop := ∃ turns, execAll turns items [] = .traps .division

def Diverges (items : List Stmt) : Prop := ∀ turns, execAll turns items [] = .unfinished

/-! ## Scalar scripts -/

namespace Expr

/-- Literals, variables, operators, casts, and assignments to variables. -/
def scalar : Expr → Bool
  | int _ _ | bool _ _ | ident _ _ => true
  | unary _ _ e => e.scalar
  | binary _ _ l r => l.scalar && r.scalar
  | cast _ term e => term.scalar?.isSome && e.scalar
  | assign _ _ (ident _ _) e => e.scalar
  | _ => false

/-- How many values lie on the stack at most while the expression is computed. -/
def height : Expr → Nat
  | unary _ _ e => e.height
  | binary _ _ l r => max l.height (r.height + 1)
  | cast _ _ e => max e.height 2
  | assign _ none _ e => e.height
  | assign _ (some _) _ e => e.height + 1
  | _ => 1

end Expr

mutual

/-- Variables are of scalar types, and so is all that is computed. -/
def Stmt.scalar : Stmt → Bool
  | .var _ _ term init => term.scalar?.isSome && init.all Expr.scalar
  | .expr _ e => e.scalar
  | .block _ body => scalarAll body
  | .choose _ arms none => scalarArms arms
  | .choose _ arms (some otherwise) => scalarArms arms && otherwise.scalar
  | .whileLoop _ cond body => cond.scalar && body.scalar
  | .forLoop _ none cond step body => cond.all Expr.scalar && step.all Expr.scalar && body.scalar
  | .forLoop _ (some init) cond step body =>
    init.scalar && (cond.all Expr.scalar && step.all Expr.scalar && body.scalar)
  | .breakLoop _ | .continueLoop _ => true
  | _ => false

def scalarAll : List Stmt → Bool
  | [] => true
  | s :: rest => s.scalar && scalarAll rest

def scalarArms : List Arm → Bool
  | [] => true
  | .mk cond body :: rest => cond.scalar && body.scalar && scalarArms rest

end

mutual

/-- How many values lie on the stack at most while the statement is executed. -/
def Stmt.height : Stmt → Nat
  | .var _ _ _ init => init.elim 1 Expr.height
  | .expr _ e => e.height
  | .block _ body => heightAll body
  | .choose _ arms none => heightArms arms
  | .choose _ arms (some otherwise) => max (heightArms arms) otherwise.height
  | .whileLoop _ cond body => max cond.height body.height
  | .forLoop _ none cond step body =>
    max (max (cond.elim 0 Expr.height) (step.elim 0 Expr.height)) body.height
  | .forLoop _ (some init) cond step body =>
    max init.height (max (max (cond.elim 0 Expr.height) (step.elim 0 Expr.height)) body.height)
  | _ => 0

def heightAll : List Stmt → Nat
  | [] => 0
  | s :: rest => max s.height (heightAll rest)

def heightArms : List Arm → Nat
  | [] => 0
  | .mk cond body :: rest => max (max cond.height body.height) (heightArms rest)

end

end Bytescript
