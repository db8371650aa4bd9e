import Bytescript.Json
import Bytescript.Tree

/-!
# The JSON form of scripts

A node is a record of a kind and a span, where a missing span is the origin. A kind is a variant:
its name alone, or an object whose only member is the name with the variant's content. Members that
a record does not know are ignored; a missing optional part is absent.

Records may also be arrays of their parts in order. This holds of every record that stands alone,
such as a node or a declaration. For the parts of a variant themselves, such as the operands of an
operation, it holds only where `positional` says so: in a text of its own, and not where the script
is part of a larger value.

Reading is bounded by `depth`, the number of objects and arrays that may still be opened one inside
the other. Reading ends because every node opens at least one.
-/

namespace Bytescript

/-! ## Reading -/

/-- The unsigned 64-bit numbers of a position. -/
def Position.ofJson? (depth : Nat) (j : Json) : Option Position := do
  guard (0 < depth)
  let [some offset, some line, some column] ← j.record? ["offset", "line", "column"] 0 | none
  let size (j : Json) : Option Nat := (j.intIn? 0 (UInt64.size - 1)).map Int.toNat
  return ⟨← size offset, ← size line, ← size column⟩

def Span.ofJson? (depth : Nat) (j : Json) : Option Span := do
  guard (0 < depth)
  let [some start, some stop] ← j.record? ["start", "end"] 0 | none
  return ⟨← Position.ofJson? (depth - 1) start, ← Position.ofJson? (depth - 1) stop⟩

/-- The parts of a variant, all of them if given by position. -/
def Json.parts? (positional : Bool) (names : List String) (j : Json) :
    Option (List (Option Json)) :=
  match j with
  | .array _ => if positional then j.record? names 0 else none
  | j => j.record? names 0

/-- The kind and the span of a node. -/
def Json.node? (depth : Nat) (j : Json) : Option (Json × Span) := do
  let [some kind, span] ← j.record? ["kind", "span"] 1 | none
  match span with
  | none => return (kind, default)
  | some span => return (kind, ← Span.ofJson? depth span)

/-- One of several bare names. -/
def Json.choice? {α : Type} (depth : Nat) (choices : List (String × α)) (j : Json) : Option α := do
  let (name, payload) ← j.variant?
  match payload with
  | none => choices.lookup name
  | some .null => if depth = 0 then none else choices.lookup name
  | some _ => none

def Json.int64? (j : Json) : Option Int64 :=
  (j.intIn? Int64.minValue.toInt Int64.maxValue.toInt).map Int64.ofInt

def UnaryOp.names : List (String × UnaryOp) := [neg, not].map fun op => (op.name, op)

def BinaryOp.names : List (String × BinaryOp) :=
  (ArithOp.all.map arith ++ Comparison.all.map compare ++ [and, or]).map fun op => (op.name, op)

/-- The operators of assignments; the plain one is called `Assign`. -/
def assignmentNames : List (String × Option ArithOp) :=
  ("Assign", none) :: ArithOp.all.map fun op => (op.name, some op)

def TypeTerm.ofJson? (positional : Bool) : (depth : Nat) → Json → Option TypeTerm
  | 0, _ => none
  | depth + 1, j =>
    match j.variant? with
    | some (tag, some payload) =>
      match tag with
      | "Named" => payload.string?.map .named
      | "Array" => (ofJson? positional depth payload).map .array
      | "Tuple" =>
        match depth with
        | 0 => none
        | depth + 1 => do return .tuple (← (← payload.array?).mapM (ofJson? positional depth))
      | "Function" =>
        match depth with
        | 0 | 1 => none
        | depth + 2 => do
          let [some params, some result] ← payload.parts? positional ["params", "ret"] | none
          return .function (← (← params.array?).mapM (ofJson? positional depth))
            (← ofJson? positional (depth + 1) result)
      | _ => none
    | _ => none

def Expr.ofJson? (positional : Bool) : (depth : Nat) → Json → Option Expr
  | 0, _ => none
  | depth + 1, j => do
    let (kind, span) ← j.node? depth
    match ← kind.variant? with
    | ("This", none) => return .self span
    | (_, none) => none
    | (tag, some payload) =>
      match depth with
      | 0 => none
      | depth + 1 =>
        match tag with
        | "Int" => return .int span (← payload.int64?)
        | "Float" => return .float span (← payload.double?)
        | "Str" => return .string span (← payload.string?)
        | "Bool" => return .bool span (← payload.bool?)
        | "Ident" => return .ident span (← payload.string?)
        | "This" =>
          match payload with
          | .null => return .self span
          | _ => none
        | tag =>
          match depth with
          | 0 => none
          | depth + 1 =>
            match tag with
            | "Unary" => do
              let [some op, some operand] ← payload.parts? positional ["op", "operand"] | none
              return .unary span (← op.choice? depth UnaryOp.names)
                (← ofJson? positional depth operand)
            | "Binary" => do
              let [some op, some left, some right] ←
                payload.parts? positional ["op", "left", "right"] | none
              return .binary span (← op.choice? depth BinaryOp.names)
                (← ofJson? positional depth left) (← ofJson? positional depth right)
            | "Assign" => do
              let [some op, some target, some value] ←
                payload.parts? positional ["op", "target", "value"] | none
              return .assign span (← op.choice? depth assignmentNames)
                (← ofJson? positional depth target) (← ofJson? positional depth value)
            | "Call" => do
              let [some name, some args] ← payload.parts? positional ["name", "args"] | none
              match depth with
              | 0 => none
              | depth + 1 =>
                return .call span (← name.string?)
                  (← (← args.array?).mapM (ofJson? positional depth))
            | "MethodCall" => do
              let [some receiver, some method, some args] ←
                payload.parts? positional ["receiver", "method", "args"] | none
              match depth with
              | 0 => none
              | depth + 1 =>
                return .methodCall span (← ofJson? positional (depth + 1) receiver)
                  (← method.string?) (← (← args.array?).mapM (ofJson? positional depth))
            | "Property" => do
              let [some object, some name] ← payload.parts? positional ["object", "name"] | none
              return .property span (← ofJson? positional depth object) (← name.string?)
            | "New" => do
              let [some name] ← payload.parts? positional ["class"] | none
              return .newObject span (← name.string?)
            | "NewArray" => do
              let [some element, some length] ← payload.parts? positional ["elem", "len"] | none
              return .newArray span (← TypeTerm.ofJson? positional depth element)
                (← ofJson? positional depth length)
            | "Index" => do
              let [some array, some position] ← payload.parts? positional ["array", "index"] | none
              return .index span (← ofJson? positional depth array)
                (← ofJson? positional depth position)
            | "Cast" => do
              let [some target, some operand] ← payload.parts? positional ["ty", "expr"] | none
              return .cast span (← TypeTerm.ofJson? positional depth target)
                (← ofJson? positional depth operand)
            | _ => none

def Param.ofJson? (positional : Bool) (depth : Nat) (j : Json) : Option Param := do
  guard (0 < depth)
  let [some name, some type] ← j.record? ["name", "ty"] 0 | none
  return ⟨← name.string?, ← TypeTerm.ofJson? positional (depth - 1) type⟩

def Stmt.ofJson? (positional : Bool) : (depth : Nat) → Json → Option Stmt
  | 0, _ => none
  | depth + 1, j => do
    let (kind, span) ← j.node? depth
    match ← kind.variant? with
    | ("Break", none) => return .breakLoop span
    | ("Continue", none) => return .continueLoop span
    | (_, none) => none
    | (tag, some payload) =>
      match depth with
      | 0 => none
      | depth + 1 =>
        match tag with
        | "Expr" => return .expr span (← Expr.ofJson? positional depth payload)
        | "Return" =>
          return .ret span (← Json.optional? (Expr.ofJson? positional depth) (some payload))
        | "Delete" => return .delete span (← Expr.ofJson? positional depth payload)
        | "Break" =>
          match payload with
          | .null => return .breakLoop span
          | _ => none
        | "Continue" =>
          match payload with
          | .null => return .continueLoop span
          | _ => none
        | tag =>
          match depth with
          | 0 => none
          | depth + 1 =>
            match tag with
            | "Block" => return .block span (← (← payload.array?).mapM (ofJson? positional depth))
            | "VarDecl" => do
              let [some name, some type, init] ← payload.record? ["name", "ty", "init"] 0 | none
              return .var span (← name.string?) (← TypeTerm.ofJson? positional depth type)
                (← Json.optional? (Expr.ofJson? positional depth) init)
            | "If" => do
              let [some arms, otherwise] ←
                payload.parts? positional ["branches", "otherwise"] | none
              let otherwise ← Json.optional? (ofJson? positional depth) otherwise
              match depth with
              | 0 => none
              | 1 => if (← arms.array?).isEmpty then return .choose span [] otherwise else none
              | depth + 2 =>
                let arms ← (← arms.array?).mapM fun arm => do
                  let [some cond, some body] ← arm.record? ["cond", "body"] 0 | none
                  return Arm.mk (← Expr.ofJson? positional depth cond)
                    (← ofJson? positional depth body)
                return .choose span arms otherwise
            | "While" => do
              let [some cond, some body] ← payload.parts? positional ["cond", "body"] | none
              return .whileLoop span (← Expr.ofJson? positional depth cond)
                (← ofJson? positional depth body)
            | "For" => do
              let [init, cond, step, some body] ←
                payload.parts? positional ["init", "cond", "step", "body"] | none
              return .forLoop span (← Json.optional? (ofJson? positional depth) init)
                (← Json.optional? (Expr.ofJson? positional depth) cond)
                (← Json.optional? (Expr.ofJson? positional depth) step)
                (← ofJson? positional depth body)
            | "Function" => do
              let [some name, some params, some result, some body] ←
                payload.record? ["name", "params", "ret", "body"] 0 | none
              match depth with
              | 0 => none
              | depth + 1 =>
                let params ← (← params.array?).mapM (Param.ofJson? positional depth)
                return .function span
                  ⟨← name.string?, params, ← TypeTerm.ofJson? positional (depth + 1) result⟩
                  (← (← body.array?).mapM (ofJson? positional depth))
            | "Class" => do
              let [some name, some body] ← payload.record? ["name", "body"] 0 | none
              match depth with
              | 0 => none
              | depth + 1 =>
                return .classDecl span (← name.string?)
                  (← (← body.array?).mapM (ofJson? positional depth))
            | _ => none

def Script.ofJson? (positional : Bool) : (depth : Nat) → Json → Option Script
  | 0, _ | 1, _ => none
  | depth + 2, j => do
    let [some items] ← j.record? ["items"] 0 | none
    return ⟨← (← items.array?).mapM (Stmt.ofJson? positional depth)⟩

/-- The script that a text holds; at most 127 objects and arrays may stand one inside the other. -/
def Script.read? (text : String) : Option Script :=
  (Json.read? text).bind (Script.ofJson? true 127)

/-! ## Writing -/

def Position.toJson (p : Position) : Json :=
  .object [("offset", .int p.offset), ("line", .int p.line), ("column", .int p.column)]

def Span.toJson (s : Span) : Json :=
  .object [("start", s.start.toJson), ("end", s.stop.toJson)]

/-- A variant with content. -/
def Json.tagged (tag : String) (payload : Json) : Json := .object [(tag, payload)]

/-- A variant whose content is a record. -/
def Json.fields (tag : String) (members : List (String × Json)) : Json :=
  .object [(tag, .object members)]

namespace TypeTerm

mutual

def toJson : TypeTerm → Json
  | named name => .tagged "Named" (.string name)
  | array element => .tagged "Array" element.toJson
  | tuple elements => .tagged "Tuple" (.array (toJsons elements))
  | function params result =>
    .fields "Function" [("params", .array (toJsons params)), ("ret", result.toJson)]

def toJsons : List TypeTerm → List Json
  | [] => []
  | t :: ts => t.toJson :: toJsons ts

end

end TypeTerm

namespace Expr

mutual

/-- The node of an expression, with its span. -/
def toJson : Expr → Json
  | int s value => node s (.tagged "Int" (.int value.toInt))
  | float s value => node s (.tagged "Float" (.float value))
  | string s value => node s (.tagged "Str" (.string value))
  | bool s value => node s (.tagged "Bool" (.bool value))
  | ident s name => node s (.tagged "Ident" (.string name))
  | self s => node s (.string "This")
  | unary s op operand =>
    node s (.fields "Unary" [("op", .string op.name), ("operand", operand.toJson)])
  | binary s op left right =>
    node s (.fields "Binary" [("op", .string op.name), ("left", left.toJson),
      ("right", right.toJson)])
  | assign s op target value =>
    node s (.fields "Assign" [("op", .string (op.elim "Assign" ArithOp.name)),
      ("target", target.toJson), ("value", value.toJson)])
  | call s name args =>
    node s (.fields "Call" [("name", .string name), ("args", .array (toJsons args))])
  | methodCall s receiver method args =>
    node s (.fields "MethodCall" [("receiver", receiver.toJson), ("method", .string method),
      ("args", .array (toJsons args))])
  | property s object name =>
    node s (.fields "Property" [("object", object.toJson), ("name", .string name)])
  | newObject s className => node s (.fields "New" [("class", .string className)])
  | newArray s element length =>
    node s (.fields "NewArray" [("elem", element.toJson), ("len", length.toJson)])
  | index s array position =>
    node s (.fields "Index" [("array", array.toJson), ("index", position.toJson)])
  | cast s target operand =>
    node s (.fields "Cast" [("ty", target.toJson), ("expr", operand.toJson)])
where
  node (s : Span) (kind : Json) : Json := .object [("kind", kind), ("span", s.toJson)]

def toJsons : List Expr → List Json
  | [] => []
  | e :: es => e.toJson :: toJsons es

end

def optionToJson (e : Option Expr) : Json := e.elim .null toJson

end Expr

def Param.toJson (p : Param) : Json :=
  .object [("name", .string p.name), ("ty", p.type.toJson)]

namespace Stmt

mutual

/-- The node of a statement, with its span. -/
def toJson : Stmt → Json
  | var s name type init =>
    node s (.fields "VarDecl" [("name", .string name), ("ty", type.toJson),
      ("init", Expr.optionToJson init)])
  | expr s value => node s (.tagged "Expr" value.toJson)
  | block s body => node s (.tagged "Block" (.array (toJsons body)))
  | choose s arms otherwise =>
    node s (.fields "If" [("branches", .array (armsToJson arms)),
      ("otherwise", optionToJson otherwise)])
  | whileLoop s cond body =>
    node s (.fields "While" [("cond", cond.toJson), ("body", body.toJson)])
  | forLoop s init cond step body =>
    node s (.fields "For" [("init", optionToJson init), ("cond", Expr.optionToJson cond),
      ("step", Expr.optionToJson step), ("body", body.toJson)])
  | breakLoop s => node s (.string "Break")
  | continueLoop s => node s (.string "Continue")
  | ret s value => node s (.tagged "Return" (Expr.optionToJson value))
  | delete s value => node s (.tagged "Delete" value.toJson)
  | function s head body =>
    node s (.fields "Function" [("name", .string head.name),
      ("params", .array (head.params.map Param.toJson)), ("ret", head.result.toJson),
      ("body", .array (toJsons body))])
  | classDecl s name body =>
    node s (.fields "Class" [("name", .string name), ("body", .array (toJsons body))])
where
  node (s : Span) (kind : Json) : Json := .object [("kind", kind), ("span", s.toJson)]

def toJsons : List Stmt → List Json
  | [] => []
  | s :: ss => s.toJson :: toJsons ss

def optionToJson : Option Stmt → Json
  | none => .null
  | some s => s.toJson

def armsToJson : List Arm → List Json
  | [] => []
  | .mk cond body :: arms =>
    .object [("cond", cond.toJson), ("body", body.toJson)] :: armsToJson arms

end

end Stmt

def Script.toJson (s : Script) : Json := .object [("items", .array (Stmt.toJsons s.items))]

end Bytescript
