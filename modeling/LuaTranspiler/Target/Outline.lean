import LuaTranspiler.Data
import LuaTranspiler.Target.Listing
import LuaTranspiler.Target.Tree

/-!
# TypeScript trees as data

A node is a record of its id and its kind. The parts of a kind are a record, or a list where they
have no names.

* `Ty.data`: a type
* `Expr.data`, `Stmt.data`: nodes
* `outline`: the data of statements
* `LineMapping.data`: a line of a line map
-/

namespace LuaTranspiler

mutual

/-- A type as data. -/
def Ty.data : Ty → Data
  | .number => .symbol "Number"
  | .string => .symbol "String"
  | .boolean => .symbol "Boolean"
  | .undefined => .symbol "Undefined"
  | .void => .symbol "Void"
  | .union ts => .tagged "Union" (.list (Ty.dataList ts))
  | .tuple ts => .tagged "Tuple" (.list (Ty.dataList ts))

/-- Types as data. -/
def Ty.dataList : List Ty → List Data
  | [] => []
  | t :: ts => t.data :: Ty.dataList ts

end

/-- A type that may be absent as data. -/
def tyData (ty : Option Ty) : Data := .ofOption (ty.map Ty.data)

/-- A line of a line map as data. -/
def LineMapping.data (m : LineMapping) : Data :=
  .record [("generated_line", .nat m.line), ("source_line", .nat m.sourceLine),
    ("source_column", .nat m.sourceColumn)]

namespace Target

/-- A node as data. -/
def nodeData (id : Nat) (kind : Data) : Data := .record [("id", .nat id), ("kind", kind)]

/-- The name of an operator as data. -/
def BinaryOp.data : BinaryOp → Data
  | add => .symbol "Add"
  | sub => .symbol "Sub"
  | mul => .symbol "Mul"
  | div => .symbol "Div"
  | mod => .symbol "Mod"
  | pow => .symbol "Pow"
  | strictEq => .symbol "StrictEq"
  | strictNotEq => .symbol "StrictNotEq"
  | less => .symbol "Less"
  | lessEq => .symbol "LessEq"
  | greater => .symbol "Greater"
  | greaterEq => .symbol "GreaterEq"
  | and => .symbol "And"
  | or => .symbol "Or"

/-- The name of an operator as data. -/
def UnaryOp.data : UnaryOp → Data
  | neg => .symbol "Neg"
  | not => .symbol "Not"
  | bitNot => .symbol "BitNot"

/-- The name of an assignment as data. -/
def AssignOp.data : AssignOp → Data
  | assign => .symbol "Assign"
  | addAssign => .symbol "AddAssign"

/-- The name of a kind of variable as data. -/
def VarKind.data : VarKind → Data
  | .let => .symbol "Let"
  | .const => .symbol "Const"

/-- Bound names as data. -/
def Binding.data : Binding → Data
  | ident name => .tagged "Ident" (.text name)
  | array names => .tagged "Array" (.list (names.map .text))

/-- A parameter as data. -/
def Param.data (p : Param) : Data :=
  .record [("name", .text p.name), ("rest", .bool p.rest), ("ty", tyData p.ty)]

mutual

/-- An expression as data. -/
def Expr.data : Expr → Data
  | .ident id name => nodeData id (.tagged "Ident" (.text name))
  | .number id value => nodeData id (.tagged "Number" (.number value))
  | .string id value => nodeData id (.tagged "String" (.text value))
  | .bool id value => nodeData id (.tagged "Bool" (.bool value))
  | .member id object property =>
    nodeData id (.tagged "Member"
      (.record [("object", object.data), ("property", .text property)]))
  | .element id object index =>
    nodeData id (.tagged "Element" (.record [("object", object.data), ("index", index.data)]))
  | .binary id lhs op rhs =>
    nodeData id (.tagged "Binary" (.list [lhs.data, op.data, rhs.data]))
  | .unary id op operand => nodeData id (.tagged "Prefix" (.list [op.data, operand.data]))
  | .increment id operand =>
    nodeData id (.tagged "Postfix" (.list [operand.data, .symbol "Increment"]))
  | .assign id target op value =>
    nodeData id (.tagged "Assign" (.list [target.data, op.data, value.data]))
  | .spread id value => nodeData id (.tagged "Spread" value.data)
  | .array id elements => nodeData id (.tagged "Array" (.list (exprData elements)))
  | .object id properties => nodeData id (.tagged "Object" (.list (propertyData properties)))
  | .call id callee args =>
    nodeData id (.tagged "Call"
      (.record [("callee", callee.data), ("args", .list (exprData args))]))
  | .function id func => nodeData id (.tagged "Function" func.data)

/-- Expressions as data. -/
def exprData : List Expr → List Data
  | [] => []
  | e :: es => e.data :: exprData es

/-- Properties as data. -/
def propertyData : List Property → List Data
  | [] => []
  | .named key value :: ps =>
    .record [("key", .tagged "Ident" (.text key)), ("value", value.data)] :: propertyData ps
  | .computed key value :: ps =>
    .record [("key", .tagged "Computed" key.data), ("value", value.data)] :: propertyData ps

/-- A function as data. -/
def Function.data : Function → Data
  | .mk params returnType body =>
    .record [("params", .list (params.map Param.data)), ("return_type", tyData returnType),
      ("body", .list (outline body))]

/-- A declaration as data. -/
def VarDecl.data : VarDecl → Data
  | .mk kind binding ty init =>
    .record [("kind", kind.data), ("binding", binding.data), ("ty", tyData ty),
      ("init", match init with
        | none => .null
        | some e => e.data)]

/-- Methods as data. -/
def methodData : List Method → List Data
  | [] => []
  | .mk id name isStatic func :: ms =>
    nodeData id (.record [("name", .text name), ("is_static", .bool isStatic),
      ("func", func.data)]) :: methodData ms

/-- What follows the block of an `if` as data. -/
def Else.data : Else → Data
  | .none => .null
  | .elseIf s => .tagged "If" s.data
  | .block body => .tagged "Block" (.list (outline body))

/-- A statement as data. -/
def Stmt.data : Stmt → Data
  | .var id decl => nodeData id (.tagged "Var" decl.data)
  | .functionDecl id name exported func =>
    nodeData id (.tagged "Function"
      (.record [("name", .text name), ("exported", .bool exported), ("func", func.data)]))
  | .classDecl id name methods =>
    nodeData id (.tagged "Class"
      (.record [("name", .text name), ("methods", .list (methodData methods))]))
  | .expr id e => nodeData id (.tagged "Expr" e.data)
  | .returnStmt id none => nodeData id (.tagged "Return" .null)
  | .returnStmt id (some e) => nodeData id (.tagged "Return" e.data)
  | .exportAssign id e => nodeData id (.tagged "ExportAssign" e.data)
  | .ifStmt id cond thenBlock elseBranch =>
    nodeData id (.tagged "If" (.record [("cond", cond.data),
      ("then_block", .list (outline thenBlock)), ("else_branch", elseBranch.data)]))
  | .forLoop id init test update body =>
    nodeData id (.tagged "For" (.record [("init", init.data), ("test", test.data),
      ("update", update.data), ("body", .list (outline body))]))
  | .forOf id binding iterable body =>
    nodeData id (.tagged "ForOf" (.record [("binding", binding.data),
      ("iterable", iterable.data), ("body", .list (outline body))]))
  | .whileLoop id cond body =>
    nodeData id (.tagged "While"
      (.record [("cond", cond.data), ("body", .list (outline body))]))
  | .breakStmt id => nodeData id (.symbol "Break")

/-- Statements as data, in order. -/
def outline : List Stmt → List Data
  | [] => []
  | s :: ss => s.data :: outline ss

end

end Target

end LuaTranspiler
