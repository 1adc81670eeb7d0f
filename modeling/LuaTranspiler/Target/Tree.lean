import LuaTranspiler.Number.Binary64
import LuaTranspiler.Target.Ty

/-!
# TypeScript trees

Every expression, statement and method has a number, its id, by which its place in the source can be
looked up.

* `Target.Expr`, `Target.Property`, `Target.Function`: expressions
* `Target.Stmt`, `Target.VarDecl`, `Target.Method`, `Target.Else`: statements
-/

namespace LuaTranspiler.Target

/-- Operators between two operands. -/
inductive BinaryOp where
  | add | sub | mul | div | mod | pow | strictEq | strictNotEq | less | lessEq | greater
  | greaterEq | and | or
deriving DecidableEq

/-- How an operator is written. -/
def BinaryOp.text : BinaryOp → String
  | add => "+"
  | sub => "-"
  | mul => "*"
  | div => "/"
  | mod => "%"
  | pow => "**"
  | strictEq => "==="
  | strictNotEq => "!=="
  | less => "<"
  | lessEq => "<="
  | greater => ">"
  | greaterEq => ">="
  | and => "&&"
  | or => "||"

/-- Operators before their operand. -/
inductive UnaryOp where
  | neg | not | bitNot
deriving DecidableEq

/-- How an operator is written. -/
def UnaryOp.text : UnaryOp → String
  | neg => "-"
  | not => "!"
  | bitNot => "~"

/-- Assignments. -/
inductive AssignOp where
  | assign | addAssign
deriving DecidableEq

/-- How an assignment is written. -/
def AssignOp.text : AssignOp → String
  | assign => "="
  | addAssign => "+="

/-- A parameter; `rest` takes all remaining arguments. -/
structure Param where
  name : String
  rest : Bool
  ty : Option Ty
deriving DecidableEq

/-- The names that a declaration binds: one, or those of the elements of an array. -/
inductive Binding where
  | ident (name : String)
  | array (names : List String)
deriving DecidableEq

/-- Whether a variable can be assigned to. -/
inductive VarKind where
  | let | const
deriving DecidableEq

mutual

/-- Expressions. -/
inductive Expr where
  | ident (id : Nat) (name : String)
  | number (id : Nat) (value : Binary64)
  | string (id : Nat) (value : String)
  | bool (id : Nat) (value : Bool)
  | member (id : Nat) (object : Expr) (property : String)
  | element (id : Nat) (object index : Expr)
  | binary (id : Nat) (lhs : Expr) (op : BinaryOp) (rhs : Expr)
  | unary (id : Nat) (op : UnaryOp) (operand : Expr)
  | increment (id : Nat) (operand : Expr)
  | assign (id : Nat) (target : Expr) (op : AssignOp) (value : Expr)
  | spread (id : Nat) (value : Expr)
  | array (id : Nat) (elements : List Expr)
  | object (id : Nat) (properties : List Property)
  | call (id : Nat) (callee : Expr) (args : List Expr)
  | function (id : Nat) (func : Function)

/-- A property of an object, under a name or under a computed key. -/
inductive Property where
  | named (key : String) (value : Expr)
  | computed (key value : Expr)

/-- Parameters, return type and body of a function. -/
inductive Function where
  | mk (params : List Param) (returnType : Option Ty) (body : List Stmt)

/-- A declaration of variables. -/
inductive VarDecl where
  | mk (kind : VarKind) (binding : Binding) (ty : Option Ty) (init : Option Expr)

/-- A method of a class. -/
inductive Method where
  | mk (id : Nat) (name : String) (isStatic : Bool) (func : Function)

/-- What follows the block of an `if`. -/
inductive Else where
  | none
  | elseIf (stmt : Stmt)
  | block (body : List Stmt)

/-- Statements. -/
inductive Stmt where
  | var (id : Nat) (decl : VarDecl)
  | functionDecl (id : Nat) (name : String) (exported : Bool) (func : Function)
  | classDecl (id : Nat) (name : String) (methods : List Method)
  | expr (id : Nat) (e : Expr)
  | returnStmt (id : Nat) (value : Option Expr)
  | exportAssign (id : Nat) (value : Expr)
  | ifStmt (id : Nat) (cond : Expr) (thenBlock : List Stmt) (elseBranch : Else)
  | forLoop (id : Nat) (init : VarDecl) (test update : Expr) (body : List Stmt)
  | forOf (id : Nat) (binding : Binding) (iterable : Expr) (body : List Stmt)
  | whileLoop (id : Nat) (cond : Expr) (body : List Stmt)
  | breakStmt (id : Nat)

end

/-- The id of an expression. -/
def Expr.id : Expr → Nat
  | ident id _ | number id _ | string id _ | bool id _ | member id _ _ | element id _ _
  | binary id _ _ _ | unary id _ _ | increment id _ | assign id _ _ _ | spread id _ | array id _
  | object id _ | call id _ _ | function id _ => id

/-- The id of a statement. -/
def Stmt.id : Stmt → Nat
  | var id _ | functionDecl id _ _ _ | classDecl id _ _ | expr id _ | returnStmt id _
  | exportAssign id _ | ifStmt id _ _ _ | forLoop id _ _ _ _ | forOf id _ _ _ | whileLoop id _ _
  | breakStmt id => id

end LuaTranspiler.Target
