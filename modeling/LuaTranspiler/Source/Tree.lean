import LuaTranspiler.Span
import LuaTranspiler.Number.Binary64

/-!
# Lua trees

The tree of a Lua source. Every expression, field, parameter and statement has the span that it was
read from, and every block the offset at which it opens.

* `Source.Expr`, `Source.Field`, `Source.Function`: expressions
* `Source.Stmt`, `Source.Clause`, `Source.Block`: statements
* `Source.Comment`, `Source.Chunk`: a whole source
-/

namespace LuaTranspiler.Source

/-- Operators with one operand. -/
inductive UnaryOp where
  | neg | not | len | bitNot
deriving DecidableEq

/-- Operators that evaluate both operands. -/
inductive BinaryOp where
  | add | sub | mul | div | floorDiv | mod | pow | concat | eq | notEq | less | lessEq | greater
  | greaterEq | bitAnd | bitOr | bitXor | shiftLeft | shiftRight
deriving DecidableEq

/-- Operators that may leave their second operand unevaluated. -/
inductive LogicalOp where
  | and | or
deriving DecidableEq

/-- How an operator is written. -/
def BinaryOp.text : BinaryOp → String
  | add => "+"
  | sub => "-"
  | mul => "*"
  | div => "/"
  | floorDiv => "//"
  | mod => "%"
  | pow => "^"
  | concat => ".."
  | eq => "=="
  | notEq => "~="
  | less => "<"
  | lessEq => "<="
  | greater => ">"
  | greaterEq => ">="
  | bitAnd => "&"
  | bitOr => "|"
  | bitXor => "~"
  | shiftLeft => "<<"
  | shiftRight => ">>"

/-- Expressions of a single token other than a name. -/
inductive Literal where
  | number (value : Binary64)
  | string (value : String)
  | bool (value : Bool)
  | nil
  | vararg
deriving DecidableEq

/-- The mark before a member: `a.b` or `a:b`. -/
inductive Indexer where
  | dot | colon
deriving DecidableEq

/-- A name where it is written. -/
structure Name where
  text : String
  span : Span
deriving DecidableEq

/-- A parameter of a function. -/
inductive Param where
  | named (name : String) (span : Span)
  | vararg (span : Span)
deriving DecidableEq

namespace Param

/-- The name by which doc tags speak of a parameter. -/
def tagName : Param → String
  | named name _ => name
  | vararg _ => "..."

/-- Whether the parameter takes all remaining arguments. -/
def isVararg : Param → Bool
  | named _ _ => false
  | vararg _ => true

/-- Where a parameter is written. -/
def span : Param → Span
  | named _ span => span
  | vararg span => span

end Param

mutual

/-- Expressions. -/
inductive Expr where
  | ident (name : String) (span : Span)
  | literal (value : Literal) (span : Span)
  | member (base : Expr) (indexer : Indexer) (name : Name) (span : Span)
  | index (base index : Expr) (span : Span)
  | unary (op : UnaryOp) (operand : Expr) (span : Span)
  | binary (lhs : Expr) (op : BinaryOp) (rhs : Expr) (span : Span)
  | logical (lhs : Expr) (op : LogicalOp) (rhs : Expr) (span : Span)
  | table (fields : List Field) (span : Span)
  /-- A call with its arguments in parentheses. -/
  | call (base : Expr) (args : List Expr) (span : Span)
  /-- A call with one string as its argument. -/
  | stringCall (base argument : Expr) (span : Span)
  /-- A call with one table as its argument. -/
  | tableCall (base argument : Expr) (span : Span)
  | function (func : Function) (span : Span)

/-- Fields of a table. -/
inductive Field where
  /-- A field `[key] = value`. -/
  | keyed (key value : Expr) (span : Span)
  /-- A field `key = value`. -/
  | named (key : Name) (value : Expr) (span : Span)
  | positional (value : Expr) (span : Span)

/-- The parameters and the body of a function. -/
inductive Function where
  | mk (params : List Param) (body : Block)

/-- Statements, and the offset behind the token that opens the block. -/
inductive Block where
  | mk (start : Nat) (stmts : List Stmt)

/-- A condition and a block, as behind `elseif`. -/
inductive Clause where
  | mk (cond : Expr) (block : Block)

/-- Statements. -/
inductive Stmt where
  | localDecl (names : List Name) (init : List Expr) (span : Span)
  | assign (targets init : List Expr) (span : Span)
  | call (call : Expr) (span : Span)
  | functionDecl (name : Expr) (isLocal : Bool) (func : Function) (span : Span)
  | returnStmt (values : List Expr) (span : Span)
  | ifStmt (cond : Expr) (thenBlock : Block) (clauses : List Clause) (elseBlock : Option Block)
      (span : Span)
  | whileLoop (cond : Expr) (block : Block) (span : Span)
  | forNumeric (var : Name) (start stop : Expr) (step : Option Expr) (block : Block) (span : Span)
  | forGeneric (vars : List Name) (iterators : List Expr) (block : Block) (span : Span)
  | breakStmt (span : Span)
  | repeatLoop (block : Block) (cond : Expr) (span : Span)
  | doBlock (block : Block) (span : Span)
  | goto (label : String) (span : Span)
  | label (name : String) (span : Span)

end

namespace Expr

/-- Where an expression is written. -/
def span : Expr → Span
  | ident _ span | literal _ span | member _ _ _ span | index _ _ span | unary _ _ span
  | binary _ _ _ span | logical _ _ _ span | table _ span | call _ _ span | stringCall _ _ span
  | tableCall _ _ span | function _ span => span

/-- The same expression at another place. -/
def withSpan (span : Span) : Expr → Expr
  | ident name _ => ident name span
  | literal value _ => literal value span
  | member base indexer name _ => member base indexer name span
  | index base i _ => index base i span
  | unary op operand _ => unary op operand span
  | binary lhs op rhs _ => binary lhs op rhs span
  | logical lhs op rhs _ => logical lhs op rhs span
  | table fields _ => table fields span
  | call base args _ => call base args span
  | stringCall base argument _ => stringCall base argument span
  | tableCall base argument _ => tableCall base argument span
  | function func _ => function func span

@[simp] theorem span_withSpan (span : Span) (e : Expr) : (e.withSpan span).span = span := by
  cases e <;> rfl

/-- Whether the expression is a call. -/
def isCall : Expr → Bool
  | call .. | stringCall .. | tableCall .. => true
  | _ => false

/-- Whether a value can be assigned to the expression. -/
def isAssignable : Expr → Bool
  | ident .. | member .. | index .. => true
  | _ => false

/-- Whether the expression is a member of something. -/
def isMember : Expr → Bool
  | member .. => true
  | _ => false

/-- Whether the expression is a member of a member. -/
def isNestedMember : Expr → Bool
  | member base .. => base.isMember
  | _ => false

end Expr

namespace Field

/-- Where a field is written. -/
def span : Field → Span
  | keyed _ _ span | named _ _ span | positional _ span => span

/-- Whether the field has no key. -/
def isPositional : Field → Bool
  | positional .. => true
  | _ => false

end Field

namespace Function

/-- The parameters of a function. -/
def params : Function → List Param
  | mk params _ => params

/-- The body of a function. -/
def body : Function → Block
  | mk _ body => body

end Function

namespace Block

/-- The offset at which a block opens. -/
def start : Block → Nat
  | mk start _ => start

/-- The statements of a block. -/
def stmts : Block → List Stmt
  | mk _ stmts => stmts

end Block

namespace Stmt

/-- Where a statement is written. -/
def span : Stmt → Span
  | localDecl _ _ span | assign _ _ span | call _ span | functionDecl _ _ _ span
  | returnStmt _ span | ifStmt _ _ _ _ span | whileLoop _ _ span | forNumeric _ _ _ _ _ span
  | forGeneric _ _ _ span | breakStmt span | repeatLoop _ _ span | doBlock _ span | goto _ span
  | label _ span => span

/-- The name under which messages speak of a kind of statement. -/
def kindName : Stmt → String
  | localDecl .. => "LocalStatement"
  | assign .. => "AssignmentStatement"
  | call .. => "CallStatement"
  | functionDecl .. => "FunctionDeclaration"
  | returnStmt .. => "ReturnStatement"
  | ifStmt .. => "IfStatement"
  | whileLoop .. => "WhileStatement"
  | forNumeric .. => "ForNumericStatement"
  | forGeneric .. => "ForGenericStatement"
  | breakStmt .. => "BreakStatement"
  | repeatLoop .. => "RepeatStatement"
  | doBlock .. => "DoStatement"
  | goto .. => "GotoStatement"
  | label .. => "LabelStatement"

/-- Whether the statement is a `local` declaration of variables. -/
def isLocalDecl : Stmt → Bool
  | localDecl .. => true
  | _ => false

/-- Whether the statement declares a function under a member path. -/
def isMemberDecl : Stmt → Bool
  | functionDecl name .. => name.isMember
  | _ => false

/-- Whether that path has two or more steps. -/
def isNestedMemberDecl : Stmt → Bool
  | functionDecl name .. => name.isNestedMember
  | _ => false

end Stmt

/-- A comment: its text without marks, its text as written and its place. -/
structure Comment where
  value : String
  raw : String
  span : Span
deriving DecidableEq

/-- A whole source: its statements and, apart from them, its comments in order. -/
structure Chunk where
  body : Block
  comments : List Comment

end LuaTranspiler.Source
