import LuaTranspiler.Source.Cursor
import LuaTranspiler.Source.Literal
import LuaTranspiler.Source.Tree

/-!
# Reading expressions

Operators bind by priority: an operator is taken into the expression on its left when its left
priority exceeds a limit, and its right priority is the limit for its right operand.

Expressions contain blocks and other expressions, always behind a token of their own. The readers
here take those for the parts as a `Grammar`, which is tied into a knot elsewhere.

* `Grammar`: readers of the expressions and blocks inside
* `Grammar.subexpr`: an expression whose operators bind tighter than a limit
* `Grammar.suffixed`: a name or parenthesis with its members, indices and calls
-/

namespace LuaTranspiler.Source

open LuaTranspiler.Parser

/-- An operator between two operands. -/
inductive InfixOp where
  | binary (op : BinaryOp)
  | logical (op : LogicalOp)
deriving DecidableEq

namespace InfixOp

/-- The left and right priority of an operator. One that groups to the right binds less tightly on
its right. -/
def priority : InfixOp → Nat × Nat
  | logical .or => (1, 1)
  | logical .and => (2, 2)
  | binary .less | binary .lessEq | binary .greater | binary .greaterEq | binary .eq
  | binary .notEq => (3, 3)
  | binary .bitOr => (4, 4)
  | binary .bitXor => (5, 5)
  | binary .bitAnd => (6, 6)
  | binary .shiftLeft | binary .shiftRight => (7, 7)
  | binary .concat => (9, 8)
  | binary .add | binary .sub => (10, 10)
  | binary .mul | binary .div | binary .floorDiv | binary .mod => (11, 11)
  | binary .pow => (14, 13)

/-- The expression of an operator and its operands, from the start of the one to the end of the
other. -/
def apply (op : InfixOp) (lhs rhs : Expr) : Expr :=
  match op with
  | binary op => .binary lhs op rhs (lhs.span.through rhs.span)
  | logical op => .logical lhs op rhs (lhs.span.through rhs.span)

end InfixOp

/-- The priority limit for the operand of a unary operator. -/
def unaryPriority : Nat := 12

/-- The unary operator of a token. -/
def unaryOp? : TokenKind → Option UnaryOp
  | .minus => some .neg
  | .kwNot => some .not
  | .hash => some .len
  | .tilde => some .bitNot
  | _ => none

/-- The binary or logical operator of a token. -/
def infixOp? : TokenKind → Option InfixOp
  | .plus => some (.binary .add)
  | .minus => some (.binary .sub)
  | .star => some (.binary .mul)
  | .slash => some (.binary .div)
  | .doubleSlash => some (.binary .floorDiv)
  | .percent => some (.binary .mod)
  | .caret => some (.binary .pow)
  | .doubleDot => some (.binary .concat)
  | .doubleEqual => some (.binary .eq)
  | .tildeEqual => some (.binary .notEq)
  | .less => some (.binary .less)
  | .lessEqual => some (.binary .lessEq)
  | .greater => some (.binary .greater)
  | .greaterEqual => some (.binary .greaterEq)
  | .ampersand => some (.binary .bitAnd)
  | .pipe => some (.binary .bitOr)
  | .tilde => some (.binary .bitXor)
  | .shiftLeft => some (.binary .shiftLeft)
  | .shiftRight => some (.binary .shiftRight)
  | .kwAnd => some (.logical .and)
  | .kwOr => some (.logical .or)
  | _ => none

/-- The value of a string token of either kind. -/
def stringValue (t : Token) : Except SyntaxError String :=
  if t.kind = .longString then .ok (longStringValue t.literal)
  else match t.quoted? with
    | some s => .ok s
    | none => .error (.invalidEscape t.span)

/-- The literal that a token is, if it is one. -/
def literal? (t : Token) : Except SyntaxError (Option Literal) :=
  match t.kind with
  | .number | .hexNumber =>
    match t.number? with
    | some n => .ok (some (.number n))
    | none => .error (.malformedNumber t.literal t.span)
  | .string | .longString =>
    match stringValue t with
    | .ok s => .ok (some (.string s))
    | .error e => .error e
  | .kwNil => .ok (some .nil)
  | .kwTrue => .ok (some (.bool true))
  | .kwFalse => .ok (some (.bool false))
  | .ellipsis => .ok (some .vararg)
  | _ => .ok none

/-- Reads a name. -/
def name : Parser Name := do
  let t ← expect .name
  return ⟨t.literal, t.span⟩

/-- A parameter and the comma behind it, or none at the closing parenthesis. The variable arguments
come last; a comma may stand behind the last name. -/
def param? : Parser (Option Param) := do
  if ← check .rightParen then return none
  match ← eat .ellipsis with
  | some t =>
    require .rightParen
    return some (.vararg t.span)
  | none =>
    let n ← name
    if (← eat .comma).isNone then require .rightParen
    return some (.named n.text n.span)

/-- Readers of the expressions above a priority limit and of the blocks that open at an offset. -/
structure Grammar where
  expr : Nat → Parser Expr
  block : Nat → Parser Block

namespace Grammar

variable (g : Grammar)

/-- One or more expressions. -/
def exprList : Parser (List Expr) := commaList (g.expr 0)

/-- The parameters and the body of a function. -/
def functionBody : Parser Function := do
  let _ ← expect .leftParen
  let params ← many param?
  let close ← expect .rightParen
  let body ← g.block close.span.stop
  let _ ← expect .kwEnd
  return .mk params body

/-- A field of a table. -/
def field : Parser Field := do
  let next ← peekNth? 1
  match ← peek? with
  | none => throw .unexpectedEnd
  | some t =>
    if t.kind = .leftBracket then
      let _ ← advance
      let key ← g.expr 0
      let _ ← expect .rightBracket
      let _ ← expect .equal
      let value ← g.expr 0
      return .keyed key value (← finish t.span)
    else if t.kind = .name ∧ next = some .equal then
      let key ← name
      let _ ← expect .equal
      let value ← g.expr 0
      return .named key value (← finish t.span)
    else
      let value ← g.expr 0
      return .positional value (← finish t.span)

/-- A field and the separator behind it, or none at the closing brace. -/
def field? : Parser (Option Field) := do
  if ← check .rightBrace then return none
  let f ← g.field
  if (← eat .comma).isNone then
    if (← eat .semicolon).isNone then require .rightBrace
  return some f

/-- A table constructor. -/
def table : Parser Expr := do
  let opening ← expect .leftBrace
  let fields ← many g.field?
  let _ ← expect .rightBrace
  return .table fields (← finish opening.span)

/-- The arguments of a call, and the call of `base` with them. -/
def callArgs (base : Expr) : Parser Expr := do
  match ← peek? with
  | none => throw .unexpectedEnd
  | some t =>
    match t.kind with
    | .leftParen =>
      let _ ← advance
      let args ← if ← check .rightParen then pure [] else g.exprList
      let _ ← expect .rightParen
      return .call base args (← finish base.span)
    | .string | .longString =>
      let s ← ofExcept (stringValue t)
      let _ ← advance
      return .stringCall base (.literal (.string s) t.span) (← finish base.span)
    | .leftBrace =>
      let argument ← g.table
      return .tableCall base argument (← finish base.span)
    | _ => unexpected [.leftParen, .string, .leftBrace]

/-- A name, or an expression in parentheses, whose span they belong to. -/
def primary : Parser Expr := do
  match ← peek? with
  | none => throw .unexpectedEnd
  | some t =>
    match t.kind with
    | .name =>
      let _ ← advance
      return .ident t.literal t.span
    | .leftParen =>
      let _ ← advance
      let e ← g.expr 0
      let _ ← expect .rightParen
      return e.withSpan (← finish t.span)
    | found => throw (.expectedExpression found t.span)

/-- One more member, index, method call or call behind `base`. -/
def suffix? (base : Expr) : Parser (Option Expr) := do
  match ← peekKind? with
  | some .dot =>
    let _ ← advance
    let n ← name
    return some (.member base .dot n (← finish base.span))
  | some .leftBracket =>
    let _ ← advance
    let i ← g.expr 0
    let _ ← expect .rightBracket
    return some (.index base i (← finish base.span))
  | some .colon =>
    let _ ← advance
    let n ← name
    return some (← g.callArgs (.member base .colon n (← finish base.span)))
  | some .leftParen | some .string | some .longString | some .leftBrace =>
    return some (← g.callArgs base)
  | _ => return none

/-- A primary expression with all its suffixes. -/
def suffixed : Parser Expr := do iterate g.suffix? (← g.primary)

/-- An expression without operators. -/
def simple : Parser Expr := do
  match ← peek? with
  | none => throw .unexpectedEnd
  | some t =>
    match ← ofExcept (literal? t) with
    | some value =>
      let _ ← advance
      return .literal value t.span
    | none =>
      match t.kind with
      | .leftBrace => g.table
      | .kwFunction =>
        let _ ← advance
        let f ← g.functionBody
        return .function f (← finish t.span)
      | _ => g.suffixed

/-- A simple expression, or a unary operator and its operand. -/
def operand : Parser Expr := do
  match ← peek? with
  | none => throw .unexpectedEnd
  | some t =>
    match unaryOp? t.kind with
    | some op =>
      let _ ← advance
      let e ← g.expr unaryPriority
      return .unary op e (t.span.through e.span)
    | none => g.simple

/-- One more operator above the limit, and its right operand, behind `lhs`. -/
def extend? (limit : Nat) (lhs : Expr) : Parser (Option Expr) := do
  match (← peekKind?).bind infixOp? with
  | none => return none
  | some op =>
    if op.priority.1 ≤ limit then return none
    let _ ← advance
    let rhs ← g.expr op.priority.2
    return some (op.apply lhs rhs)

/-- An expression whose operators all bind tighter than the limit. -/
def subexpr (limit : Nat) : Parser Expr := do iterate (g.extend? limit) (← g.operand)

end Grammar

end LuaTranspiler.Source
