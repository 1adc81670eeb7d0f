import LuaTranspiler.Number.Numeral
import LuaTranspiler.Target.Listing
import LuaTranspiler.Target.Tree
import LuaTranspiler.Text.Quoted

/-!
# Printing TypeScript trees

Statements stand on lines of their own, indented by their depth. An expression is put in parentheses
where its precedence is below what its place asks for.

* `Expr.precedence`: how tightly an expression binds
* `Expr.pieces`, `Stmt.pieces`: expressions and statements as pieces
-/

namespace LuaTranspiler.Target

open Piece

/-! ### Precedence -/

/-- The precedence of assignments, the least that an expression has. -/
def assignPrecedence : Nat := 2

/-- The precedence of operators before their operand. -/
def unaryPrecedence : Nat := 15

/-- The precedence of operators behind their operand. -/
def postPrecedence : Nat := 16

/-- The precedence of members, elements and calls. -/
def memberPrecedence : Nat := 18

/-- The precedence of expressions that need no parentheses anywhere. -/
def primaryPrecedence : Nat := 20

/-- The precedence of a binary operator. -/
def BinaryOp.precedence : BinaryOp → Nat
  | or => 4
  | and => 5
  | strictEq | strictNotEq => 9
  | less | lessEq | greater | greaterEq => 10
  | add | sub => 12
  | mul | div | mod => 13
  | pow => 14

/-- The least precedence of a left operand without parentheses. -/
def BinaryOp.leftPrecedence (op : BinaryOp) : Nat :=
  if op = .pow then op.precedence + 1 else op.precedence

/-- The least precedence of a right operand without parentheses. -/
def BinaryOp.rightPrecedence (op : BinaryOp) : Nat :=
  if op = .pow then op.precedence else op.precedence + 1

namespace Expr

/-- How tightly an expression binds. -/
def precedence : Expr → Nat
  | assign .. | function .. => assignPrecedence
  | binary _ _ op _ => op.precedence
  | unary .. => unaryPrecedence
  | increment .. => postPrecedence
  | call .. | member .. | element .. => memberPrecedence
  | ident .. | number .. | string .. | bool .. | array .. | object .. | spread .. =>
    primaryPrecedence

/-- Whether the expression is an operator before its operand. -/
def isUnary : Expr → Bool
  | unary .. => true
  | _ => false

/-- Whether the expression is a negation. -/
def isNeg : Expr → Bool
  | unary _ .neg _ => true
  | _ => false

/-- Whether the expression starts with a brace or a keyword when printed bare. -/
def isBraced : Expr → Bool
  | object .. | function .. => true
  | _ => false

/-- The pieces of `e` where a precedence of `least` is asked for. -/
def guarded (least : Nat) (e : Expr) (ps : List Piece) : List Piece :=
  if e.precedence < least then parens ps else ps

/-- The pieces of `e` where a member is taken of it or it is called. -/
def asObject (e : Expr) (ps : List Piece) : List Piece :=
  if e.isBraced then parens ps else guarded memberPrecedence e ps

/-- The pieces of `e` as the left operand of an operator. The left operand of a power may not be an
operator before its operand. -/
def asLeft (op : BinaryOp) (e : Expr) (ps : List Piece) : List Piece :=
  if op = .pow && e.isUnary then parens ps else guarded op.leftPrecedence e ps

/-- The blank that keeps two minus signs apart. -/
def signGap (op : UnaryOp) (e : Expr) : List Piece := if op = .neg && e.isNeg then [space] else []

end Expr

/-! ### Parts without expressions -/

/-- A type behind its colon. -/
def tyPieces : Option Ty → List Piece
  | none => []
  | some ty => [token ":", space, token ty.text]

/-- The type of a parameter behind its colon. That of one that takes all remaining arguments is the
type of their array. -/
def Param.tyPieces (p : Param) : List Piece :=
  match p.ty, p.rest with
  | none, _ => []
  | some (.union ts), true =>
    [token ":", space, token "(", token (Ty.union ts).text, token ")", token "[", token "]"]
  | some ty, true => [token ":", space, token ty.text, token "[", token "]"]
  | some ty, false => [token ":", space, token ty.text]

/-- A parameter. -/
def Param.pieces (p : Param) : List Piece :=
  (if p.rest then [token "..."] else []) ++ token p.name :: p.tyPieces

/-- The names of a declaration. -/
def Binding.pieces : Binding → List Piece
  | ident name => [token name]
  | array names => brackets (commaSeparated (names.map fun n => [token n]))

/-- The keyword of a declaration. -/
def VarKind.text : VarKind → String
  | .let => "let"
  | .const => "const"

/-- Lines as a block behind its header, up to its closing brace. -/
def blockPieces (n : Nat) (lines : List Piece) : List Piece :=
  space :: token "\x7b" :: newline :: (lines ++ [indent n, token "\x7d"])

/-! ### Expressions and statements -/

mutual

/-- An expression on a line of indentation level `n`. -/
def Expr.pieces (n : Nat) : Expr → List Piece
  | .ident _ name => [token name]
  | .number _ value => [token value.numeral]
  | .string _ value => [token (Text.quote value)]
  | .bool _ value => [token (if value then "true" else "false")]
  | .member _ object property =>
    object.asObject (object.pieces n) ++ [token ".", token property]
  | .element _ object index =>
    object.asObject (object.pieces n) ++
      brackets (index.guarded assignPrecedence (index.pieces n))
  | .binary _ lhs op rhs =>
    lhs.asLeft op (lhs.pieces n) ++ space :: token op.text :: space ::
      rhs.guarded op.rightPrecedence (rhs.pieces n)
  | .unary _ op operand =>
    token op.text :: (operand.signGap op ++ operand.guarded unaryPrecedence (operand.pieces n))
  | .increment _ operand => operand.guarded postPrecedence (operand.pieces n) ++ [token "++"]
  | .assign _ target op value =>
    target.guarded (assignPrecedence + 1) (target.pieces n) ++ space :: token op.text :: space ::
      value.guarded assignPrecedence (value.pieces n)
  | .spread _ value => token "..." :: value.guarded assignPrecedence (value.pieces n)
  | .array _ elements => brackets (commaSeparated (exprPieces n elements))
  | .object _ [] => [token "\x7b", token "\x7d"]
  | .object _ (p :: ps) =>
    token "\x7b" :: space :: (commaSeparated (propertyPieces n (p :: ps)) ++
      [space, token "\x7d"])
  | .call _ callee args =>
    callee.asObject (callee.pieces n) ++ parens (commaSeparated (exprPieces n args))
  | .function _ func => token "function" :: space :: func.pieces n

/-- The expressions of a list, each where an assignment may stand. -/
def exprPieces (n : Nat) : List Expr → List (List Piece)
  | [] => []
  | e :: es => e.guarded assignPrecedence (e.pieces n) :: exprPieces n es

/-- The properties of an object. -/
def propertyPieces (n : Nat) : List Property → List (List Piece)
  | [] => []
  | .named key value :: ps =>
    (token key :: token ":" :: space :: value.guarded assignPrecedence (value.pieces n)) ::
      propertyPieces n ps
  | .computed key value :: ps =>
    (brackets (key.guarded assignPrecedence (key.pieces n)) ++
      token ":" :: space :: value.guarded assignPrecedence (value.pieces n)) ::
      propertyPieces n ps

/-- The parameters, the return type and the body of a function. -/
def Function.pieces (n : Nat) : Function → List Piece
  | .mk params returnType body =>
    parens (commaSeparated (params.map Param.pieces)) ++ tyPieces returnType ++
      blockPieces n (linePieces (n + 1) body)

/-- Statements on lines of their own. -/
def linePieces (n : Nat) : List Stmt → List Piece
  | [] => []
  | s :: ss => mark s.id :: indent n :: (s.pieces n ++ newline :: linePieces n ss)

/-- A declaration of variables, without its semicolon. -/
def VarDecl.pieces (n : Nat) : VarDecl → List Piece
  | .mk kind binding ty init =>
    token kind.text :: space :: (binding.pieces ++ tyPieces ty ++
      match init with
      | none => []
      | some e =>
        space :: token "=" :: space :: e.guarded assignPrecedence (e.pieces n))

/-- The methods of a class on lines of their own. -/
def methodPieces (n : Nat) : List Method → List Piece
  | [] => []
  | .mk id name isStatic func :: ms =>
    mark id :: indent n :: ((if isStatic then [token "static", space] else []) ++
      token name :: (func.pieces n ++ newline :: methodPieces n ms))

/-- What follows the block of an `if`, on the line of its closing brace. -/
def Else.pieces (n : Nat) : Else → List Piece
  | .none => []
  | .elseIf s => space :: token "else" :: space :: mark s.id :: s.pieces n
  | .block body => space :: token "else" :: blockPieces n (linePieces (n + 1) body)

/-- A statement without its line. -/
def Stmt.pieces (n : Nat) : Stmt → List Piece
  | .var _ decl => decl.pieces n ++ [token ";"]
  | .functionDecl _ name exported func =>
    (if exported then [token "export", space] else []) ++
      token "function" :: space :: token name :: func.pieces n
  | .classDecl _ name methods =>
    token "class" :: space :: token name :: blockPieces n (methodPieces (n + 1) methods)
  | .expr _ e => e.guarded assignPrecedence (e.pieces n) ++ [token ";"]
  | .returnStmt _ none => [token "return", token ";"]
  | .returnStmt _ (some e) =>
    token "return" :: space :: (e.guarded assignPrecedence (e.pieces n) ++ [token ";"])
  | .exportAssign _ e =>
    token "export" :: space :: token "=" :: space ::
      (e.guarded assignPrecedence (e.pieces n) ++ [token ";"])
  | .ifStmt _ cond thenBlock elseBranch =>
    token "if" :: space :: (parens (cond.guarded assignPrecedence (cond.pieces n)) ++
      blockPieces n (linePieces (n + 1) thenBlock) ++ elseBranch.pieces n)
  | .forLoop _ init test update body =>
    token "for" :: space :: (parens (init.pieces n ++ token ";" :: space ::
      (test.guarded assignPrecedence (test.pieces n) ++ token ";" :: space ::
        update.guarded assignPrecedence (update.pieces n))) ++
      blockPieces n (linePieces (n + 1) body))
  | .forOf _ binding iterable body =>
    token "for" :: space :: (parens (token "const" :: space :: (binding.pieces ++
      space :: token "of" :: space :: iterable.guarded assignPrecedence (iterable.pieces n))) ++
      blockPieces n (linePieces (n + 1) body))
  | .whileLoop _ cond body =>
    token "while" :: space :: (parens (cond.guarded assignPrecedence (cond.pieces n)) ++
      blockPieces n (linePieces (n + 1) body))
  | .breakStmt _ => [token "break", token ";"]

end

end LuaTranspiler.Target
