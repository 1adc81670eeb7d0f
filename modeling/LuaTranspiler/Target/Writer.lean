import LuaTranspiler.Target.Printer

/-!
# Writing TypeScript trees

A tree is written by a sequence of actions on a writer, which holds the text written so far, the
number of the line that it is on, the blanks that its lines start with and the line map. The pieces
of a tree say without a state what is written, as `print_eq_ofPieces` shows.

* `Action`: what a writer does
* `Writer`, `Writer.step`, `Writer.run`: its state, and how actions change it
* `Expr.actions`, `Stmt.actions`: the actions that write expressions and statements
* `print`: the listing of statements
-/

namespace LuaTranspiler.Target

open Piece

/-! ### The writer -/

/-- What a writer does. -/
inductive Action where
  | emit (text : String)
  /-- Writes the indentation. -/
  | startLine
  | endLine
  | increaseIndent
  | decreaseIndent
  /-- Notes that the node with this id is written on this line. -/
  | map (id : Nat)
deriving DecidableEq

/-- The state of a writer. -/
structure Writer where
  indent : String
  out : String
  /-- The number of the line being written. -/
  line : Nat
  mappings : Array LineMapping
deriving DecidableEq

namespace Writer

/-- Nothing is written. -/
def initial : Writer := ⟨"", "", 1, #[]⟩

/-- The entry of the line map for a node on a line, if it is known where the node comes from. -/
def mapping? (provenance : Option Provenance) (line id : Nat) : Option LineMapping :=
  (provenance.bind (·.get? id)).map fun span =>
    ⟨line, span.startPos.line, span.startPos.column⟩

/-- The writer after one action. -/
def step (provenance : Option Provenance) (w : Writer) : Action → Writer
  | .emit text => { w with out := w.out ++ text }
  | .startLine => { w with out := w.out ++ w.indent }
  | .endLine => { w with out := w.out ++ "\n", line := w.line + 1 }
  | .increaseIndent => { w with indent := w.indent ++ "    " }
  | .decreaseIndent =>
    { w with indent := String.ofList (w.indent.toList.take (w.indent.length - 4)) }
  | .map id => { w with mappings := w.mappings ++ (mapping? provenance w.line id).toArray }

/-- The writer after some actions. -/
def run (provenance : Option Provenance) (w : Writer) (as : List Action) : Writer :=
  as.foldl (step provenance) w

/-- What has been written. -/
def listing (w : Writer) : Listing := ⟨w.out, w.mappings.toList⟩

end Writer

/-! ### Expressions -/

/-- Writes what `as` write, in parentheses if asked for. -/
def wrapped (parenthesized : Bool) (as : List Action) : List Action :=
  if parenthesized then .emit "(" :: (as ++ [.emit ")"]) else as

/-- Writes one after the other with commas between them. -/
def listed : List (List Action) → List Action
  | [] => []
  | [as] => as
  | as :: rest => as ++ .emit ", " :: listed rest

namespace Expr

/-- Writes `e` where a precedence of `least` is asked for. -/
def writtenAbove (least : Nat) (e : Expr) (as : List Action) : List Action :=
  wrapped (e.precedence < least) as

/-- Writes `e` where a member is taken of it or it is called. -/
def writtenAsObject (e : Expr) (as : List Action) : List Action :=
  wrapped (e.isBraced || e.precedence < memberPrecedence) as

/-- Writes `e` as the left operand of an operator. -/
def writtenAsLeft (op : BinaryOp) (e : Expr) (as : List Action) : List Action :=
  wrapped ((op = .pow && e.isUnary) || e.precedence < op.leftPrecedence) as

end Expr

/-- Writes lines as a block behind its header, up to its closing brace. -/
def blockActions (lines : List Action) : List Action :=
  .emit " \x7b" :: .endLine :: .increaseIndent ::
    (lines ++ [.decreaseIndent, .startLine, .emit "\x7d"])

mutual

/-- Writes an expression. -/
def Expr.actions : Expr → List Action
  | .ident _ name => [.emit name]
  | .number _ value => [.emit value.numeral]
  | .string _ value => [.emit (Text.quote value)]
  | .bool _ value => [.emit (if value then "true" else "false")]
  | .member _ object property =>
    object.writtenAsObject object.actions ++ [.emit ".", .emit property]
  | .element _ object index =>
    object.writtenAsObject object.actions ++
      .emit "[" :: (index.writtenAbove assignPrecedence index.actions ++ [.emit "]"])
  | .binary _ lhs op rhs =>
    lhs.writtenAsLeft op lhs.actions ++ .emit (" " ++ op.text ++ " ") ::
      rhs.writtenAbove op.rightPrecedence rhs.actions
  | .unary _ op operand =>
    .emit op.text :: .emit (code (operand.signGap op)) ::
      operand.writtenAbove unaryPrecedence operand.actions
  | .increment _ operand => operand.writtenAbove postPrecedence operand.actions ++ [.emit "++"]
  | .assign _ target op value =>
    target.writtenAbove (assignPrecedence + 1) target.actions ++ .emit (" " ++ op.text ++ " ") ::
      value.writtenAbove assignPrecedence value.actions
  | .spread _ value => .emit "..." :: value.writtenAbove assignPrecedence value.actions
  | .array _ elements => .emit "[" :: (listed (exprActions elements) ++ [.emit "]"])
  | .object _ [] => [.emit "\x7b\x7d"]
  | .object _ (p :: ps) =>
    .emit "\x7b " :: (listed (propertyActions (p :: ps)) ++ [.emit " \x7d"])
  | .call _ callee args =>
    callee.writtenAsObject callee.actions ++
      .emit "(" :: (listed (exprActions args) ++ [.emit ")"])
  | .function _ func => .emit "function " :: func.actions

/-- Writes the expressions of a list, each where an assignment may stand. -/
def exprActions : List Expr → List (List Action)
  | [] => []
  | e :: es => e.writtenAbove assignPrecedence e.actions :: exprActions es

/-- Writes the properties of an object. -/
def propertyActions : List Property → List (List Action)
  | [] => []
  | .named key value :: ps =>
    (.emit key :: .emit ": " :: value.writtenAbove assignPrecedence value.actions) ::
      propertyActions ps
  | .computed key value :: ps =>
    (.emit "[" :: (key.writtenAbove assignPrecedence key.actions ++
      .emit "]" :: .emit ": " :: value.writtenAbove assignPrecedence value.actions)) ::
      propertyActions ps

/-- Writes the parameters, the return type and the body of a function. -/
def Function.actions : Function → List Action
  | .mk params returnType body =>
    .emit (code (parens (commaSeparated (params.map Param.pieces)))) ::
      .emit (code (tyPieces returnType)) :: blockActions (lineActions body)

/-- Writes statements on lines of their own. -/
def lineActions : List Stmt → List Action
  | [] => []
  | s :: ss => .map s.id :: .startLine :: (s.actions ++ .endLine :: lineActions ss)

/-- Writes a declaration of variables, without its semicolon. -/
def VarDecl.actions : VarDecl → List Action
  | .mk kind binding ty init =>
    .emit (kind.text ++ " ") :: .emit (code binding.pieces) :: .emit (code (tyPieces ty)) ::
      match init with
      | none => []
      | some e => .emit " = " :: e.writtenAbove assignPrecedence e.actions

/-- Writes the methods of a class on lines of their own. -/
def methodActions : List Method → List Action
  | [] => []
  | .mk id name isStatic func :: ms =>
    .map id :: .startLine :: .emit (if isStatic then "static " else "") :: .emit name ::
      (func.actions ++ .endLine :: methodActions ms)

/-- Writes what follows the block of an `if`, on the line of its closing brace. -/
def Else.actions : Else → List Action
  | .none => []
  | .elseIf s => .emit " else " :: .map s.id :: s.actions
  | .block body => .emit " else" :: blockActions (lineActions body)

/-- Writes a statement without its line. -/
def Stmt.actions : Stmt → List Action
  | .var _ decl => decl.actions ++ [.emit ";"]
  | .functionDecl _ name exported func =>
    .emit (if exported then "export " else "") :: .emit "function " :: .emit name :: func.actions
  | .classDecl _ name methods =>
    .emit "class " :: .emit name :: blockActions (methodActions methods)
  | .expr _ e => e.writtenAbove assignPrecedence e.actions ++ [.emit ";"]
  | .returnStmt _ none => [.emit "return", .emit ";"]
  | .returnStmt _ (some e) =>
    .emit "return" :: .emit " " :: (e.writtenAbove assignPrecedence e.actions ++ [.emit ";"])
  | .exportAssign _ e =>
    .emit "export = " :: (e.writtenAbove assignPrecedence e.actions ++ [.emit ";"])
  | .ifStmt _ cond thenBlock elseBranch =>
    .emit "if (" :: (cond.writtenAbove assignPrecedence cond.actions ++ .emit ")" ::
      (blockActions (lineActions thenBlock) ++ elseBranch.actions))
  | .forLoop _ init test update body =>
    .emit "for (" :: (init.actions ++ .emit "; " ::
      (test.writtenAbove assignPrecedence test.actions ++ .emit "; " ::
        (update.writtenAbove assignPrecedence update.actions ++ .emit ")" ::
          blockActions (lineActions body))))
  | .forOf _ binding iterable body =>
    .emit "for (const " :: .emit (code binding.pieces) :: .emit " of " ::
      (iterable.writtenAbove assignPrecedence iterable.actions ++ .emit ")" ::
        blockActions (lineActions body))
  | .whileLoop _ cond body =>
    .emit "while (" :: (cond.writtenAbove assignPrecedence cond.actions ++ .emit ")" ::
      blockActions (lineActions body))
  | .breakStmt _ => [.emit "break;"]

end

/-- The listing of statements. -/
def print (stmts : List Stmt) (provenance : Option Provenance) : Listing :=
  (Writer.run provenance .initial (lineActions stmts)).listing

end LuaTranspiler.Target
