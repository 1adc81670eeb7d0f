import LuaTranspiler.Source.Chunk
import Mathlib.Data.List.Forall2

/-!
# Writing trees as tokens

A Lua tree as the sequence of what its tokens say. Parentheses stand only where they change what is
read: by the priorities of operators, and around what cannot be called or indexed bare.

* `Lexeme`, `Spells`: what a token says
* `Block.lexemes`: what the tokens of a block say, with a semicolon behind each statement
* `Block.WellFormed`: the trees whose shapes the grammar has
* `Block.unplaced`: a tree without its places
* `Block.lexemes_unplaced`: what a tree is written as does not depend on them
-/

namespace LuaTranspiler.Source

/-! ### Tokens -/

/-- What a token says: a symbol or keyword, a name, or the value of a literal. -/
inductive Lexeme where
  | symbol (kind : TokenKind)
  | name (text : String)
  | literal (value : Literal)
deriving DecidableEq

/-- Whether a token says this. -/
def Spells (t : Token) : Lexeme → Prop
  | .symbol kind => t.kind = kind
  | .name text => t.kind = .name ∧ t.literal = text
  | .literal value => literal? t = .ok (some value)

/-- Whether tokens say this one by one. -/
abbrev Spelled (ts : List Token) (ls : List Lexeme) : Prop := List.Forall₂ Spells ts ls

/-- The token of an operator. -/
def UnaryOp.kind : UnaryOp → TokenKind
  | neg => .minus
  | not => .kwNot
  | len => .hash
  | bitNot => .tilde

/-- The token of an operator. -/
def InfixOp.kind : InfixOp → TokenKind
  | binary .add => .plus
  | binary .sub => .minus
  | binary .mul => .star
  | binary .div => .slash
  | binary .floorDiv => .doubleSlash
  | binary .mod => .percent
  | binary .pow => .caret
  | binary .concat => .doubleDot
  | binary .eq => .doubleEqual
  | binary .notEq => .tildeEqual
  | binary .less => .less
  | binary .lessEq => .lessEqual
  | binary .greater => .greater
  | binary .greaterEq => .greaterEqual
  | binary .bitAnd => .ampersand
  | binary .bitOr => .pipe
  | binary .bitXor => .tilde
  | binary .shiftLeft => .shiftLeft
  | binary .shiftRight => .shiftRight
  | logical .and => .kwAnd
  | logical .or => .kwOr

/-- The token of a mark. -/
def Indexer.kind : Indexer → TokenKind
  | dot => .dot
  | colon => .colon

/-! ### Parentheses -/

namespace Expr

/-- The operator between the two operands of an expression. -/
def operator? : Expr → Option InfixOp
  | binary _ op _ _ => some (.binary op)
  | logical _ op _ _ => some (.logical op)
  | _ => none

/-- How tightly an expression that ends with an operand holds that operand. -/
def rightPriority? : Expr → Option Nat
  | unary .. => some unaryPriority
  | e => e.operator?.map fun op => op.priority.2

/-- Whether the operator `op` behind an expression would take its last operand. -/
def losesTo (op : InfixOp) (e : Expr) : Bool := e.rightPriority?.any fun r => r < op.priority.1

/-- Whether an expression is not read whole where operators have to bind tighter than a limit. -/
def reaches (limit : Nat) (e : Expr) : Bool := e.operator?.any fun op => op.priority.1 ≤ limit

/-- Whether an expression is a name, a member, an index or a call. -/
def isBase : Expr → Bool
  | ident .. | member .. | index .. | call .. | stringCall .. | tableCall .. => true
  | _ => false

end Expr

/-- Lexemes, in parentheses where they are needed. -/
def parenthesized (needed : Bool) (ls : List Lexeme) : List Lexeme :=
  if needed then .symbol .leftParen :: (ls ++ [.symbol .rightParen]) else ls

/-- Lists of lexemes with commas between them. -/
def commas : List (List Lexeme) → List Lexeme
  | [] => []
  | ls :: lss => ls ++ lss.flatMap (.symbol .comma :: ·)

/-! ### Trees -/

/-- What a parameter is written as. -/
def Param.lexeme : Param → Lexeme
  | named name _ => .name name
  | vararg _ => .symbol .ellipsis

/-- Names with commas between them. -/
def nameLexemes (names : List Name) : List Lexeme := commas (names.map fun n => [.name n.text])

mutual

/-- What the tokens of an expression say. -/
def Expr.lexemes : Expr → List Lexeme
  | .ident name _ => [.name name]
  | .literal value _ => [.literal value]
  | .member base indexer name _ =>
    parenthesized (!base.isBase) base.lexemes ++ [.symbol indexer.kind, .name name.text]
  | .index base i _ =>
    parenthesized (!base.isBase) base.lexemes ++
      .symbol .leftBracket :: (i.lexemes ++ [.symbol .rightBracket])
  | .unary op operand _ =>
    .symbol op.kind :: parenthesized (operand.reaches unaryPriority) operand.lexemes
  | .binary lhs op rhs _ =>
    parenthesized (lhs.losesTo (.binary op)) lhs.lexemes ++ .symbol (InfixOp.binary op).kind ::
      parenthesized (rhs.reaches (InfixOp.binary op).priority.2) rhs.lexemes
  | .logical lhs op rhs _ =>
    parenthesized (lhs.losesTo (.logical op)) lhs.lexemes ++ .symbol (InfixOp.logical op).kind ::
      parenthesized (rhs.reaches (InfixOp.logical op).priority.2) rhs.lexemes
  | .table fields _ =>
    .symbol .leftBrace :: (commas (fieldLexemes fields) ++ [.symbol .rightBrace])
  | .call base args _ =>
    parenthesized (!base.isBase) base.lexemes ++
      .symbol .leftParen :: (commas (exprLexemes args) ++ [.symbol .rightParen])
  | .stringCall base argument _ | .tableCall base argument _ =>
    parenthesized (!base.isBase) base.lexemes ++ argument.lexemes
  | .function func _ => .symbol .kwFunction :: func.lexemes

/-- What the tokens of each expression say. -/
def exprLexemes : List Expr → List (List Lexeme)
  | [] => []
  | e :: es => e.lexemes :: exprLexemes es

/-- What the tokens of a field of a table say. -/
def Field.lexemes : Field → List Lexeme
  | .keyed key value _ =>
    .symbol .leftBracket :: (key.lexemes ++ .symbol .rightBracket :: .symbol .equal ::
      value.lexemes)
  | .named key value _ => .name key.text :: .symbol .equal :: value.lexemes
  | .positional value _ => value.lexemes

/-- What the tokens of each field of a table say. -/
def fieldLexemes : List Field → List (List Lexeme)
  | [] => []
  | f :: fs => f.lexemes :: fieldLexemes fs

/-- What the tokens of a function say, behind its keyword or its name. -/
def Function.lexemes : Function → List Lexeme
  | .mk params body =>
    .symbol .leftParen :: (commas (params.map fun p => [p.lexeme]) ++
      .symbol .rightParen :: (body.lexemes ++ [.symbol .kwEnd]))

/-- What the tokens of a block say. -/
def Block.lexemes : Block → List Lexeme
  | .mk _ stmts => stmtLexemes stmts

/-- What the tokens of statements say, with a semicolon behind each. -/
def stmtLexemes : List Stmt → List Lexeme
  | [] => []
  | s :: ss => s.lexemes ++ .symbol .semicolon :: stmtLexemes ss

/-- What the tokens of a clause say. -/
def Clause.lexemes : Clause → List Lexeme
  | .mk cond block => .symbol .kwElseif :: (cond.lexemes ++ .symbol .kwThen :: block.lexemes)

/-- What the tokens of clauses say. -/
def clauseLexemes : List Clause → List Lexeme
  | [] => []
  | c :: cs => c.lexemes ++ clauseLexemes cs

/-- What the tokens of an `else` say. -/
def elseLexemes : Option Block → List Lexeme
  | none => []
  | some block => .symbol .kwElse :: block.lexemes

/-- What the tokens of the step of a loop say. -/
def stepLexemes : Option Expr → List Lexeme
  | none => []
  | some step => .symbol .comma :: step.lexemes

/-- What the tokens of a statement say. -/
def Stmt.lexemes : Stmt → List Lexeme
  | .localDecl names [] _ => .symbol .kwLocal :: nameLexemes names
  | .localDecl names (e :: es) _ =>
    .symbol .kwLocal :: (nameLexemes names ++ .symbol .equal :: commas (exprLexemes (e :: es)))
  | .assign targets init _ =>
    commas (exprLexemes targets) ++ .symbol .equal :: commas (exprLexemes init)
  | .call call _ => call.lexemes
  | .functionDecl name true func _ =>
    .symbol .kwLocal :: .symbol .kwFunction :: (name.lexemes ++ func.lexemes)
  | .functionDecl name false func _ => .symbol .kwFunction :: (name.lexemes ++ func.lexemes)
  | .returnStmt values _ => .symbol .kwReturn :: commas (exprLexemes values)
  | .ifStmt cond thenBlock clauses elseBlock _ =>
    .symbol .kwIf :: (cond.lexemes ++ .symbol .kwThen :: (thenBlock.lexemes ++
      (clauseLexemes clauses ++ (elseLexemes elseBlock ++ [.symbol .kwEnd]))))
  | .whileLoop cond block _ =>
    .symbol .kwWhile :: (cond.lexemes ++ .symbol .kwDo :: (block.lexemes ++ [.symbol .kwEnd]))
  | .forNumeric var start stop step block _ =>
    .symbol .kwFor :: .name var.text :: .symbol .equal :: (start.lexemes ++ .symbol .comma ::
      (stop.lexemes ++ (stepLexemes step ++ .symbol .kwDo :: (block.lexemes ++ [.symbol .kwEnd]))))
  | .forGeneric vars iterators block _ =>
    .symbol .kwFor :: (nameLexemes vars ++ .symbol .kwIn :: (commas (exprLexemes iterators) ++
      .symbol .kwDo :: (block.lexemes ++ [.symbol .kwEnd])))
  | .breakStmt _ => [.symbol .kwBreak]
  | .repeatLoop block cond _ =>
    .symbol .kwRepeat :: (block.lexemes ++ .symbol .kwUntil :: cond.lexemes)
  | .doBlock block _ => .symbol .kwDo :: (block.lexemes ++ [.symbol .kwEnd])
  | .goto label _ => [.symbol .kwGoto, .name label]
  | .label name _ => [.symbol .doubleColon, .name name, .symbol .doubleColon]

end

/-! ### Shapes -/

namespace Expr

/-- Whether an expression is a name or members of one. -/
def isPath : Expr → Bool
  | ident .. => true
  | member base .dot _ _ => base.isPath
  | _ => false

/-- Whether an expression may name a declared function: the last step of a path may be a method. -/
def isFunctionName : Expr → Bool
  | member base _ _ _ => base.isPath
  | e => e.isPath

/-- Whether an expression is a single name. -/
def isName : Expr → Bool
  | ident .. => true
  | _ => false

/-- Whether an expression is a string. -/
def isString : Expr → Bool
  | literal (.string _) _ => true
  | _ => false

/-- Whether an expression is a table constructor. -/
def isTable : Expr → Bool
  | table .. => true
  | _ => false

end Expr

/-- Whether a statement is `return`. -/
def Stmt.isReturn : Stmt → Bool
  | returnStmt .. => true
  | _ => false

mutual

/-- Whether an expression has a shape that the grammar allows. A method is allowed where it is
called. -/
def Expr.WellFormed : Bool → Expr → Prop
  | _, .ident .. | _, .literal .. => True
  | called, .member base indexer _ _ => (indexer = .dot ∨ called) ∧ base.WellFormed false
  | _, .index base i _ => base.WellFormed false ∧ i.WellFormed false
  | _, .unary _ operand _ => operand.WellFormed false
  | _, .binary lhs _ rhs _ | _, .logical lhs _ rhs _ => lhs.WellFormed false ∧ rhs.WellFormed false
  | _, .table fields _ => WellFormedFields fields
  | _, .call base args _ => base.WellFormed true ∧ WellFormedExprs args
  | _, .stringCall base argument _ => base.WellFormed true ∧ argument.isString
  | _, .tableCall base argument _ =>
    base.WellFormed true ∧ argument.isTable ∧ argument.WellFormed false
  | _, .function func _ => func.WellFormed

/-- The same for each expression of a list. -/
def WellFormedExprs : List Expr → Prop
  | [] => True
  | e :: es => e.WellFormed false ∧ WellFormedExprs es

/-- The same for a field of a table. -/
def Field.WellFormed : Field → Prop
  | .keyed key value _ => key.WellFormed false ∧ value.WellFormed false
  | .named _ value _ | .positional value _ => value.WellFormed false

/-- The same for the fields of a table. -/
def WellFormedFields : List Field → Prop
  | [] => True
  | f :: fs => f.WellFormed ∧ WellFormedFields fs

/-- The same for a function. Only its last parameter takes all remaining arguments. -/
def Function.WellFormed : Function → Prop
  | .mk params body => (∀ p ∈ params.dropLast, p.isVararg = false) ∧ body.WellFormed

/-- The same for a block. -/
def Block.WellFormed : Block → Prop
  | .mk _ stmts => WellFormedStmts stmts

/-- The same for the statements of a block. Nothing follows `return`. -/
def WellFormedStmts : List Stmt → Prop
  | [] => True
  | s :: ss => (s.isReturn → ss = []) ∧ s.WellFormed ∧ WellFormedStmts ss

/-- The same for a clause of an `if`. -/
def Clause.WellFormed : Clause → Prop
  | .mk cond block => cond.WellFormed false ∧ block.WellFormed

/-- The same for the clauses of an `if`. -/
def WellFormedClauses : List Clause → Prop
  | [] => True
  | c :: cs => c.WellFormed ∧ WellFormedClauses cs

/-- The same for an `else`. -/
def WellFormedElse : Option Block → Prop
  | none => True
  | some block => block.WellFormed

/-- The same for the step of a loop. -/
def WellFormedStep : Option Expr → Prop
  | none => True
  | some step => step.WellFormed false

/-- The same for a statement. -/
def Stmt.WellFormed : Stmt → Prop
  | .localDecl names init _ => names ≠ [] ∧ WellFormedExprs init
  | .assign targets init _ =>
    targets ≠ [] ∧ (∀ e ∈ targets, e.isAssignable) ∧ WellFormedExprs targets ∧ init ≠ [] ∧
      WellFormedExprs init
  | .call call _ => call.isCall ∧ call.WellFormed false
  | .functionDecl name true func _ => name.isName ∧ func.WellFormed
  | .functionDecl name false func _ => name.isFunctionName ∧ func.WellFormed
  | .returnStmt values _ => WellFormedExprs values
  | .ifStmt cond thenBlock clauses elseBlock _ =>
    cond.WellFormed false ∧ thenBlock.WellFormed ∧ WellFormedClauses clauses ∧
      WellFormedElse elseBlock
  | .whileLoop cond block _ | .repeatLoop block cond _ => cond.WellFormed false ∧ block.WellFormed
  | .forNumeric _ start stop step block _ =>
    start.WellFormed false ∧ stop.WellFormed false ∧ WellFormedStep step ∧ block.WellFormed
  | .forGeneric vars iterators block _ =>
    vars ≠ [] ∧ iterators ≠ [] ∧ WellFormedExprs iterators ∧ block.WellFormed
  | .breakStmt _ | .goto .. | .label .. => True
  | .doBlock block _ => block.WellFormed

end

/-! ### Trees without places -/

/-- The same name without its place. -/
def Name.unplaced (n : Name) : Name := ⟨n.text, .unknown⟩

/-- The same parameter without its place. -/
def Param.unplaced : Param → Param
  | named name _ => named name .unknown
  | vararg _ => vararg .unknown

mutual

/-- The same expression without its places. -/
def Expr.unplaced : Expr → Expr
  | .ident name _ => .ident name .unknown
  | .literal value _ => .literal value .unknown
  | .member base indexer name _ => .member base.unplaced indexer name.unplaced .unknown
  | .index base i _ => .index base.unplaced i.unplaced .unknown
  | .unary op operand _ => .unary op operand.unplaced .unknown
  | .binary lhs op rhs _ => .binary lhs.unplaced op rhs.unplaced .unknown
  | .logical lhs op rhs _ => .logical lhs.unplaced op rhs.unplaced .unknown
  | .table fields _ => .table (unplacedFields fields) .unknown
  | .call base args _ => .call base.unplaced (unplacedExprs args) .unknown
  | .stringCall base argument _ => .stringCall base.unplaced argument.unplaced .unknown
  | .tableCall base argument _ => .tableCall base.unplaced argument.unplaced .unknown
  | .function func _ => .function func.unplaced .unknown

/-- The same expressions without their places. -/
def unplacedExprs : List Expr → List Expr
  | [] => []
  | e :: es => e.unplaced :: unplacedExprs es

/-- The same field without its places. -/
def Field.unplaced : Field → Field
  | .keyed key value _ => .keyed key.unplaced value.unplaced .unknown
  | .named key value _ => .named key.unplaced value.unplaced .unknown
  | .positional value _ => .positional value.unplaced .unknown

/-- The same fields without their places. -/
def unplacedFields : List Field → List Field
  | [] => []
  | f :: fs => f.unplaced :: unplacedFields fs

/-- The same function without its places. -/
def Function.unplaced : Function → Function
  | .mk params body => .mk (params.map Param.unplaced) body.unplaced

/-- The same block without its places and the offset at which it opens. -/
def Block.unplaced : Block → Block
  | .mk _ stmts => .mk 0 (unplacedStmts stmts)

/-- The same statements without their places. -/
def unplacedStmts : List Stmt → List Stmt
  | [] => []
  | s :: ss => s.unplaced :: unplacedStmts ss

/-- The same clause without its places. -/
def Clause.unplaced : Clause → Clause
  | .mk cond block => .mk cond.unplaced block.unplaced

/-- The same clauses without their places. -/
def unplacedClauses : List Clause → List Clause
  | [] => []
  | c :: cs => c.unplaced :: unplacedClauses cs

/-- The same block without its places, if there is one. -/
def unplacedElse : Option Block → Option Block
  | none => none
  | some block => some block.unplaced

/-- The same step without its places, if there is one. -/
def unplacedStep : Option Expr → Option Expr
  | none => none
  | some step => some step.unplaced

/-- The same statement without its places. -/
def Stmt.unplaced : Stmt → Stmt
  | .localDecl names init _ => .localDecl (names.map Name.unplaced) (unplacedExprs init) .unknown
  | .assign targets init _ => .assign (unplacedExprs targets) (unplacedExprs init) .unknown
  | .call call _ => .call call.unplaced .unknown
  | .functionDecl name isLocal func _ => .functionDecl name.unplaced isLocal func.unplaced .unknown
  | .returnStmt values _ => .returnStmt (unplacedExprs values) .unknown
  | .ifStmt cond thenBlock clauses elseBlock _ =>
    .ifStmt cond.unplaced thenBlock.unplaced (unplacedClauses clauses) (unplacedElse elseBlock)
      .unknown
  | .whileLoop cond block _ => .whileLoop cond.unplaced block.unplaced .unknown
  | .forNumeric var start stop step block _ =>
    .forNumeric var.unplaced start.unplaced stop.unplaced (unplacedStep step) block.unplaced
      .unknown
  | .forGeneric vars iterators block _ =>
    .forGeneric (vars.map Name.unplaced) (unplacedExprs iterators) block.unplaced .unknown
  | .breakStmt _ => .breakStmt .unknown
  | .repeatLoop block cond _ => .repeatLoop block.unplaced cond.unplaced .unknown
  | .doBlock block _ => .doBlock block.unplaced .unknown
  | .goto label _ => .goto label .unknown
  | .label name _ => .label name .unknown

end

section

variable (e : Expr)

@[simp] theorem Expr.isBase_unplaced : e.unplaced.isBase = e.isBase := by cases e <;> rfl

@[simp] theorem Expr.losesTo_unplaced (op : InfixOp) : e.unplaced.losesTo op = e.losesTo op := by
  cases e <;> rfl

@[simp] theorem Expr.reaches_unplaced (limit : Nat) :
    e.unplaced.reaches limit = e.reaches limit := by
  cases e <;> rfl

end

@[simp] theorem Param.lexeme_unplaced (p : Param) : p.unplaced.lexeme = p.lexeme := by
  cases p <;> rfl

@[simp] theorem nameLexemes_unplaced (names : List Name) :
    nameLexemes (names.map Name.unplaced) = nameLexemes names := by
  simp [nameLexemes, Function.comp_def, Name.unplaced]

mutual

/-- What an expression is written as does not depend on its places. -/
theorem Expr.lexemes_unplaced : ∀ e : Expr, e.unplaced.lexemes = e.lexemes
  | .ident .. | .literal .. => rfl
  | .member base .. => by simp [Expr.unplaced, Expr.lexemes, Name.unplaced, base.lexemes_unplaced]
  | .index base i _ => by
    simp [Expr.unplaced, Expr.lexemes, base.lexemes_unplaced, i.lexemes_unplaced]
  | .unary _ operand _ => by simp [Expr.unplaced, Expr.lexemes, operand.lexemes_unplaced]
  | .binary lhs _ rhs _ | .logical lhs _ rhs _ => by
    simp [Expr.unplaced, Expr.lexemes, lhs.lexemes_unplaced, rhs.lexemes_unplaced]
  | .table fields _ => by simp [Expr.unplaced, Expr.lexemes, fieldLexemes_unplaced fields]
  | .call base args _ => by
    simp [Expr.unplaced, Expr.lexemes, base.lexemes_unplaced, exprLexemes_unplaced args]
  | .stringCall base argument _ | .tableCall base argument _ => by
    simp [Expr.unplaced, Expr.lexemes, base.lexemes_unplaced, argument.lexemes_unplaced]
  | .function func _ => by simp [Expr.unplaced, Expr.lexemes, func.lexemes_unplaced]

theorem exprLexemes_unplaced : ∀ es : List Expr, exprLexemes (unplacedExprs es) = exprLexemes es
  | [] => rfl
  | e :: es => by
    simp [unplacedExprs, exprLexemes, e.lexemes_unplaced, exprLexemes_unplaced es]

theorem Field.lexemes_unplaced : ∀ f : Field, f.unplaced.lexemes = f.lexemes
  | .keyed key value _ => by
    simp [Field.unplaced, Field.lexemes, key.lexemes_unplaced, value.lexemes_unplaced]
  | .named _ value _ | .positional value _ => by
    simp [Field.unplaced, Field.lexemes, Name.unplaced, value.lexemes_unplaced]

theorem fieldLexemes_unplaced :
    ∀ fs : List Field, fieldLexemes (unplacedFields fs) = fieldLexemes fs
  | [] => rfl
  | f :: fs => by
    simp [unplacedFields, fieldLexemes, f.lexemes_unplaced, fieldLexemes_unplaced fs]

theorem Function.lexemes_unplaced : ∀ f : Function, f.unplaced.lexemes = f.lexemes
  | .mk _ body => by
    simp [Function.unplaced, Function.lexemes, Function.comp_def, body.lexemes_unplaced]

/-- What a block is written as does not depend on its places. -/
theorem Block.lexemes_unplaced : ∀ b : Block, b.unplaced.lexemes = b.lexemes
  | .mk _ stmts => by simp [Block.unplaced, Block.lexemes, stmtLexemes_unplaced stmts]

theorem stmtLexemes_unplaced : ∀ ss : List Stmt, stmtLexemes (unplacedStmts ss) = stmtLexemes ss
  | [] => rfl
  | s :: ss => by
    simp [unplacedStmts, stmtLexemes, s.lexemes_unplaced, stmtLexemes_unplaced ss]

theorem Clause.lexemes_unplaced : ∀ c : Clause, c.unplaced.lexemes = c.lexemes
  | .mk cond block => by
    simp [Clause.unplaced, Clause.lexemes, cond.lexemes_unplaced, block.lexemes_unplaced]

theorem clauseLexemes_unplaced : ∀ cs : List Clause,
    clauseLexemes (unplacedClauses cs) = clauseLexemes cs
  | [] => rfl
  | c :: cs => by
    simp [unplacedClauses, clauseLexemes, c.lexemes_unplaced, clauseLexemes_unplaced cs]

theorem elseLexemes_unplaced : ∀ b : Option Block, elseLexemes (unplacedElse b) = elseLexemes b
  | none => rfl
  | some b => by simp [unplacedElse, elseLexemes, b.lexemes_unplaced]

theorem stepLexemes_unplaced : ∀ e : Option Expr, stepLexemes (unplacedStep e) = stepLexemes e
  | none => rfl
  | some e => by simp [unplacedStep, stepLexemes, e.lexemes_unplaced]

theorem Stmt.lexemes_unplaced : ∀ s : Stmt, s.unplaced.lexemes = s.lexemes
  | .localDecl _ [] _ => by simp [Stmt.unplaced, unplacedExprs, Stmt.lexemes]
  | .localDecl _ (e :: es) _ => by
    have hinit := exprLexemes_unplaced (e :: es)
    simp only [unplacedExprs] at hinit
    simp [Stmt.unplaced, unplacedExprs, Stmt.lexemes, hinit]
  | .assign targets init _ => by
    simp [Stmt.unplaced, Stmt.lexemes, exprLexemes_unplaced targets, exprLexemes_unplaced init]
  | .call call _ => by simp [Stmt.unplaced, Stmt.lexemes, call.lexemes_unplaced]
  | .functionDecl name true func _ | .functionDecl name false func _ => by
    simp [Stmt.unplaced, Stmt.lexemes, name.lexemes_unplaced, func.lexemes_unplaced]
  | .returnStmt values _ => by simp [Stmt.unplaced, Stmt.lexemes, exprLexemes_unplaced values]
  | .ifStmt cond thenBlock clauses elseBlock _ => by
    simp [Stmt.unplaced, Stmt.lexemes, cond.lexemes_unplaced, thenBlock.lexemes_unplaced,
      clauseLexemes_unplaced clauses, elseLexemes_unplaced elseBlock]
  | .whileLoop cond block _ | .repeatLoop block cond _ => by
    simp [Stmt.unplaced, Stmt.lexemes, cond.lexemes_unplaced, block.lexemes_unplaced]
  | .forNumeric _ start stop step block _ => by
    simp [Stmt.unplaced, Stmt.lexemes, Name.unplaced, start.lexemes_unplaced,
      stop.lexemes_unplaced, stepLexemes_unplaced step, block.lexemes_unplaced]
  | .forGeneric _ iterators block _ => by
    simp [Stmt.unplaced, Stmt.lexemes, exprLexemes_unplaced iterators, block.lexemes_unplaced]
  | .breakStmt _ | .goto .. | .label .. => rfl
  | .doBlock block _ => by simp [Stmt.unplaced, Stmt.lexemes, block.lexemes_unplaced]

end

end LuaTranspiler.Source
