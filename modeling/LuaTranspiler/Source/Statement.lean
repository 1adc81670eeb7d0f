import LuaTranspiler.Source.Expression

/-!
# Reading statements

* `Grammar.stmt`: one statement other than `return`
* `Grammar.statements`: the statements up to the end of a block
* `grammar`: the readers of all expressions and blocks
-/

namespace LuaTranspiler.Source

open LuaTranspiler.Parser

/-- A step `.name` of the name of a declared function. -/
def dotStep? (path : Expr) : Parser (Option Expr) := do
  match ← eat .dot with
  | none => return none
  | some _ =>
    let n ← name
    return some (.member path .dot n (← finish path.span))

/-- The name of a declared function: a name, members of it, and last perhaps a method. -/
def functionName : Parser Expr := do
  let first ← name
  let path ← iterate dotStep? (.ident first.text first.span)
  match ← eat .colon with
  | none => return path
  | some _ =>
    let n ← name
    return .member path .colon n (← finish path.span)

namespace Grammar

variable (g : Grammar)

/-- The keyword `kind` that opens a block, and the block. -/
def openBlock (kind : TokenKind) : Parser Block := do
  let opening ← expect kind
  g.block opening.span.stop

/-- The keyword `do`, a block and the keyword `end`. -/
def doEnd : Parser Block := do
  let block ← g.openBlock .kwDo
  let _ ← expect .kwEnd
  return block

/-- The statement `local`. -/
def localStmt (start : Span) : Parser Stmt := do
  let _ ← expect .kwLocal
  match ← eat .kwFunction with
  | some _ =>
    let n ← name
    let f ← g.functionBody
    return .functionDecl (.ident n.text n.span) true f (← finish start)
  | none =>
    let names ← commaList name
    let init ← match ← eat .equal with
      | some _ => g.exprList
      | none => pure []
    return .localDecl names init (← finish start)

/-- The statement `function`. -/
def functionStmt (start : Span) : Parser Stmt := do
  let _ ← expect .kwFunction
  let path ← functionName
  let f ← g.functionBody
  return .functionDecl path false f (← finish start)

/-- A clause `elseif`, if one follows. -/
def clause? : Parser (Option Clause) := do
  match ← eat .kwElseif with
  | none => return none
  | some _ =>
    let cond ← g.expr 0
    let block ← g.openBlock .kwThen
    return some (.mk cond block)

/-- The statement `if`. -/
def ifStmt (start : Span) : Parser Stmt := do
  let _ ← expect .kwIf
  let cond ← g.expr 0
  let thenBlock ← g.openBlock .kwThen
  let clauses ← many g.clause?
  let elseBlock ← match ← eat .kwElse with
    | some t => some <$> g.block t.span.stop
    | none => pure none
  let _ ← expect .kwEnd
  return .ifStmt cond thenBlock clauses elseBlock (← finish start)

/-- The statement `while`. -/
def whileStmt (start : Span) : Parser Stmt := do
  let _ ← expect .kwWhile
  let cond ← g.expr 0
  let block ← g.doEnd
  return .whileLoop cond block (← finish start)

/-- The statement `for` of either kind. -/
def forStmt (start : Span) : Parser Stmt := do
  let _ ← expect .kwFor
  let first ← name
  match ← eat .equal with
  | some _ =>
    let lower ← g.expr 0
    let _ ← expect .comma
    let upper ← g.expr 0
    let step ← match ← eat .comma with
      | some _ => some <$> g.expr 0
      | none => pure none
    let block ← g.doEnd
    return .forNumeric first lower upper step block (← finish start)
  | none =>
    let others ← many (behindComma name)
    let _ ← expect .kwIn
    let iterators ← g.exprList
    let block ← g.doEnd
    return .forGeneric (first :: others) iterators block (← finish start)

/-- The statement `repeat`. -/
def repeatStmt (start : Span) : Parser Stmt := do
  let block ← g.openBlock .kwRepeat
  let _ ← expect .kwUntil
  let cond ← g.expr 0
  return .repeatLoop block cond (← finish start)

/-- An assignment or a call. The targets are judged before the equals sign is looked for. -/
def exprStmt (start : Span) : Parser Stmt := do
  let first ← g.suffixed
  if (← check .equal) || (← check .comma) then
    let others ← many (behindComma g.suffixed)
    match (first :: others).find? fun e => !e.isAssignable with
    | some e => throw (.invalidTarget e.span)
    | none =>
      let _ ← expect .equal
      let init ← g.exprList
      return .assign (first :: others) init (← finish start)
  else if first.isCall then return .call first (← finish start)
  else throw (.expectedCall first.span)

/-- One statement other than `return`. -/
def stmt : Parser Stmt := do
  match ← peek? with
  | none => throw .unexpectedEnd
  | some t =>
    match t.kind with
    | .kwLocal => g.localStmt t.span
    | .kwFunction => g.functionStmt t.span
    | .kwIf => g.ifStmt t.span
    | .kwWhile => g.whileStmt t.span
    | .kwFor => g.forStmt t.span
    | .kwRepeat => g.repeatStmt t.span
    | .kwDo =>
      let block ← g.doEnd
      return .doBlock block (← finish t.span)
    | .kwBreak =>
      let _ ← advance
      return .breakStmt (← finish t.span)
    | .kwGoto =>
      let _ ← advance
      let n ← name
      return .goto n.text (← finish t.span)
    | .doubleColon =>
      let _ ← advance
      let n ← name
      let _ ← expect .doubleColon
      return .label n.text (← finish t.span)
    | .name | .leftParen => g.exprStmt t.span
    | found => throw (.expectedStatement found t.span)

/-- Whether a `return` has no values, from the token behind it. -/
def endsReturn : Option TokenKind → Bool
  | none => true
  | some kind => kind = .semicolon || kind.endsBlock

/-- The statement `return`. -/
def returnStmt : Parser Stmt := do
  let t ← expect .kwReturn
  let values ← if endsReturn (← peekKind?) then pure [] else g.exprList
  return .returnStmt values (← finish t.span)

/-- The next statement of a block, or none at its end. Nothing but the end may follow `return` and
its semicolon. -/
def stmt? : Parser (Option Stmt) := do
  skip .semicolon
  match ← peek? with
  | none => return none
  | some t =>
    if t.kind.endsBlock then return none
    else if t.kind = .kwReturn then
      let s ← g.returnStmt
      let _ ← eat .semicolon
      match ← peek? with
      | none => return some s
      | some next =>
        if next.kind.endsBlock then return some s else throw (.returnNotLast next.span)
    else return some (← g.stmt)

/-- The statements up to the end of the block that opens at `start`. -/
def statements (start : Nat) : Parser Block := do return .mk start (← many g.stmt?)

end Grammar

/-- The readers of expressions and blocks that nest less deep than `n`. Each level stands behind a
token of its own, so no source nests deeper than it has tokens. -/
def grammar : Nat → Grammar
  | 0 => ⟨fun _ => throw .unexpectedEnd, fun start => return .mk start []⟩
  | n + 1 => ⟨(grammar n).subexpr, (grammar n).statements⟩

end LuaTranspiler.Source
