import LuaTranspiler.Lowering.State

/-!
# From Lua trees to TypeScript trees

Expressions and statements are built in the order in which they are written, parts before the whole.
The tags of a statement type the functions in its expressions.

A block may be rebuilt as a whole. When its first statement is a `local` marked as a module, the
functions declared under a member become exported functions and come first. When it is marked as a
class, they become the methods of that class. Otherwise every statement is lowered on its own.

* `lowerExpr`, `lowerFunction`: expressions and functions
* `lowerStmt`, `lowerBlock`: statements and blocks
* `lowerChunk`: a whole source
-/

namespace LuaTranspiler.Lowering

open Source (Literal Indexer)

/-- The operator that stands for a binary operator, if there is one. -/
def binaryOp? : Source.BinaryOp → Option Target.BinaryOp
  | .add | .concat => some .add
  | .sub => some .sub
  | .mul => some .mul
  | .div => some .div
  | .mod => some .mod
  | .pow => some .pow
  | .eq => some .strictEq
  | .notEq => some .strictNotEq
  | .less => some .less
  | .lessEq => some .lessEq
  | .greater => some .greater
  | .greaterEq => some .greaterEq
  | .floorDiv | .bitAnd | .bitOr | .bitXor | .shiftLeft | .shiftRight => none

/-- The operator that stands for a logical operator. -/
def logicalOp : Source.LogicalOp → Target.BinaryOp
  | .and => .and
  | .or => .or

/-- The name that stands for a variable. -/
def identName (name : String) : String := if name = "_G" then "globalThis" else name

/-- The unary operator, or for a length the member, applied to an operand. -/
def lowerUnary (span : Span) (operand : Target.Expr) : Source.UnaryOp → Lower Target.Expr
  | .len => node span (.member · operand "length")
  | .not => node span (.unary · .not operand)
  | .neg => node span (.unary · .neg operand)
  | .bitNot => node span (.unary · .bitNot operand)

/-- A literal. The variable arguments are spread from the parameter that holds them. -/
def lowerLiteral (span : Span) : Literal → Lower Target.Expr
  | .number n => node span (.number · n)
  | .string s => node span (.string · s)
  | .bool b => node span (.bool · b)
  | .nil => node span (.ident · "undefined")
  | .vararg => do
    let rest ← node span (.ident · "vararg")
    node span (.spread · rest)

/-- A parameter, with the type that the first tag for it gives. -/
def lowerParam (tags : List Tag) (p : Source.Param) : Lower Target.Param := do
  let ty ← match Tag.paramTypes p.tagName tags with
    | [] => do
      diagnose (.untyped p.tagName p.span)
      pure none
    | [type] => some <$> ofExcept (writtenType p.span type)
    | type :: _ => do
      diagnose (.manyTypes p.tagName p.span)
      some <$> ofExcept (writtenType p.span type)
  match p with
  | .named name _ => return ⟨name, false, ty⟩
  | .vararg _ => return ⟨"vararg", true, ty⟩

/-- The parameters of a function in order. -/
def lowerParams (tags : List Tag) : List Source.Param → Lower (List Target.Param)
  | [] => return []
  | p :: ps => return (← lowerParam tags p) :: (← lowerParams tags ps)

/-- The parameter that a method takes for the value it is called on. -/
def selfParam : Target.Param := ⟨"self", false, none⟩

/-- The span from the first to the last of a list of expressions. -/
def spanOf (es : List Source.Expr) (otherwise : Span) : Span :=
  (Span.cover (es.map Source.Expr.span)).getD otherwise

/-- No value, the value itself, or an array of several values. -/
def joinValues (span : Span) : List Target.Expr → Lower (Option Target.Expr)
  | [] => return none
  | [e] => return some e
  | es => some <$> node span (.array · es)

/-- The target itself, or an array of several. -/
def joinTargets (span : Span) : List Target.Expr → Lower Target.Expr
  | [e] => return e
  | es => node span (.array · es)

/-- The branches behind an `if`, the last built first. -/
def chain : List (Target.Expr × List Target.Stmt × Span) → Target.Else → Lower Target.Else
  | [], last => return last
  | (cond, body, span) :: clauses, last => do
    let rest ← chain clauses last
    return .elseIf (← node span (.ifStmt · cond body rest))

/-- The names that a `local` binds. -/
def bindingOf : List Source.Name → Target.Binding
  | [n] => .ident n.text
  | ns => .array (ns.map Source.Name.text)

/-- The type that tags give to the only variable of a `local`. -/
def writtenLocalType (span : Span) (tags : List Tag) (names : List Source.Name) :
    Except Error (Option Ty) :=
  match names, Tag.localType? tags with
  | [_], some type => some <$> writtenType span type
  | _, _ => .ok none

/-- The error for a statement that has no counterpart. -/
def unknownStmt (s : Source.Stmt) : Error := .unknownStatement s.kindName s.span

/-- How a block is built. -/
inductive Shape where
  | plain
  | moduleBlock
  | classBlock (name : String) (span : Span)

/-- How the statements of a block that opens at `start` are built. -/
def shapeOf (ctx : Context) (top : Bool) (start : Nat) : List Source.Stmt → Shape
  | [] => .plain
  | first :: rest =>
    let tags := Source.tagsAbove ctx.comments start first
    match first with
    | .localDecl names _ span =>
      if ctx.module && top && (Tag.moduleName? tags).isSome
          && !rest.any Source.Stmt.isNestedMemberDecl then .moduleBlock
      else if ctx.classmod && (Tag.className? tags).isSome then
        match names with
        | [] => .plain
        | name :: _ => .classBlock name.text span
      else .plain
    | _ => .plain

mutual

/-- An expression of a statement with the given tags. -/
def lowerExpr (ctx : Context) (tags : List Tag) : Source.Expr → Lower Target.Expr
  | .ident name span => node span (.ident · (identName name))
  | .literal value span => lowerLiteral span value
  | .member base _ name span => do
    let object ← lowerExpr ctx tags base
    node span (.member · object name.text)
  | .index base index span => do
    let object ← lowerExpr ctx tags base
    let i ← lowerExpr ctx tags index
    node span (.element · object i)
  | .unary op operand span => do
    let e ← lowerExpr ctx tags operand
    lowerUnary span e op
  | .binary lhs op rhs span =>
    match binaryOp? op with
    | none => throw (.unknownOperator op span)
    | some op => do
      let a ← lowerExpr ctx tags lhs
      let b ← lowerExpr ctx tags rhs
      node span (.binary · a op b)
  | .logical lhs op rhs span => do
    let a ← lowerExpr ctx tags lhs
    let b ← lowerExpr ctx tags rhs
    node span (.binary · a (logicalOp op) b)
  | .table fields span =>
    if fields.any Source.Field.isPositional then
      if fields.all Source.Field.isPositional then do
        let elements ← lowerElements ctx tags fields
        node span (.array · elements)
      else throw (.mixedTable span)
    else do
      let properties ← lowerProperties ctx tags fields
      node span (.object · properties)
  | .call base args span => do
    let callee ← lowerExpr ctx tags base
    let args ← lowerExprs ctx tags args
    node span (.call · callee args)
  | .stringCall base argument span => do
    let callee ← lowerExpr ctx tags base
    let arg ← lowerExpr ctx tags argument
    node span (.call · callee [arg])
  | .tableCall base argument span => do
    let callee ← lowerExpr ctx tags base
    let arg ← lowerExpr ctx tags argument
    node span (.call · callee [arg])
  | .function func span => do
    let ty ← if (Tag.returnTypes tags).isEmpty then pure none
      else some <$> ofExcept (writtenReturnType span tags)
    let f ← lowerFunction ctx tags false ty func
    node span (.function · f)

/-- Expressions in order. -/
def lowerExprs (ctx : Context) (tags : List Tag) : List Source.Expr → Lower (List Target.Expr)
  | [] => return []
  | e :: es => do
    let a ← lowerExpr ctx tags e
    let as ← lowerExprs ctx tags es
    return a :: as

/-- The values of the fields without keys. -/
def lowerElements (ctx : Context) (tags : List Tag) : List Source.Field → Lower (List Target.Expr)
  | [] => return []
  | .positional value _ :: fs => do
    let a ← lowerExpr ctx tags value
    let as ← lowerElements ctx tags fs
    return a :: as
  | _ :: fs => lowerElements ctx tags fs

/-- The properties of the fields with keys. -/
def lowerProperties (ctx : Context) (tags : List Tag) :
    List Source.Field → Lower (List Target.Property)
  | [] => return []
  | .named key value _ :: fs => do
    let v ← lowerExpr ctx tags value
    let ps ← lowerProperties ctx tags fs
    return .named key.text v :: ps
  | .keyed key value _ :: fs => do
    let k ← lowerExpr ctx tags key
    let v ← lowerExpr ctx tags value
    let ps ← lowerProperties ctx tags fs
    return .computed k v :: ps
  | .positional .. :: fs => lowerProperties ctx tags fs

/-- A function, with a parameter for the value it is called on when it is a method. -/
def lowerFunction (ctx : Context) (tags : List Tag) (method : Bool) (returnType : Option Ty) :
    Source.Function → Lower Target.Function
  | .mk params body => do
    let ps ← lowerParams tags params
    let stmts ← lowerBlock ctx false body
    return .mk (if method then selfParam :: ps else ps) returnType stmts

/-- The targets of an assignment in order. -/
def lowerTargets (ctx : Context) (tags : List Tag) : List Source.Expr → Lower (List Target.Expr)
  | [] => return []
  | e :: es =>
    if e.isAssignable then do
      let a ← lowerExpr ctx tags e
      let as ← lowerTargets ctx tags es
      return a :: as
    else throw (.unsupportedTarget e.span)

/-- A statement with the given tags; `top` when it is in no inner block. -/
def lowerStmt (ctx : Context) (top : Bool) (tags : List Tag) : Source.Stmt → Lower Target.Stmt
  | .localDecl names init span => do
    let ty ← ofExcept (writtenLocalType span tags names)
    let values ← lowerExprs ctx tags init
    let value ← joinValues (spanOf init .unknown) values
    node span (.var · (.mk .let (bindingOf names) ty value))
  | .assign targets init span => do
    let lhs ← lowerTargets ctx tags targets
    let target ← joinTargets (spanOf targets span) lhs
    let values ← lowerExprs ctx tags init
    let value ← match ← joinValues (spanOf init .unknown) values with
      | some value => pure value
      | none => node span (.ident · "undefined")
    let e ← node span (.assign · target .assign value)
    node span (.expr · e)
  | .call call span => do
    let e ← lowerExpr ctx tags call
    node span (.expr · e)
  | .functionDecl name _ func span => do
    let ty ← ofExcept (writtenReturnType span tags)
    match name with
    | .ident ident _ =>
      let f ← lowerFunction ctx tags false (some ty) func
      node span (.functionDecl · ident false f)
    | .member _ indexer _ _ =>
      let target ← lowerExpr ctx tags name
      let f ← lowerFunction ctx tags (indexer = .colon) (some ty) func
      let value ← node span (.function · f)
      let e ← node span (.assign · target .assign value)
      node span (.expr · e)
    | _ => throw (.unsupportedDeclaration name.span)
  | .returnStmt values span => do
    let es ← lowerExprs ctx tags values
    match ← joinValues (spanOf values .unknown) es with
    | some value =>
      if top then node span (.exportAssign · value) else node span (.returnStmt · (some value))
    | none => node span (.returnStmt · none)
  | .ifStmt cond thenBlock clauses elseBlock span => do
    let c ← lowerExpr ctx tags cond
    let body ← lowerBlock ctx false thenBlock
    let others ← lowerClauses ctx tags clauses
    let last ← match elseBlock with
      | some block => .block <$> lowerBlock ctx false block
      | none => pure .none
    let branch ← chain others last
    node span (.ifStmt · c body branch)
  | .whileLoop cond block span => do
    let c ← lowerExpr ctx tags cond
    let body ← lowerBlock ctx false block
    node span (.whileLoop · c body)
  | .forNumeric var start stop step block span => do
    let first ← lowerExpr ctx tags start
    let last ← lowerExpr ctx tags stop
    let amount ← match step with
      | some step => some <$> lowerExpr ctx tags step
      | none => pure none
    let counter ← node var.span (.ident · var.text)
    let test ← node span (.binary · counter .lessEq last)
    let counter ← node var.span (.ident · var.text)
    let update ← match amount with
      | none => node span (.increment · counter)
      | some amount => node span (.assign · counter .addAssign amount)
    let body ← lowerBlock ctx false block
    node span (.forLoop · (.mk .let (.ident var.text) none (some first)) test update body)
  | .forGeneric vars iterators block span => do
    let iterable ← match iterators with
      | [] => node span (.ident · "undefined")
      | [e] => lowerExpr ctx tags e
      | _ :: extra :: _ => throw (.multipleIterators iterators.length extra.span)
    let body ← lowerBlock ctx false block
    node span (.forOf · (.array (vars.map Source.Name.text)) iterable body)
  | .breakStmt span => node span (.breakStmt ·)
  | .repeatLoop block cond span => throw (unknownStmt (.repeatLoop block cond span))
  | .doBlock block span => throw (unknownStmt (.doBlock block span))
  | .goto label span => throw (unknownStmt (.goto label span))
  | .label name span => throw (unknownStmt (.label name span))

/-- The conditions and blocks of clauses, with the spans of the conditions. -/
def lowerClauses (ctx : Context) (tags : List Tag) :
    List Source.Clause → Lower (List (Target.Expr × List Target.Stmt × Span))
  | [] => return []
  | .mk cond block :: cs => do
    let c ← lowerExpr ctx tags cond
    let body ← lowerBlock ctx false block
    let others ← lowerClauses ctx tags cs
    return (c, body, cond.span) :: others

/-- The statements that follow the offset `floor` and satisfy `keep`. -/
def lowerStmts (ctx : Context) (top : Bool) (keep : Source.Stmt → Bool) (floor : Nat) :
    List Source.Stmt → Lower (List Target.Stmt)
  | [] => return []
  | s :: ss =>
    if keep s then do
      let t ← lowerStmt ctx top (Source.tagsAbove ctx.comments floor s) s
      let ts ← lowerStmts ctx top keep s.span.stop ss
      return t :: ts
    else lowerStmts ctx top keep s.span.stop ss

/-- A function declared under a member of a name, as an exported function. -/
def lowerExport (ctx : Context) (tags : List Tag) : Source.Stmt → Lower Target.Stmt
  | .functionDecl (.member base indexer member _) _ func span =>
    if base.isMember then throw (.notExportable "a nested member function" span)
    else do
      let ty ← ofExcept (writtenReturnType span tags)
      let f ← lowerFunction ctx tags (indexer = .colon) (some ty) func
      node span (.functionDecl · member.text true f)
  | .functionDecl _ _ _ span => throw (.notExportable "a function that is not a module member" span)
  | s => throw (.notExportable "a statement that is not a function declaration" s.span)

/-- The functions declared under a member, as exported functions. -/
def lowerExports (ctx : Context) (floor : Nat) : List Source.Stmt → Lower (List Target.Stmt)
  | [] => return []
  | s :: ss =>
    if s.isMemberDecl then do
      let t ← lowerExport ctx (Source.tagsAbove ctx.comments floor s) s
      let ts ← lowerExports ctx s.span.stop ss
      return t :: ts
    else lowerExports ctx s.span.stop ss

/-- A function declared under a member, as a method. -/
def lowerMethod (ctx : Context) (tags : List Tag) : Source.Stmt → Lower Target.Method
  | .functionDecl (.member _ indexer member _) _ func span => do
    let ty ← ofExcept (writtenReturnType span tags)
    let f ← lowerFunction ctx tags false (some ty) func
    node span (.mk · member.text (indexer = .dot) f)
  | s => throw (.unsupportedDeclaration s.span)

/-- The functions declared under a member, as methods. -/
def lowerMethods (ctx : Context) (floor : Nat) : List Source.Stmt → Lower (List Target.Method)
  | [] => return []
  | s :: ss =>
    if s.isMemberDecl then do
      let m ← lowerMethod ctx (Source.tagsAbove ctx.comments floor s) s
      let ms ← lowerMethods ctx s.span.stop ss
      return m :: ms
    else lowerMethods ctx s.span.stop ss

/-- The statements of a block; `top` for that of the whole source. -/
def lowerBlock (ctx : Context) (top : Bool) : Source.Block → Lower (List Target.Stmt)
  | .mk start stmts =>
    match shapeOf ctx top start stmts, stmts with
    | .moduleBlock, first :: rest => do
      let exports ← lowerExports ctx first.span.stop rest
      let others ← lowerStmts ctx top (!·.isMemberDecl) first.span.stop rest
      return exports ++ others
    | .classBlock name span, first :: rest => do
      let methods ← lowerMethods ctx first.span.stop rest
      let t ← node span (.classDecl · name methods)
      let others ← lowerStmts ctx top (!·.isMemberDecl) first.span.stop rest
      return t :: others
    | _, stmts => lowerStmts ctx top (fun _ => true) start stmts

end

/-- The statements of a whole source. What an earlier source has left is forgotten first. -/
def lowerChunk (module classmod : Bool) (chunk : Source.Chunk) : Lower (List Target.Stmt) := do
  set State.initial
  lowerBlock ⟨module, classmod, chunk.comments⟩ true chunk.body

end LuaTranspiler.Lowering
