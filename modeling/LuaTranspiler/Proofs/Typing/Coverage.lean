import LuaTranspiler.Proofs.Typing.Walk

/-!
# Which declarations are checked

A declaration whose literal does not fit its type is found wherever it stands, but for one kind of
place: the computed keys of objects are passed by, with all functions in them.

* `Expr.keyless`, `keylessStmts`: trees without computed keys
* `block_keyless`: checking does not tell a tree from the same tree without its computed keys
* `mem_check_outside_keys`: which declarations are checked
* `check_keyedFunction`: one that is not
-/

namespace LuaTranspiler

namespace Target

/-! ### Trees without computed keys -/

mutual

/-- An expression with a fixed name for every computed key. -/
def Expr.keyless : Expr → Expr
  | .ident id name => .ident id name
  | .number id value => .number id value
  | .string id value => .string id value
  | .bool id value => .bool id value
  | .member id object property => .member id object.keyless property
  | .element id object index => .element id object.keyless index.keyless
  | .binary id lhs op rhs => .binary id lhs.keyless op rhs.keyless
  | .unary id op operand => .unary id op operand.keyless
  | .increment id operand => .increment id operand.keyless
  | .assign id target op value => .assign id target.keyless op value.keyless
  | .spread id value => .spread id value.keyless
  | .array id elements => .array id (keylessExprs elements)
  | .object id properties => .object id (keylessProperties properties)
  | .call id callee args => .call id callee.keyless (keylessExprs args)
  | .function id func => .function id func.keyless

/-- The same for expressions. -/
def keylessExprs : List Expr → List Expr
  | [] => []
  | e :: es => e.keyless :: keylessExprs es

/-- The same for properties. -/
def keylessProperties : List Property → List Property
  | [] => []
  | .named key value :: ps => .named key value.keyless :: keylessProperties ps
  | .computed _ value :: ps => .named "" value.keyless :: keylessProperties ps

/-- The same for a function. -/
def Function.keyless : Function → Function
  | .mk params returnType body => .mk params returnType (keylessStmts body)

/-- The same for a declaration. -/
def VarDecl.keyless : VarDecl → VarDecl
  | .mk kind binding ty none => .mk kind binding ty none
  | .mk kind binding ty (some e) => .mk kind binding ty (some e.keyless)

/-- The same for methods. -/
def keylessMethods : List Method → List Method
  | [] => []
  | .mk id name isStatic func :: ms => .mk id name isStatic func.keyless :: keylessMethods ms

/-- The same for what follows the block of an `if`. -/
def Else.keyless : Else → Else
  | .none => .none
  | .elseIf s => .elseIf s.keyless
  | .block body => .block (keylessStmts body)

/-- The same for a statement. -/
def Stmt.keyless : Stmt → Stmt
  | .var id decl => .var id decl.keyless
  | .functionDecl id name exported func => .functionDecl id name exported func.keyless
  | .classDecl id name methods => .classDecl id name (keylessMethods methods)
  | .expr id e => .expr id e.keyless
  | .returnStmt id none => .returnStmt id none
  | .returnStmt id (some e) => .returnStmt id (some e.keyless)
  | .exportAssign id e => .exportAssign id e.keyless
  | .ifStmt id cond thenBlock branch =>
    .ifStmt id cond.keyless (keylessStmts thenBlock) branch.keyless
  | .forLoop id init test update body =>
    .forLoop id init.keyless test.keyless update.keyless (keylessStmts body)
  | .forOf id binding iterable body => .forOf id binding iterable.keyless (keylessStmts body)
  | .whileLoop id cond body => .whileLoop id cond.keyless (keylessStmts body)
  | .breakStmt id => .breakStmt id

/-- The same for statements. -/
def keylessStmts : List Stmt → List Stmt
  | [] => []
  | s :: ss => s.keyless :: keylessStmts ss

end

theorem Expr.id_keyless (e : Expr) : e.keyless.id = e.id := by
  cases e <;> rfl

mutual

theorem infer?_keyless (scopes : Scopes) : ∀ e : Expr, infer? scopes e.keyless = infer? scopes e
  | .binary _ lhs op rhs => by
    cases op <;> simp [Expr.keyless, infer?, infer?_keyless scopes lhs, infer?_keyless scopes rhs]
  | .unary _ op _ => by cases op <;> rfl
  | .assign _ _ _ value => infer?_keyless scopes value
  | .array _ elements => by
    simp [Expr.keyless, infer?, inferAll?_keyless scopes elements]
  | .ident .. | .number .. | .string .. | .bool .. | .increment .. | .member .. | .element ..
  | .spread .. | .object .. | .call .. | .function .. => rfl

theorem inferAll?_keyless (scopes : Scopes) : ∀ es : List Expr,
    inferAll? scopes (keylessExprs es) = inferAll? scopes es
  | [] => rfl
  | e :: es => by
    simp [keylessExprs, inferAll?, infer?_keyless scopes e, inferAll?_keyless scopes es]

end

end Target

namespace Checker

open Target

theorem expectDeclared_keyless (e : Expr) (expected : Option Ty) (span : Span) (c : Checker) :
    c.expectDeclared e.keyless expected span = c.expectDeclared e expected span := by
  cases expected with
  | none => rfl
  | some ty => simp [expectDeclared, expect, Checker.infer?, infer?_keyless]

mutual

theorem expr_keyless : ∀ (e : Expr) (c : Checker), expr e.keyless c = expr e c
  | .ident .., _ | .number .., _ | .string .., _ | .bool .., _ => rfl
  | .member _ object _, c => expr_keyless object c
  | .element _ object index, c => by
    rw [Expr.keyless, expr, expr, expr_keyless object, expr_keyless index]
  | .binary _ lhs _ rhs, c => by
    rw [Expr.keyless, expr, expr, expr_keyless lhs, expr_keyless rhs]
  | .unary _ _ operand, c | .increment _ operand, c => expr_keyless operand c
  | .assign id target op value, c => by
    have htarget := expr_keyless target
    have hvalue := expr_keyless value
    by_cases hname : ∃ i name, target = .ident i name ∧ op = .assign
    · obtain ⟨i, name, rfl, rfl⟩ := hname
      simp only [Expr.keyless, expr, hvalue, expectDeclared_keyless]
    · have hkeyless : ¬∃ i name, target.keyless = .ident i name ∧ op = .assign := by
        cases target <;> simp_all [Expr.keyless]
      rw [Expr.keyless, expr_assign hkeyless, expr_assign hname, hvalue, htarget]
  | .spread _ value, c => expr_keyless value c
  | .array _ elements, c => exprs_keyless elements c
  | .object _ properties, c => propertyValues_keyless properties c
  | .call _ callee args, c => by
    rw [Expr.keyless, expr, expr, expr_keyless callee, exprs_keyless args]
  | .function _ func, c => function_keyless func c

theorem exprs_keyless : ∀ (es : List Expr) (c : Checker), exprs (keylessExprs es) c = exprs es c
  | [], _ => rfl
  | e :: es, c => by rw [keylessExprs, exprs, exprs, expr_keyless e, exprs_keyless es]

theorem propertyValues_keyless : ∀ (ps : List Property) (c : Checker),
    propertyValues (keylessProperties ps) c = propertyValues ps c
  | [], _ => rfl
  | .named _ value :: ps, c | .computed _ value :: ps, c => by
    rw [keylessProperties, propertyValues, propertyValues, expr_keyless value,
      propertyValues_keyless ps]

theorem function_keyless : ∀ (func : Function) (c : Checker),
    function func.keyless c = function func c
  | .mk _ _ body, c => by rw [Function.keyless, function, function, block_keyless body]

theorem varDecl_keyless (span : Span) : ∀ (decl : VarDecl) (c : Checker),
    varDecl span decl.keyless c = varDecl span decl c
  | .mk _ _ _ none, _ => rfl
  | .mk _ _ _ (some e), c => by
    simp only [VarDecl.keyless, varDecl, expr_keyless e, expectDeclared_keyless]

theorem methods_keyless : ∀ (ms : List Method) (c : Checker),
    methods (keylessMethods ms) c = methods ms c
  | [], _ => rfl
  | .mk _ _ _ func :: ms, c => by
    rw [keylessMethods, methods, methods, function_keyless func, methods_keyless ms]

theorem elseBranch_keyless : ∀ (branch : Else) (c : Checker),
    elseBranch branch.keyless c = elseBranch branch c
  | .none, _ => rfl
  | .elseIf s, c => stmt_keyless s c
  | .block body, c => by rw [Else.keyless, elseBranch, elseBranch, block_keyless body]

theorem stmt_keyless : ∀ (s : Stmt) (c : Checker), stmt s.keyless c = stmt s c
  | .var id decl, c => varDecl_keyless _ decl c
  | .functionDecl _ _ _ func, c => function_keyless func _
  | .classDecl _ _ ms, c => methods_keyless ms _
  | .expr _ e, c | .exportAssign _ e, c => expr_keyless e c
  | .returnStmt _ none, _ | .breakStmt _, _ => rfl
  | .returnStmt _ (some e), c => by
    simp only [Stmt.keyless, stmt, expr_keyless e, expectDeclared_keyless, Expr.id_keyless]
  | .ifStmt _ cond thenBlock branch, c => by
    rw [Stmt.keyless, stmt, stmt, expr_keyless cond, block_keyless thenBlock,
      elseBranch_keyless branch]
  | .forLoop _ init test update body, c => by
    simp only [Stmt.keyless, stmt, varDecl_keyless _ init, expr_keyless test, expr_keyless update,
      block_keyless body]
  | .forOf _ _ iterable body, c => by
    simp only [Stmt.keyless, stmt, expr_keyless iterable, block_keyless body]
  | .whileLoop _ cond body, c => by
    rw [Stmt.keyless, stmt, stmt, expr_keyless cond, block_keyless body]

/-- What stands in computed keys makes no difference. -/
theorem block_keyless : ∀ (ss : List Stmt) (c : Checker), block (keylessStmts ss) c = block ss c
  | [], _ => rfl
  | s :: ss, c => by rw [keylessStmts, block, block, stmt_keyless s, block_keyless ss]

end

end Checker

open Target

/-- **Which declarations are checked.** The declaration of a variable whose initial value is a
literal of a type that does not fit is found, with its place, wherever it stands outside of computed
keys: in blocks, loops, methods, declared functions and functions inside of expressions. What stands
in computed keys is not looked at, so nothing is found there. -/
theorem mem_check_outside_keys (stmts : List Stmt) (p : Provenance) :
    (∀ id kind binding ty e found,
      .var id (.mk kind binding (some ty) (some e)) ∈ statementsOf false stmts →
      e.literalType? = some found → found.isAssignable ty = false →
      ⟨ty, found, p.get id⟩ ∈ check stmts p) ∧
    check (keylessStmts stmts) p = check stmts p := by
  constructor
  · intro id kind binding ty e found hmem hliteral hmisfit
    have hchecked := Checker.checks_block stmts (.initial p) (List.cons_ne_nil _ _)
    refine hchecked.found _ hmem _ ?_
    simp [Stmt.finding?, VarDecl.finding?, hliteral, hmisfit, Checker.initial]
  · rw [check, check, Checker.block_keyless]

/-- A function that declares a variable as a text and gives it a truth value. -/
def misfitFunction : Expr :=
  .function 3 (.mk [] none [.var 2 (.mk .let (.ident "x") (some .string) (some (.bool 1 true)))])

/-- The function is passed to another one, in a loop. -/
def passedFunction : List Stmt :=
  [.whileLoop 6 (.ident 0 "c") [.expr 5 (.call 4 (.ident 7 "f") [misfitFunction])]]

theorem mem_check_passedFunction :
    ⟨.string, .boolean, Provenance.empty.get 2⟩ ∈ check passedFunction .empty := by
  refine (mem_check_outside_keys passedFunction .empty).1 2 .let (.ident "x") .string (.bool 1 true)
    .boolean ?_ rfl ?_
  · simp [passedFunction, misfitFunction, statementsOf, Stmt.statements, Expr.statements,
      exprStatements, Function.statements, VarDecl.statements]
  · simp [Ty.isAssignable]

/-- The function is a computed key of an object. -/
def keyedFunction : List Stmt :=
  [.expr 7 (.assign 6 (.ident 0 "t") .assign (.object 5 [.computed misfitFunction (.bool 4 true)]))]

/-- The misfit stands in the tree and is not found. -/
theorem check_keyedFunction :
    .var 2 (.mk .let (.ident "x") (some .string) (some (.bool 1 true))) ∈
        statementsOf true keyedFunction ∧
      (Expr.bool 1 true).literalType? = some .boolean ∧
      Ty.isAssignable .boolean .string = false ∧
      check keyedFunction .empty = [] := by
  refine ⟨?_, rfl, ?_, rfl⟩
  · simp [keyedFunction, misfitFunction, statementsOf, Stmt.statements, Expr.statements,
      propertyStatements, Function.statements, VarDecl.statements]
  · simp [Ty.isAssignable]

end LuaTranspiler
