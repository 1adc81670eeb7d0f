import LuaTranspiler.Target.Provenance
import LuaTranspiler.Typing.Assignable
import LuaTranspiler.Typing.Inference

/-!
# Checking types

Initial values, assignments and returned values are checked against the declared types. What is
found does not change the tree; where a type is not known, nothing is found.

* `Mismatch`: a value whose type does not fit
* `Checker`: the declared names, the return types of the functions around a place and what was found
* `Checker.stmt`, `Checker.block`: checking statements
* `check`: what is found in a whole program
-/

namespace LuaTranspiler

/-- A value of type `found` stands at `span`, where `expected` is declared. -/
structure Mismatch where
  expected : Ty
  found : Ty
  span : Span
deriving DecidableEq

/-- The wording of a mismatch. -/
def Mismatch.message (m : Mismatch) : String :=
  m.span.text ++ " Type '" ++ m.found.text ++ "' is not assignable to type '" ++
    m.expected.text ++ "'."

/-- The state of checking. -/
structure Checker where
  provenance : Provenance
  scopes : Scopes
  /-- The declared return types of the functions around, innermost first. -/
  returns : List (Option Ty)
  mismatches : List Mismatch

namespace Checker

open Target

/-- Nothing is declared but in the outermost block, and nothing was found. -/
def initial (provenance : Provenance) : Checker := ⟨provenance, [[]], [], []⟩

/-- Enters a block. -/
def push (c : Checker) : Checker := { c with scopes := c.scopes.push }

/-- Leaves a block. -/
def pop (c : Checker) : Checker := { c with scopes := c.scopes.pop }

/-- Declares a name. -/
def declare (name : String) (ty : Option Ty) (c : Checker) : Checker :=
  { c with scopes := c.scopes.declare name ty }

/-- Declares names in order, without types. -/
def declareAll : List String → Checker → Checker
  | [], c => c
  | name :: names, c => declareAll names (c.declare name none)

/-- Declares bound names. Only a name by itself takes the type. -/
def declareBinding (ty : Option Ty) (c : Checker) : Binding → Checker
  | .ident name => c.declare name ty
  | .array names => declareAll names c

/-- Declares parameters. One that takes all remaining arguments is an array, which has no type. -/
def declareParams : List Param → Checker → Checker
  | [], c => c
  | p :: ps, c => declareParams ps (c.declare p.name (if p.rest then none else p.ty))

/-- Enters a function. -/
def enter (params : List Param) (returnType : Option Ty) (c : Checker) : Checker :=
  let c := declareParams params c.push
  { c with returns := returnType :: c.returns }

/-- Leaves a function. -/
def leave (c : Checker) : Checker := { c with returns := c.returns.tail, scopes := c.scopes.pop }

/-- The type of an expression here. -/
def infer? (c : Checker) (e : Expr) : Option Ty := Target.infer? c.scopes e

/-- The declaration that a name refers to here. -/
def lookup? (c : Checker) (name : String) : Option (Option Ty) := c.scopes.lookup? name

/-- Checks the type of `e`, as far as it is known, against the declared one. -/
def expect (e : Expr) (expected : Ty) (span : Span) (c : Checker) : Checker :=
  match c.infer? e with
  | none => c
  | some found =>
    if found.isAssignable expected then c
    else { c with mismatches := c.mismatches ++ [⟨expected, found, span⟩] }

/-- Checks `e` against a type, if one is declared. -/
def expectDeclared (e : Expr) (expected : Option Ty) (span : Span) (c : Checker) : Checker :=
  match expected with
  | none => c
  | some ty => c.expect e ty span

/-- The declared return type of the innermost function. -/
def returnType? (c : Checker) : Option Ty := c.returns.head?.join

mutual

/-- Checks an expression: the assignments and functions in it. -/
def expr : Expr → Checker → Checker
  | .assign id target op value, c =>
    let c := expr value c
    match target, op with
    | .ident _ name, .assign =>
      c.expectDeclared value (c.lookup? name).join (c.provenance.get id)
    | _, _ => expr target c
  | .function _ func, c => function func c
  | .member _ object _, c => expr object c
  | .element _ object index, c => expr index (expr object c)
  | .binary _ lhs _ rhs, c => expr rhs (expr lhs c)
  | .unary _ _ operand, c => expr operand c
  | .increment _ operand, c => expr operand c
  | .spread _ value, c => expr value c
  | .array _ elements, c => exprs elements c
  | .object _ properties, c => propertyValues properties c
  | .call _ callee args, c => exprs args (expr callee c)
  | .ident .., c | .number .., c | .string .., c | .bool .., c => c

/-- Checks expressions in order. -/
def exprs : List Expr → Checker → Checker
  | [], c => c
  | e :: es, c => exprs es (expr e c)

/-- Checks the values of properties in order. -/
def propertyValues : List Property → Checker → Checker
  | [], c => c
  | .named _ value :: ps, c => propertyValues ps (expr value c)
  | .computed _ value :: ps, c => propertyValues ps (expr value c)

/-- Checks a function. Its body is in one block with its parameters. -/
def function : Function → Checker → Checker
  | .mk params returnType body, c => (block body (c.enter params returnType)).leave

/-- Checks a declaration and declares its names. -/
def varDecl (span : Span) : VarDecl → Checker → Checker
  | .mk _ binding ty init, c =>
    let c := match init with
      | none => c
      | some e => (expr e c).expectDeclared e ty span
    c.declareBinding ty binding

/-- Checks the methods of a class. -/
def methods : List Method → Checker → Checker
  | [], c => c
  | .mk _ _ _ func :: ms, c => methods ms (function func c)

/-- Checks what follows the block of an `if`. -/
def elseBranch : Else → Checker → Checker
  | .none, c => c
  | .elseIf s, c => stmt s c
  | .block body, c => (block body c.push).pop

/-- Checks a statement. -/
def stmt : Stmt → Checker → Checker
  | .var id decl, c => varDecl (c.provenance.get id) decl c
  | .functionDecl _ name _ func, c => function func (c.declare name none)
  | .classDecl _ name ms, c => methods ms (c.declare name none)
  | .expr _ e, c => expr e c
  | .exportAssign _ e, c => expr e c
  | .returnStmt _ none, c => c
  | .returnStmt _ (some e), c =>
    let c := expr e c
    c.expectDeclared e c.returnType? (c.provenance.get e.id)
  | .ifStmt _ cond thenBlock branch, c =>
    elseBranch branch (block thenBlock (expr cond c).push).pop
  | .forLoop id init test update body, c =>
    let c := expr update (expr test (varDecl (c.provenance.get id) init c.push))
    (block body c.push).pop.pop
  | .forOf _ binding iterable body, c =>
    let c := (expr iterable c).push.declareBinding none binding
    (block body c.push).pop.pop
  | .whileLoop _ cond body, c => (block body (expr cond c).push).pop
  | .breakStmt _, c => c

/-- Checks statements in order, in the block that is entered. -/
def block : List Stmt → Checker → Checker
  | [], c => c
  | s :: ss, c => block ss (stmt s c)

end

end Checker

/-- What is found in a whole program. -/
def check (stmts : List Target.Stmt) (provenance : Provenance) : List Mismatch :=
  (Checker.block stmts (.initial provenance)).mismatches

end LuaTranspiler
