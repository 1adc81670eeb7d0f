import LuaTranspiler.Lowering.Tree
import Mathlib.Data.List.Forall2

/-!
# Blocks and what they become

A block becomes a list of statements. Nothing of it is lost or doubled: its statements are
translated one by one in order, or, where the block is rewritten, the functions that it declares
under a member come first, as exports or as the methods of a class, and all other statements behind
them, both in the order of the source. The same holds of all blocks inside, at every depth.

* `Stmt.inner`, `Stmt.bodies`: the blocks directly inside a statement, before and after
* `ModuleApplies`, `ClassApplies`: when a block is rewritten
* `Translation`, `Export`, `Method`: what becomes of a single statement
* `BlockOf`: what becomes of a block and of the blocks inside it
* `shapeOf_cons_cases`: the rewrite that is chosen is the one that applies
-/

namespace LuaTranspiler

/-! ### The blocks directly inside -/

namespace Source

mutual

/-- The blocks inside an expression that are in no other block of it. -/
def Expr.inner : Expr → List Block
  | .ident .. | .literal .. => []
  | .member base .. => base.inner
  | .index base index _ => base.inner ++ index.inner
  | .unary _ operand _ => operand.inner
  | .binary lhs _ rhs _ | .logical lhs _ rhs _ => lhs.inner ++ rhs.inner
  | .table fields _ => innerOfFields fields
  | .call base args _ => base.inner ++ innerOfExprs args
  | .stringCall base argument _ | .tableCall base argument _ => base.inner ++ argument.inner
  | .function func _ => [func.body]

/-- The same for expressions. -/
def innerOfExprs : List Expr → List Block
  | [] => []
  | e :: es => e.inner ++ innerOfExprs es

/-- The same for fields. -/
def innerOfFields : List Field → List Block
  | [] => []
  | .keyed key value _ :: fs => key.inner ++ (value.inner ++ innerOfFields fs)
  | .named _ value _ :: fs | .positional value _ :: fs => value.inner ++ innerOfFields fs

end

/-- The blocks of clauses, and those in their conditions. -/
def innerOfClauses : List Clause → List Block
  | [] => []
  | .mk cond block :: cs => cond.inner ++ (block :: innerOfClauses cs)

/-- The blocks inside a statement that are in no other block of it. -/
def Stmt.inner : Stmt → List Block
  | .localDecl _ init _ => innerOfExprs init
  | .assign targets init _ => innerOfExprs targets ++ innerOfExprs init
  | .call e _ => e.inner
  | .functionDecl name _ func _ => name.inner ++ [func.body]
  | .returnStmt values _ => innerOfExprs values
  | .ifStmt cond thenBlock clauses elseBlock _ =>
    cond.inner ++ (thenBlock :: (innerOfClauses clauses ++ elseBlock.toList))
  | .whileLoop cond block _ => cond.inner ++ [block]
  | .forNumeric _ start stop step block _ =>
    start.inner ++ (stop.inner ++ (innerOfExprs step.toList ++ [block]))
  | .forGeneric _ iterators block _ => innerOfExprs iterators ++ [block]
  | .repeatLoop block cond _ => block :: cond.inner
  | .doBlock block _ => [block]
  | .breakStmt _ | .goto .. | .label .. => []

/-- The body of a declared function. -/
def Stmt.declared : Stmt → List Block
  | .functionDecl _ _ func _ => [func.body]
  | _ => []

end Source

namespace Target

/-- The statements of a function. -/
def Function.body : Function → List Stmt
  | mk _ _ body => body

/-- The statements of a method. -/
def Method.body : Method → List Stmt
  | mk _ _ _ func => func.body

mutual

/-- The bodies inside an expression that are in no other body of it. -/
def Expr.bodies : Expr → List (List Stmt)
  | .ident .. | .number .. | .string .. | .bool .. => []
  | .member _ object _ => object.bodies
  | .element _ object index => object.bodies ++ index.bodies
  | .binary _ lhs _ rhs => lhs.bodies ++ rhs.bodies
  | .unary _ _ operand | .increment _ operand => operand.bodies
  | .assign _ target _ value => target.bodies ++ value.bodies
  | .spread _ value => value.bodies
  | .array _ elements => bodiesOfExprs elements
  | .object _ properties => bodiesOfProperties properties
  | .call _ callee args => callee.bodies ++ bodiesOfExprs args
  | .function _ func => [func.body]

/-- The same for expressions. -/
def bodiesOfExprs : List Expr → List (List Stmt)
  | [] => []
  | e :: es => e.bodies ++ bodiesOfExprs es

/-- The same for properties. -/
def bodiesOfProperties : List Property → List (List Stmt)
  | [] => []
  | .named _ value :: ps => value.bodies ++ bodiesOfProperties ps
  | .computed key value :: ps => key.bodies ++ (value.bodies ++ bodiesOfProperties ps)

end

/-- The bodies inside the value of a declaration. -/
def VarDecl.bodies : VarDecl → List (List Stmt)
  | mk _ _ _ init => bodiesOfExprs init.toList

mutual

/-- The bodies inside a statement that are in no other body of it. -/
def Stmt.bodies : Stmt → List (List Stmt)
  | .var _ decl => decl.bodies
  | .functionDecl _ _ _ func => [func.body]
  | .classDecl _ _ methods => methods.map Method.body
  | .expr _ e => e.bodies
  | .returnStmt _ value => bodiesOfExprs value.toList
  | .exportAssign _ value => value.bodies
  | .ifStmt _ cond thenBlock elseBranch => cond.bodies ++ (thenBlock :: elseBranch.bodies)
  | .forLoop _ init test update body =>
    init.bodies ++ (test.bodies ++ (update.bodies ++ [body]))
  | .forOf _ _ iterable body => iterable.bodies ++ [body]
  | .whileLoop _ cond body => cond.bodies ++ [body]
  | .breakStmt _ => []

/-- The bodies behind the first of an `if`. -/
def Else.bodies : Else → List (List Stmt)
  | .none => []
  | .elseIf stmt => stmt.bodies
  | .block body => [body]

end

end Target

namespace Lowering

open Source (Block Comment)

/-! ### What becomes of a block -/

/-- A block is rewritten as a module: it is that of the whole source, and opens with a `local` that
is marked as a module and followed by no function under a path of two or more members. -/
def ModuleApplies (ctx : Context) (top : Bool) (b : Block) : Prop :=
  ctx.module = true ∧ top = true ∧ ∃ first cs rest,
    b.commented ctx.comments = (first, cs) :: rest ∧ first.isLocalDecl = true ∧
    (Tag.moduleName? (Tag.ofComments cs)).isSome = true ∧
    ∀ x ∈ rest, x.1.isNestedMemberDecl = false

/-- A block may be rewritten as a class: it opens with a `local` of some name that is marked as a
class. -/
def ClassApplies (ctx : Context) (b : Block) : Prop :=
  ctx.classmod = true ∧ ∃ name names init span cs rest,
    b.commented ctx.comments = (.localDecl (name :: names) init span, cs) :: rest ∧
    (Tag.className? (Tag.ofComments cs)).isSome = true

/-- The statement that lowering makes of a statement with its comments, which it is recorded to
come from. -/
structure Translation (ctx : Context) (p : Provenance) (top : Bool)
    (x : Source.Stmt × List Comment) (t : Target.Stmt) : Prop where
  lowered : ∃ st st', lowerStmt ctx top (Tag.ofComments x.2) x.1 st = .ok t st'
  located : p.get? t.id = some x.1.span

/-- A function declared under a member becomes an exported function of that name. -/
inductive Export (ctx : Context) (p : Provenance) :
    Source.Stmt × List Comment → Target.Stmt → Prop
  | intro {base indexer member memberSpan isLocal func span cs id f ty} :
      writtenReturnType span (Tag.ofComments cs) = .ok ty →
      (∃ st st', lowerFunction ctx (Tag.ofComments cs) (indexer = .colon) (some ty) func st =
        .ok f st') →
      p.get? id = some span →
      Export ctx p (.functionDecl (.member base indexer member memberSpan) isLocal func span, cs)
        (.functionDecl id member.text true f)

/-- A function declared under a member becomes a method of that name, a static one unless it takes
the value that it is called on. -/
inductive Method (ctx : Context) (p : Provenance) :
    Source.Stmt × List Comment → Target.Method → Prop
  | intro {base indexer member memberSpan isLocal func span cs id f ty} :
      writtenReturnType span (Tag.ofComments cs) = .ok ty →
      (∃ st st', lowerFunction ctx (Tag.ofComments cs) false (some ty) func st = .ok f st') →
      p.get? id = some span →
      Method ctx p (.functionDecl (.member base indexer member memberSpan) isLocal func span, cs)
        (.mk id member.text (indexer = .dot) f)

/-- The functions declared under a member, in order. -/
def members (xs : List (Source.Stmt × List Comment)) : List (Source.Stmt × List Comment) :=
  xs.filter fun x => x.1.isMemberDecl

theorem members_cons_of_not {x : Source.Stmt × List Comment}
    {xs : List (Source.Stmt × List Comment)} (h : ¬x.1.isMemberDecl = true) :
    members (x :: xs) = members xs := List.filter_cons_of_neg h

theorem members_cons {x : Source.Stmt × List Comment}
    {xs : List (Source.Stmt × List Comment)} (h : x.1.isMemberDecl = true) :
    members (x :: xs) = x :: members xs := List.filter_cons_of_pos h

/-- All other statements, in order. -/
def others (xs : List (Source.Stmt × List Comment)) : List (Source.Stmt × List Comment) :=
  xs.filter fun x => !x.1.isMemberDecl

/-- What becomes of a block and of the blocks inside it, at every depth. The last premise of each
case pairs the blocks inside the statements with the bodies inside what they become. -/
inductive BlockOf (ctx : Context) (p : Provenance) : Bool → Block → List Target.Stmt → Prop
  /-- Where no rewrite applies, each statement is translated. -/
  | plain {top b out} :
      ¬ModuleApplies ctx top b → ¬ClassApplies ctx b →
      List.Forall₂ (Translation ctx p top) (b.commented ctx.comments) out →
      List.Forall₂ (List.Forall₂ (BlockOf ctx p false))
        ((b.commented ctx.comments).map fun x => x.1.inner) (out.map Target.Stmt.bodies) →
      BlockOf ctx p top b out
  /-- A module loses its first statement, and its exports come first. -/
  | moduleBlock {b first rest exports remaining} :
      ModuleApplies ctx true b → b.commented ctx.comments = first :: rest →
      List.Forall₂ (Export ctx p) (members rest) exports →
      List.Forall₂ (Translation ctx p true) (others rest) remaining →
      List.Forall₂ (List.Forall₂ (BlockOf ctx p false))
        ((members rest).map (fun x => x.1.declared) ++ (others rest).map fun x => x.1.inner)
        ((exports ++ remaining).map Target.Stmt.bodies) →
      BlockOf ctx p true b (exports ++ remaining)
  /-- The first statement of a class becomes the class, with its methods. -/
  | classBlock {top b name names init span cs rest id methods remaining} :
      ¬ModuleApplies ctx top b → ClassApplies ctx b →
      b.commented ctx.comments = (.localDecl (name :: names) init span, cs) :: rest →
      p.get? id = some span →
      List.Forall₂ (Method ctx p) (members rest) methods →
      List.Forall₂ (Translation ctx p top) (others rest) remaining →
      List.Forall₂ (List.Forall₂ (BlockOf ctx p false))
        ((members rest).flatMap (fun x => x.1.declared) :: (others rest).map fun x => x.1.inner)
        ((.classDecl id name.text methods :: remaining).map Target.Stmt.bodies) →
      BlockOf ctx p top b (.classDecl id name.text methods :: remaining)

/-! ### Which case applies -/

theorem map_fst_commentedFrom (comments : List Comment) (floor : Nat) (ss : List Source.Stmt) :
    (Source.commentedFrom comments floor ss).map Prod.fst = ss := by
  induction ss generalizing floor with
  | nil => rfl
  | cons s ss ih => rw [Source.commentedFrom, List.map_cons, ih]

theorem forall_commentedFrom {comments : List Comment} {floor : Nat} {ss : List Source.Stmt}
    {q : Source.Stmt → Bool} :
    (∀ x ∈ Source.commentedFrom comments floor ss, q x.1 = false) ↔ ss.any q = false := by
  rw [List.any_eq_false]
  constructor
  · intro h s hs
    rw [← map_fst_commentedFrom comments floor ss] at hs
    obtain ⟨x, hx, rfl⟩ := List.mem_map.1 hs
    simp [h x hx]
  · intro h x hx
    have hmem := List.mem_map_of_mem (f := Prod.fst) hx
    rw [map_fst_commentedFrom] at hmem
    simpa using h x.1 hmem

section Shape

variable {ctx : Context} {top : Bool} {start : Nat} {first : Source.Stmt}
  {rest : List Source.Stmt}

theorem not_applies_of_not_local (hfirst : first.isLocalDecl = false) :
    ¬ModuleApplies ctx top (.mk start (first :: rest)) ∧
      ¬ClassApplies ctx (.mk start (first :: rest)) := by
  constructor
  · rintro ⟨-, -, _, cs, rest, h, hlocal, -⟩
    cases h
    simp [hfirst] at hlocal
  · rintro ⟨-, name, names, init, span, cs, rest, h, -⟩
    cases h
    simp [Source.Stmt.isLocalDecl] at hfirst

theorem moduleApplies_local {names : List Source.Name} {init : List Source.Expr} {span : Span} :
    ModuleApplies ctx top (.mk start (.localDecl names init span :: rest)) ↔
      (ctx.module && top && (Tag.moduleName? (Source.tagsAbove ctx.comments start
        (.localDecl names init span))).isSome &&
          !rest.any Source.Stmt.isNestedMemberDecl) = true := by
  simp only [Bool.and_eq_true, Bool.not_eq_true']
  constructor
  · rintro ⟨hmodule, htop, _, cs, rest', h, -, htag, hrest⟩
    cases h
    exact ⟨⟨⟨hmodule, htop⟩, htag⟩, forall_commentedFrom.1 hrest⟩
  · rintro ⟨⟨⟨hmodule, htop⟩, htag⟩, hrest⟩
    exact ⟨hmodule, htop, _, _, _, rfl, rfl, htag, forall_commentedFrom.2 hrest⟩

theorem classApplies_local {names : List Source.Name} {init : List Source.Expr} {span : Span} :
    ClassApplies ctx (.mk start (.localDecl names init span :: rest)) ↔
      (ctx.classmod && (Tag.className? (Source.tagsAbove ctx.comments start
        (.localDecl names init span))).isSome) = true ∧ names ≠ [] := by
  simp only [Bool.and_eq_true]
  constructor
  · rintro ⟨hclass, name, names, init, span, cs, rest, h, htag⟩
    cases h
    exact ⟨⟨hclass, htag⟩, List.cons_ne_nil _ _⟩
  · rintro ⟨⟨hclass, htag⟩, hne⟩
    obtain ⟨name, names, rfl⟩ := List.exists_cons_of_ne_nil hne
    exact ⟨hclass, name, names, _, _, _, _, rfl, htag⟩

theorem not_applies_nil (ctx : Context) (top : Bool) (start : Nat) :
    ¬ModuleApplies ctx top (.mk start []) ∧ ¬ClassApplies ctx (.mk start []) := by
  constructor
  · rintro ⟨-, -, _, _, _, h, -⟩
    cases h
  · rintro ⟨-, _, _, _, _, _, _, h, -⟩
    cases h

/-- How the shape of a block is chosen: as a module before as a class. -/
theorem shapeOf_cons_cases (ctx : Context) (top : Bool) (start : Nat) (first : Source.Stmt)
    (rest : List Source.Stmt) :
    (shapeOf ctx top start (first :: rest) = .plain ∧
      ¬ModuleApplies ctx top (.mk start (first :: rest)) ∧
      ¬ClassApplies ctx (.mk start (first :: rest))) ∨
    (shapeOf ctx top start (first :: rest) = .moduleBlock ∧
      ModuleApplies ctx top (.mk start (first :: rest))) ∨
    ∃ name names init span, first = .localDecl (name :: names) init span ∧
      shapeOf ctx top start (first :: rest) = .classBlock name.text span ∧
      ¬ModuleApplies ctx top (.mk start (first :: rest)) ∧
      ClassApplies ctx (.mk start (first :: rest)) := by
  match first with
  | .localDecl names init span =>
    rw [moduleApplies_local, classApplies_local]
    simp only [shapeOf]
    by_cases hmodule : (ctx.module && top && (Tag.moduleName? (Source.tagsAbove ctx.comments start
        (.localDecl names init span))).isSome && !rest.any Source.Stmt.isNestedMemberDecl) = true
    · rw [if_pos hmodule]
      exact .inr (.inl ⟨rfl, hmodule⟩)
    · rw [if_neg hmodule]
      split
      next hclass =>
        cases names with
        | nil => exact .inl ⟨rfl, hmodule, fun h => h.2 rfl⟩
        | cons name names =>
          exact .inr (.inr ⟨name, names, init, span, rfl, rfl, hmodule, hclass,
            List.cons_ne_nil _ _⟩)
      next hclass => exact .inl ⟨rfl, hmodule, fun h => hclass h.1⟩
  | .assign .. | .call .. | .functionDecl .. | .returnStmt .. | .ifStmt .. | .whileLoop ..
  | .forNumeric .. | .forGeneric .. | .breakStmt .. | .repeatLoop .. | .doBlock .. | .goto ..
  | .label .. => exact .inl ⟨rfl, not_applies_of_not_local rfl⟩

theorem lowerBlock_plain {stmts : List Source.Stmt}
    (h : shapeOf ctx top start stmts = .plain) :
    lowerBlock ctx top (.mk start stmts) = lowerStmts ctx top (fun _ => true) start stmts := by
  rw [lowerBlock.eq_def]
  simp only [h]

theorem lowerBlock_module (h : shapeOf ctx top start (first :: rest) = .moduleBlock) :
    lowerBlock ctx top (.mk start (first :: rest)) = do
      let exports ← lowerExports ctx first.span.stop rest
      let others ← lowerStmts ctx top (!·.isMemberDecl) first.span.stop rest
      return exports ++ others := by
  rw [lowerBlock.eq_def]
  simp only [h]

theorem lowerBlock_class {name : String} {span : Span}
    (h : shapeOf ctx top start (first :: rest) = .classBlock name span) :
    lowerBlock ctx top (.mk start (first :: rest)) = do
      let methods ← lowerMethods ctx first.span.stop rest
      let t ← node span (.classDecl · name methods)
      let others ← lowerStmts ctx top (!·.isMemberDecl) first.span.stop rest
      return t :: others := by
  rw [lowerBlock.eq_def]
  simp only [h]

end Shape

end Lowering

end LuaTranspiler
