import LuaTranspiler.Proofs.Lowering.Support
import Mathlib.Data.List.Perm.Basic

/-!
# Functions and the tags that speak of them

The tags above a statement speak of the parameters of the functions that stand in it. They do not
speak of the functions in its blocks, whose statements have tags of their own. A block is treated as
a function without parameters where it is not the body of a function.

A rewritten block loses its first statement, and with it all functions inside. Of its other
statements the functions under a member are lowered first.

* `Expr.functions`, `Stmt.scopes`: the functions directly inside an expression or a statement
* `survivors`: the statements of a block that are lowered
* `documented`: the functions in a block, at every depth, each with its tags
* `perm_documented`: they are the same in the order of the source and in that of the lowering
* `inspect?`: what is seen of the run on a source
-/

namespace LuaTranspiler

namespace Source

/-! ### Functions directly inside -/

mutual

/-- The functions in an expression that are in no other function of it, in order. -/
def Expr.functions : Expr → List Function
  | .ident .. | .literal .. => []
  | .member base .. => base.functions
  | .index base index _ => base.functions ++ index.functions
  | .unary _ operand _ => operand.functions
  | .binary lhs _ rhs _ | .logical lhs _ rhs _ => lhs.functions ++ rhs.functions
  | .table fields _ => functionsOfFields fields
  | .call base args _ => base.functions ++ functionsOf args
  | .stringCall base argument _ | .tableCall base argument _ =>
    base.functions ++ argument.functions
  | .function func _ => [func]

/-- The same for expressions. -/
def functionsOf : List Expr → List Function
  | [] => []
  | e :: es => e.functions ++ functionsOf es

/-- The same for fields. -/
def functionsOfFields : List Field → List Function
  | [] => []
  | .keyed key value _ :: fs => key.functions ++ (value.functions ++ functionsOfFields fs)
  | .named _ value _ :: fs | .positional value _ :: fs => value.functions ++ functionsOfFields fs

end

/-- A block as a function that takes nothing. -/
def Block.bare (b : Block) : Function := .mk [] b

@[simp] theorem Block.params_bare (b : Block) : b.bare.params = [] := rfl

@[simp] theorem Block.body_bare (b : Block) : b.bare.body = b := rfl

/-- The blocks of clauses, and the functions in their conditions. -/
def scopesOfClauses : List Clause → List Function
  | [] => []
  | .mk cond block :: cs => cond.functions ++ (block.bare :: scopesOfClauses cs)

/-- The functions and blocks inside a statement that are in no other block of it, in order. -/
def Stmt.scopes : Stmt → List Function
  | .localDecl _ init _ => functionsOf init
  | .assign targets init _ => functionsOf targets ++ functionsOf init
  | .call e _ => e.functions
  | .functionDecl name _ func _ => name.functions ++ [func]
  | .returnStmt values _ => functionsOf values
  | .ifStmt cond thenBlock clauses elseBlock _ => cond.functions ++
      (thenBlock.bare :: (scopesOfClauses clauses ++ elseBlock.toList.map Block.bare))
  | .whileLoop cond block _ => cond.functions ++ [block.bare]
  | .forNumeric _ start stop step block _ =>
    start.functions ++ (stop.functions ++ (functionsOf step.toList ++ [block.bare]))
  | .forGeneric _ iterators block _ => functionsOf iterators ++ [block.bare]
  | .repeatLoop block cond _ => block.bare :: cond.functions
  | .doBlock block _ => [block.bare]
  | .breakStmt _ | .goto .. | .label .. => []

section Bodies

attribute [local simp] Expr.functions Expr.inner functionsOf innerOfExprs functionsOfFields
  innerOfFields

mutual

theorem Expr.map_body_functions : ∀ e : Expr, e.functions.map Function.body = e.inner
  | .ident .. | .literal .. => rfl
  | .member base .. | .unary _ base _ => by simpa using base.map_body_functions
  | .index lhs rhs _ | .binary lhs _ rhs _ | .logical lhs _ rhs _ | .stringCall lhs rhs _
  | .tableCall lhs rhs _ => by simp [lhs.map_body_functions, rhs.map_body_functions]
  | .table fields _ => by simpa using map_body_functionsOfFields fields
  | .call base args _ => by simp [base.map_body_functions, map_body_functionsOf args]
  | .function func _ => rfl

theorem map_body_functionsOf : ∀ es : List Expr,
    (functionsOf es).map Function.body = innerOfExprs es
  | [] => rfl
  | e :: es => by simp [e.map_body_functions, map_body_functionsOf es]

theorem map_body_functionsOfFields : ∀ fs : List Field,
    (functionsOfFields fs).map Function.body = innerOfFields fs
  | [] => rfl
  | .keyed key value _ :: fs => by
    simp [key.map_body_functions, value.map_body_functions, map_body_functionsOfFields fs]
  | .named _ value _ :: fs | .positional value _ :: fs => by
    simp [value.map_body_functions, map_body_functionsOfFields fs]

end

theorem map_body_scopesOfClauses (cs : List Clause) :
    (scopesOfClauses cs).map Function.body = innerOfClauses cs := by
  induction cs with
  | nil => rfl
  | cons c cs ih =>
    obtain ⟨cond, block⟩ := c
    simp [scopesOfClauses, innerOfClauses, cond.map_body_functions, ih]

/-- The bodies of the scopes of a statement are the blocks directly inside it. -/
theorem Stmt.map_body_scopes (s : Stmt) : s.scopes.map Function.body = s.inner := by
  cases s <;> simp [Stmt.scopes, Stmt.inner, Expr.map_body_functions, map_body_functionsOf,
    map_body_scopesOfClauses, Function.comp_def]

end Bodies

theorem Stmt.body_mem_inner {s : Stmt} {f : Function} (h : f ∈ s.scopes) : f.body ∈ s.inner := by
  rw [← s.map_body_scopes]
  exact List.mem_map_of_mem h

theorem Stmt.scopes_functionDecl {name : Expr} {isLocal : Bool} {func : Function} {span : Span}
    (h : (Stmt.functionDecl name isLocal func span).WellFormed) :
    (Stmt.functionDecl name isLocal func span).scopes = [func] := by
  -- the name holds no blocks, so it holds no functions
  have hinner := Stmt.inner_functionDecl h
  rw [← Stmt.map_body_scopes] at hinner
  have hname : name.functions = [] := by simpa [Stmt.scopes] using hinner
  simp [Stmt.scopes, hname]

end Source

namespace Lowering

open Source (Block Comment Function)

/-! ### Statements that are lowered -/

/-- Whether a block is rewritten, so that its first statement is lost. -/
def isRewritten (ctx : Context) (top : Bool) (b : Block) : Bool :=
  match shapeOf ctx top b.start b.stmts with
  | .plain => false
  | .moduleBlock | .classBlock .. => true

theorem isRewritten_iff {ctx : Context} {top : Bool} {b : Block} :
    isRewritten ctx top b = true ↔ ModuleApplies ctx top b ∨ ClassApplies ctx b := by
  obtain ⟨start, stmts⟩ := b
  cases stmts with
  | nil =>
    obtain ⟨hmodule, hclass⟩ := not_applies_nil ctx top start
    exact iff_of_false (by simp [isRewritten, Block.stmts, shapeOf])
      (not_or.2 ⟨hmodule, hclass⟩)
  | cons first rest =>
    rcases shapeOf_cons_cases ctx top start first rest with
      ⟨hshape, hmodule, hclass⟩ | ⟨hshape, hmodule⟩ | ⟨_, _, _, _, -, hshape, -, hclass⟩
    · exact iff_of_false (by simp [isRewritten, Block.start, Block.stmts, hshape])
        (not_or.2 ⟨hmodule, hclass⟩)
    · exact iff_of_true (by simp [isRewritten, Block.start, Block.stmts, hshape]) (.inl hmodule)
    · exact iff_of_true (by simp [isRewritten, Block.start, Block.stmts, hshape]) (.inr hclass)

/-- The statements of a block that are lowered, each with its comments. They are in the order of the
source or, with `lifted`, in that of the lowering. -/
def survivors (ctx : Context) (lifted top : Bool) (b : Block) : List (Source.Stmt × List Comment) :=
  let xs := b.commented ctx.comments
  if isRewritten ctx top b then
    if lifted then members xs.tail ++ others xs.tail else xs.tail
  else xs

section Survivors

variable {ctx : Context} {lifted top : Bool} {start : Nat} {first : Source.Stmt}
  {rest stmts : List Source.Stmt}

theorem survivors_of_plain (h : shapeOf ctx top start stmts = .plain) :
    survivors ctx lifted top (.mk start stmts) =
      Source.commentedFrom ctx.comments start stmts := by
  simp [survivors, isRewritten, Block.commented, Block.start, Block.stmts, h]

theorem isRewritten_of_shape (h : shapeOf ctx top start stmts ≠ .plain) :
    isRewritten ctx top (.mk start stmts) = true := by
  unfold isRewritten
  split
  next hplain => exact absurd hplain h
  next => rfl
  next => rfl

theorem survivors_of_rewritten (h : shapeOf ctx top start (first :: rest) ≠ .plain) :
    survivors ctx false top (.mk start (first :: rest)) =
      Source.commentedFrom ctx.comments first.span.stop rest := by
  rw [survivors, if_pos (isRewritten_of_shape h), if_neg Bool.false_ne_true]
  rfl

/-- Lowering a rewritten block puts the functions under a member first. -/
theorem survivors_lifted (b : Block) :
    survivors ctx true top b = if isRewritten ctx top b then
      members (survivors ctx false top b) ++ others (survivors ctx false top b)
        else survivors ctx false top b := by
  unfold survivors
  split <;> rfl

end Survivors

/-- Every statement is a member or another one. -/
theorem perm_members_others (xs : List (Source.Stmt × List Comment)) :
    (members xs ++ others xs).Perm xs := List.filter_append_perm _ xs

theorem perm_survivors (ctx : Context) (top : Bool) (b : Block) :
    (survivors ctx true top b).Perm (survivors ctx false top b) := by
  unfold survivors
  split
  · exact perm_members_others _
  · exact .refl _

theorem mem_stmts_of_survivors {ctx : Context} {lifted top : Bool} {b : Block}
    {x : Source.Stmt × List Comment} (h : x ∈ survivors ctx lifted top b) : x.1 ∈ b.stmts := by
  have hsource : x ∈ survivors ctx false top b := by
    cases lifted with
    | false => exact h
    | true => exact (perm_survivors ctx top b).mem_iff.1 h
  have hmem : x ∈ b.commented ctx.comments := by
    simp only [survivors] at hsource
    split at hsource
    · exact List.mem_of_mem_tail hsource
    · exact hsource
  have hstmts : (b.commented ctx.comments).map Prod.fst = b.stmts :=
    map_fst_commentedFrom ctx.comments b.start b.stmts
  rw [← hstmts]
  exact List.mem_map_of_mem hmem

/-! ### Functions at every depth -/

/-- The functions and blocks in a block that are lowered, at every depth, each in front of those in
its body and with the tags of the statement that it stands in. -/
def documented (ctx : Context) (lifted top : Bool) (b : Block) : List (Function × List Tag) :=
  (survivors ctx lifted top b).attach.flatMap fun ⟨x, _⟩ => x.1.scopes.attach.flatMap fun ⟨f, _⟩ =>
    (f, Tag.ofComments x.2) :: documented ctx lifted false f.body
termination_by b.blocks.length
decreasing_by
  exact Block.length_blocks_lt (mem_stmts_of_survivors ‹_›) (Source.Stmt.body_mem_inner ‹_›)

/-- The functions `fs` and those in their bodies, where `fs` stand in a statement with the given
tags. -/
def within (ctx : Context) (lifted : Bool) (tags : List Tag) (fs : List Function) :
    List (Function × List Tag) :=
  fs.flatMap fun f => (f, tags) :: documented ctx lifted false f.body

section Within

variable {ctx : Context} {lifted : Bool} {tags : List Tag} {f : Function} {fs gs : List Function}

@[simp] theorem within_nil : within ctx lifted tags [] = [] := rfl

@[simp] theorem within_append :
    within ctx lifted tags (fs ++ gs) =
      within ctx lifted tags fs ++ within ctx lifted tags gs := List.flatMap_append

@[simp] theorem within_cons :
    within ctx lifted tags (f :: fs) =
      (f, tags) :: (documented ctx lifted false f.body ++ within ctx lifted tags fs) := rfl

end Within

/-- The functions in statements with their comments, and those in their bodies. -/
def gathered (ctx : Context) (lifted : Bool) (xs : List (Source.Stmt × List Comment)) :
    List (Function × List Tag) :=
  xs.flatMap fun x => within ctx lifted (Tag.ofComments x.2) x.1.scopes

section Gathered

variable {ctx : Context} {lifted top : Bool} {xs ys : List (Source.Stmt × List Comment)}
  {start : Nat} {first : Source.Stmt} {rest stmts : List Source.Stmt}

@[simp] theorem gathered_nil : gathered ctx lifted [] = [] := rfl

@[simp] theorem gathered_cons {x : Source.Stmt × List Comment} :
    gathered ctx lifted (x :: xs) =
      within ctx lifted (Tag.ofComments x.2) x.1.scopes ++ gathered ctx lifted xs := rfl

@[simp] theorem gathered_append :
    gathered ctx lifted (xs ++ ys) = gathered ctx lifted xs ++ gathered ctx lifted ys :=
  List.flatMap_append

theorem documented_eq (ctx : Context) (lifted top : Bool) (b : Block) :
    documented ctx lifted top b = gathered ctx lifted (survivors ctx lifted top b) := by
  have hattach {α β : Type} (xs : List α) (g : α → List β) :
      (xs.attach.flatMap fun x => g x.1) = xs.flatMap g := by
    rw [List.flatMap_def, List.attach_map_val, List.flatMap_def]
  have hscopes (x : Source.Stmt × List Comment) := hattach x.1.scopes fun f =>
    (f, Tag.ofComments x.2) :: documented ctx lifted false f.body
  rw [documented]
  simp only [hscopes]
  exact hattach (survivors ctx lifted top b) fun x =>
    within ctx lifted (Tag.ofComments x.2) x.1.scopes

theorem documented_of_plain (h : shapeOf ctx top start stmts = .plain) :
    documented ctx lifted top (.mk start stmts) =
      gathered ctx lifted (Source.commentedFrom ctx.comments start stmts) := by
  rw [documented_eq, survivors_of_plain h]

/-- In a rewritten block the functions under a member come first. -/
theorem documented_of_rewritten (h : shapeOf ctx top start (first :: rest) ≠ .plain) :
    documented ctx true top (.mk start (first :: rest)) =
      gathered ctx true (members (Source.commentedFrom ctx.comments first.span.stop rest)) ++
        gathered ctx true (others (Source.commentedFrom ctx.comments first.span.stop rest)) := by
  rw [documented_eq, survivors_lifted, if_pos (isRewritten_of_shape h), survivors_of_rewritten h,
    gathered_append]

end Gathered

/-- Lowering meets the functions of a block in an order of its own, and each of them once. -/
theorem perm_documented (ctx : Context) (top : Bool) (b : Block) :
    (documented ctx true top b).Perm (documented ctx false top b) := by
  induction b using Block.innerInduction generalizing top with
  | step b ih =>
    rw [documented_eq, documented_eq]
    refine (perm_survivors ctx top b).flatMap fun x hx => .flatMap_left _ fun f hf => .cons _ ?_
    exact ih x.1 (mem_stmts_of_survivors hx) f.body (Source.Stmt.body_mem_inner hf) false

/-! ### Looking at a run -/

section Inspect

variable {α : Type} {module classmod : Bool} {view : List Target.Stmt → State → α}
  {source : String} {value : α}

/-- What is seen of the lowering of a source, if it succeeds. -/
def inspect? (module classmod : Bool) (view : List Target.Stmt → State → α) (source : String) :
    Option α :=
  match Source.parse source with
  | .ok chunk =>
    match lowerChunk module classmod chunk .initial with
    | .ok out st => some (view out st)
    | .error .. => none
  | .error _ => none

theorem exists_of_inspect? (h : inspect? module classmod view source = some value) :
    ∃ chunk out st, Source.parse source = .ok chunk ∧
      lowerChunk module classmod chunk .initial = .ok out st ∧ view out st = value := by
  unfold inspect? at h
  cases hparse : Source.parse source with
  | error e => simp [hparse] at h
  | ok chunk =>
    cases hrun : lowerChunk module classmod chunk .initial with
    | error e st => simp [hparse, hrun] at h
    | ok out st =>
      simp only [hparse, hrun, Option.some.injEq] at h
      exact ⟨chunk, out, st, rfl, hrun, h⟩

end Inspect

end Lowering

end LuaTranspiler
