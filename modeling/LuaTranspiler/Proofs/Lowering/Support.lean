import LuaTranspiler.Proofs.Doc.Association
import LuaTranspiler.Proofs.Lowering.Blocks
import LuaTranspiler.Proofs.Source.Rendering

/-!
# What has a counterpart

Which trees can be lowered, said without the lowering: the kinds of statements and operators that
have a counterpart, the tables that are arrays or objects, and the types that may be written in the
tags of a statement. The tags of a statement concern the functions in its expressions, but not those
in its blocks, whose statements have tags of their own.

* `Expr.exprs`, `Stmt.exprs`: the expressions outside the blocks of an expression or a statement
* `Mapped`, `Typed`: what tags may write
* `Supported`: a statement with its tags, apart from its blocks
* `Lowerable`: a block and all blocks inside it
* `Block.innerInduction`: from the blocks inside to the block
-/

namespace LuaTranspiler

namespace Source

/-! ### The expressions of a statement -/

mutual

/-- The expressions inside an expression that are in no block of it. -/
def Expr.nested : Expr → List Expr
  | .ident .. | .literal .. | .function .. => []
  | .member base .. => base :: base.nested
  | .index base index _ => base :: (base.nested ++ index :: index.nested)
  | .unary _ operand _ => operand :: operand.nested
  | .binary lhs _ rhs _ | .logical lhs _ rhs _ => lhs :: (lhs.nested ++ rhs :: rhs.nested)
  | .table fields _ => exprsOfFields fields
  | .call base args _ => base :: (base.nested ++ exprsOf args)
  | .stringCall base argument _ | .tableCall base argument _ =>
    base :: (base.nested ++ argument :: argument.nested)

/-- Expressions and those inside them. -/
def exprsOf : List Expr → List Expr
  | [] => []
  | e :: es => e :: (e.nested ++ exprsOf es)

/-- The same for fields. -/
def exprsOfFields : List Field → List Expr
  | [] => []
  | .keyed key value _ :: fs => key :: (key.nested ++ value :: (value.nested ++ exprsOfFields fs))
  | .named _ value _ :: fs | .positional value _ :: fs =>
    value :: (value.nested ++ exprsOfFields fs)

end

/-- An expression and those inside it that are in no block of it. -/
def Expr.exprs (e : Expr) : List Expr := e :: e.nested

/-- The conditions of clauses. -/
def conditions : List Clause → List Expr
  | [] => []
  | .mk cond _ :: cs => cond :: conditions cs

/-- The expressions that a statement is made of. -/
def Stmt.operands : Stmt → List Expr
  | .localDecl _ init _ => init
  | .assign targets init _ => targets ++ init
  | .call e _ => [e]
  | .functionDecl name _ _ _ => [name]
  | .returnStmt values _ => values
  | .ifStmt cond _ clauses _ _ => cond :: conditions clauses
  | .whileLoop cond _ _ | .repeatLoop _ cond _ => [cond]
  | .forNumeric _ start stop step _ _ => start :: stop :: step.toList
  | .forGeneric _ iterators _ _ => iterators
  | .breakStmt _ | .doBlock .. | .goto .. | .label .. => []

/-- The expressions in a statement that are in no block of it. -/
def Stmt.exprs (s : Stmt) : List Expr := exprsOf s.operands

theorem exprsOf_singleton (e : Expr) : exprsOf [e] = e.exprs := by
  simp [exprsOf, Expr.exprs]

theorem innerOfExprs_singleton (e : Expr) : innerOfExprs [e] = e.inner := by
  simp [innerOfExprs]

theorem exprsOf_append (es es' : List Expr) : exprsOf (es ++ es') = exprsOf es ++ exprsOf es' := by
  induction es with
  | nil => rfl
  | cons e es ih => simp [exprsOf, ih]

end Source

namespace Lowering

open Source (Block Comment Function)

/-! ### Supported statements -/

/-- All names between the bars of a written type are names of types. -/
def Mapped (type : String) : Prop :=
  ∀ name ∈ typeNames type, name ∈ ["number", "string", "boolean", "bool", "nil"]

/-- All types that tags write for what a function returns can be mapped, and so can, for each of its
parameters, the first type that they write for it. -/
def Typed (tags : List Tag) (func : Function) : Prop :=
  (∀ type ∈ Tag.returnTypes tags, Mapped type) ∧
    ∀ p ∈ func.params, ∀ type ∈ (Tag.paramTypes p.tagName tags).head?, Mapped type

/-- An expression has a counterpart if those inside it have. -/
def ExprSupported (tags : List Tag) : Source.Expr → Prop
  | .binary _ op _ _ =>
    op ∉ [.floorDiv, .bitAnd, .bitOr, .bitXor, .shiftLeft, .shiftRight]
  | .table fields _ =>
    (∀ f ∈ fields, f.isPositional = true) ∨ ∀ f ∈ fields, f.isPositional = false
  | .function func _ => Typed tags func
  | _ => True

/-- A statement has a counterpart if its expressions and blocks have. -/
def KindSupported (tags : List Tag) : Source.Stmt → Prop
  | .localDecl [_] _ _ => ∀ type ∈ Tag.localType? tags, Mapped type
  | .functionDecl _ _ func _ => Typed tags func
  | .forGeneric _ iterators _ _ => iterators.length = 1
  | .repeatLoop .. | .doBlock .. | .goto .. | .label .. => False
  | _ => True

/-- A statement has a counterpart if its blocks have. -/
def Supported (tags : List Tag) (s : Source.Stmt) : Prop :=
  KindSupported tags s ∧ ∀ e ∈ s.exprs, ExprSupported tags e

/-- All statements in a block, at every depth, are supported with the tags of their comments. -/
def Lowerable (comments : List Comment) (b : Block) : Prop :=
  ∀ b' ∈ b.blocks, ∀ x ∈ b'.commented comments, Supported (Tag.ofComments x.2) x.1

instance (type : String) : Decidable (Mapped type) :=
  inferInstanceAs (Decidable (∀ name ∈ typeNames type, name ∈ _))

instance (tags : List Tag) (func : Function) : Decidable (Typed tags func) :=
  inferInstanceAs (Decidable (_ ∧ _))

instance (tags : List Tag) : (e : Source.Expr) → Decidable (ExprSupported tags e)
  | .binary _ op _ _ => inferInstanceAs (Decidable (op ∉ _))
  | .table .. => inferInstanceAs (Decidable (_ ∨ _))
  | .function func _ => inferInstanceAs (Decidable (Typed tags func))
  | .ident .. | .literal .. | .member .. | .index .. | .unary .. | .logical .. | .call ..
  | .stringCall .. | .tableCall .. => .isTrue trivial

instance (tags : List Tag) : (s : Source.Stmt) → Decidable (KindSupported tags s)
  | .localDecl [_] _ _ => inferInstanceAs (Decidable (∀ type ∈ Tag.localType? tags, Mapped type))
  | .functionDecl _ _ func _ => inferInstanceAs (Decidable (Typed tags func))
  | .forGeneric _ iterators _ _ => inferInstanceAs (Decidable (iterators.length = 1))
  | .repeatLoop .. | .doBlock .. | .goto .. | .label .. => .isFalse id
  | .localDecl [] _ _ | .localDecl (_ :: _ :: _) _ _ | .assign .. | .call .. | .returnStmt ..
  | .ifStmt .. | .whileLoop .. | .forNumeric .. | .breakStmt _ => .isTrue trivial

instance (tags : List Tag) (s : Source.Stmt) : Decidable (Supported tags s) :=
  inferInstanceAs (Decidable (_ ∧ _))

instance (comments : List Comment) (b : Block) : Decidable (Lowerable comments b) :=
  inferInstanceAs (Decidable (∀ b' ∈ b.blocks, ∀ x ∈ b'.commented comments, _))

end Lowering

/-! ### The blocks inside a block -/

namespace Source

mutual

theorem Expr.blocks_eq : ∀ e : Expr, e.blocks = e.inner.flatMap Block.blocks
  | .ident .. | .literal .. => rfl
  | .member base .. => base.blocks_eq
  | .unary _ operand _ => operand.blocks_eq
  | .index base index _ => by
    rw [Expr.blocks, Expr.inner, List.flatMap_append, base.blocks_eq, index.blocks_eq]
  | .binary lhs _ rhs _ | .logical lhs _ rhs _ => by
    rw [Expr.blocks, Expr.inner, List.flatMap_append, lhs.blocks_eq, rhs.blocks_eq]
  | .table fields _ => fieldBlocks_eq fields
  | .call base args _ => by
    rw [Expr.blocks, Expr.inner, List.flatMap_append, base.blocks_eq, exprBlocks_eq args]
  | .stringCall base argument _ | .tableCall base argument _ => by
    rw [Expr.blocks, Expr.inner, List.flatMap_append, base.blocks_eq, argument.blocks_eq]
  | .function (.mk _ body) _ => (List.flatMap_singleton Block.blocks body).symm

theorem exprBlocks_eq : ∀ es : List Expr, exprBlocks es = (innerOfExprs es).flatMap Block.blocks
  | [] => rfl
  | e :: es => by
    rw [exprBlocks, innerOfExprs, List.flatMap_append, e.blocks_eq, exprBlocks_eq es]

theorem fieldBlocks_eq : ∀ fs : List Field, fieldBlocks fs = (innerOfFields fs).flatMap Block.blocks
  | [] => rfl
  | .keyed key value _ :: fs => by
    rw [fieldBlocks, Field.blocks, innerOfFields, List.flatMap_append, List.flatMap_append,
      key.blocks_eq, value.blocks_eq, fieldBlocks_eq fs, List.append_assoc]
  | .named _ value _ :: fs | .positional value _ :: fs => by
    rw [fieldBlocks, Field.blocks, innerOfFields, List.flatMap_append, value.blocks_eq,
      fieldBlocks_eq fs]

end

theorem clauseBlocks_eq (cs : List Clause) :
    clauseBlocks cs = (innerOfClauses cs).flatMap Block.blocks := by
  induction cs with
  | nil => rfl
  | cons c cs ih =>
    obtain ⟨cond, block⟩ := c
    rw [clauseBlocks, Clause.blocks, innerOfClauses, List.flatMap_append, List.flatMap_cons,
      cond.blocks_eq, ih, List.append_assoc]

theorem Function.blocks_eq (f : Function) : f.blocks = f.body.blocks := by
  obtain ⟨params, body⟩ := f
  rfl

theorem Stmt.blocks_eq (s : Stmt) : s.blocks = s.inner.flatMap Block.blocks := by
  match s with
  | .localDecl _ init _ => exact exprBlocks_eq init
  | .call e _ => exact e.blocks_eq
  | .returnStmt values _ => exact exprBlocks_eq values
  | .assign targets init _ =>
    simp [Stmt.blocks, Stmt.inner, exprBlocks_eq]
  | .functionDecl name _ func _ =>
    simp [Stmt.blocks, Stmt.inner, name.blocks_eq, func.blocks_eq]
  | .ifStmt cond thenBlock clauses elseBlock _ =>
    cases elseBlock <;>
      simp [Stmt.blocks, Stmt.inner, cond.blocks_eq, clauseBlocks_eq, elseBlocks]
  | .whileLoop cond block _ | .repeatLoop block cond _ =>
    simp [Stmt.blocks, Stmt.inner, cond.blocks_eq]
  | .forNumeric _ start stop step block _ =>
    cases step <;>
      simp [Stmt.blocks, Stmt.inner, start.blocks_eq, stop.blocks_eq, stepBlocks, innerOfExprs,
        Expr.blocks_eq]
  | .forGeneric _ iterators block _ => simp [Stmt.blocks, Stmt.inner, exprBlocks_eq]
  | .doBlock block _ => simp [Stmt.blocks, Stmt.inner]
  | .breakStmt _ | .goto .. | .label .. => rfl

theorem stmtBlocks_eq (ss : List Stmt) :
    stmtBlocks ss = (ss.flatMap Stmt.inner).flatMap Block.blocks := by
  induction ss with
  | nil => rfl
  | cons s ss ih =>
    rw [stmtBlocks, List.flatMap_cons, List.flatMap_append, s.blocks_eq, ih]

theorem Block.blocks_eq (b : Block) :
    b.blocks = b :: (b.stmts.flatMap Stmt.inner).flatMap Block.blocks := by
  obtain ⟨start, stmts⟩ := b
  rw [Block.blocks, stmtBlocks_eq]
  rfl

/-- A block counts itself among its blocks, so those inside its statements have fewer. -/
theorem Block.length_blocks_lt {b c : Block} {s : Stmt} (hs : s ∈ b.stmts) (hc : c ∈ s.inner) :
    c.blocks.length < b.blocks.length := by
  have hmem : c ∈ b.stmts.flatMap Stmt.inner := List.mem_flatMap.2 ⟨s, hs, hc⟩
  have hsub := List.sublist_flatten_of_mem (List.mem_map_of_mem (f := Block.blocks) hmem)
  rw [b.blocks_eq, List.length_cons, List.flatMap_def]
  exact Nat.lt_succ_of_le hsub.length_le

/-- What holds of a block whenever it holds of the blocks inside its statements, holds of every
block. -/
theorem Block.innerInduction {motive : Block → Prop}
    (step : ∀ b : Block, (∀ s ∈ b.stmts, ∀ c ∈ s.inner, motive c) → motive b) (b : Block) :
    motive b := by
  induction hn : b.blocks.length using Nat.strong_induction_on generalizing b with
  | _ n ih =>
    refine step b fun s hs c hc => ih c.blocks.length ?_ c rfl
    rw [← hn]
    exact Block.length_blocks_lt hs hc

mutual

theorem Expr.wellFormed_inner : ∀ (e : Expr) {called : Bool}, e.WellFormed called →
    ∀ b ∈ e.inner, b.WellFormed
  | .ident .., _, _ | .literal .., _, _ => List.forall_mem_nil _
  | .member base .., _, h => base.wellFormed_inner h.2
  | .unary _ operand _, _, h => operand.wellFormed_inner h
  | .index base index _, _, h =>
    List.forall_mem_append.2 ⟨base.wellFormed_inner h.1, index.wellFormed_inner h.2⟩
  | .binary lhs _ rhs _, _, h | .logical lhs _ rhs _, _, h =>
    List.forall_mem_append.2 ⟨lhs.wellFormed_inner h.1, rhs.wellFormed_inner h.2⟩
  | .table fields _, _, h => wellFormed_innerOfFields fields h
  | .call base args _, _, h =>
    List.forall_mem_append.2 ⟨base.wellFormed_inner h.1, wellFormed_innerOfExprs args h.2⟩
  | .stringCall base (.literal ..) _, _, h =>
    List.forall_mem_append.2 ⟨base.wellFormed_inner h.1, List.forall_mem_nil _⟩
  | .tableCall base argument _, _, h =>
    List.forall_mem_append.2 ⟨base.wellFormed_inner h.1, argument.wellFormed_inner h.2.2⟩
  | .function (.mk ..) _, _, h => List.forall_mem_singleton.2 h.2

theorem wellFormed_innerOfExprs : ∀ es : List Expr, WellFormedExprs es →
    ∀ b ∈ innerOfExprs es, b.WellFormed
  | [], _ => List.forall_mem_nil _
  | e :: es, h =>
    List.forall_mem_append.2 ⟨e.wellFormed_inner h.1, wellFormed_innerOfExprs es h.2⟩

theorem wellFormed_innerOfFields : ∀ fs : List Field, WellFormedFields fs →
    ∀ b ∈ innerOfFields fs, b.WellFormed
  | [], _ => List.forall_mem_nil _
  | .keyed key value _ :: fs, h => List.forall_mem_append.2 ⟨key.wellFormed_inner h.1.1,
      List.forall_mem_append.2 ⟨value.wellFormed_inner h.1.2, wellFormed_innerOfFields fs h.2⟩⟩
  | .named _ value _ :: fs, h | .positional value _ :: fs, h =>
    List.forall_mem_append.2 ⟨value.wellFormed_inner h.1, wellFormed_innerOfFields fs h.2⟩

end

theorem wellFormed_innerOfClauses : ∀ cs : List Clause, WellFormedClauses cs →
    ∀ b ∈ innerOfClauses cs, b.WellFormed
  | [], _ => List.forall_mem_nil _
  | .mk cond _ :: cs, h => List.forall_mem_append.2 ⟨cond.wellFormed_inner h.1.1,
      List.forall_mem_cons.2 ⟨h.1.2, wellFormed_innerOfClauses cs h.2⟩⟩

theorem Expr.inner_of_isPath : ∀ e : Expr, e.isPath = true → e.inner = []
  | .ident .., _ => rfl
  | .member base .dot _ _, h => base.inner_of_isPath h

/-- A function is declared under a name or under a member of a path. -/
theorem Expr.exists_of_isFunctionName {e : Expr} (h : e.isFunctionName = true) :
    (∃ name span, e = .ident name span) ∨
      ∃ base indexer name span, e = .member base indexer name span ∧ base.isPath = true := by
  cases e with
  | ident name span => exact .inl ⟨name, span, rfl⟩
  | member base indexer name span => exact .inr ⟨base, indexer, name, span, rfl, h⟩
  | literal | index | unary | binary | logical | table | call | stringCall | tableCall | function =>
    cases h

theorem Stmt.isFunctionName_of_wellFormed {name : Expr} {isLocal : Bool} {func : Function}
    {span : Span} (h : (Stmt.functionDecl name isLocal func span).WellFormed) :
    name.isFunctionName = true := by
  match isLocal, name, h with
  | true, .ident .., _ => rfl
  | false, _, h => exact h.1

theorem Stmt.inner_functionDecl {name : Expr} {isLocal : Bool} {func : Function} {span : Span}
    (h : (Stmt.functionDecl name isLocal func span).WellFormed) :
    (Stmt.functionDecl name isLocal func span).inner = [func.body] := by
  rcases Expr.exists_of_isFunctionName (isFunctionName_of_wellFormed h) with
    ⟨_, _, rfl⟩ | ⟨base, _, _, _, rfl, hbase⟩
  · rfl
  · rw [Stmt.inner, Expr.inner, base.inner_of_isPath hbase, List.nil_append]

theorem Expr.wellFormed_of_isString {e : Expr} (h : e.isString = true) : e.WellFormed false := by
  cases e <;> trivial

theorem Expr.wellFormed_of_isPath : ∀ e : Expr, e.isPath = true → e.WellFormed false
  | .ident .., _ => trivial
  | .member base .dot _ _, h => ⟨.inl rfl, base.wellFormed_of_isPath h⟩

theorem Stmt.exists_of_isMemberDecl {s : Stmt} (h : s.isMemberDecl = true) :
    ∃ base indexer member place isLocal func span,
      s = .functionDecl (.member base indexer member place) isLocal func span := by
  cases s with
  | functionDecl name isLocal func span =>
    cases name with
    | member base indexer member place =>
      exact ⟨base, indexer, member, place, isLocal, func, span, rfl⟩
    | ident | literal | index | unary | binary | logical | table | call | stringCall | tableCall
    | function => cases h
  | localDecl | assign | call | returnStmt | ifStmt | whileLoop | forNumeric | forGeneric
  | breakStmt | repeatLoop | doBlock | goto | label => cases h

theorem Stmt.wellFormed_inner {s : Stmt} (h : s.WellFormed) : ∀ b ∈ s.inner, b.WellFormed := by
  match s, h with
  | .localDecl _ init _, h => exact wellFormed_innerOfExprs init h.2
  | .call e _, h => exact e.wellFormed_inner h.2
  | .returnStmt values _, h => exact wellFormed_innerOfExprs values h
  | .assign targets init _, h =>
    exact List.forall_mem_append.2
      ⟨wellFormed_innerOfExprs targets h.2.2.1, wellFormed_innerOfExprs init h.2.2.2.2⟩
  | .functionDecl name isLocal (.mk ..) _, h =>
    rw [Stmt.inner_functionDecl h]
    cases isLocal <;> exact List.forall_mem_singleton.2 h.2.2
  | .ifStmt cond _ clauses elseBlock _, h =>
    refine List.forall_mem_append.2 ⟨cond.wellFormed_inner h.1, List.forall_mem_cons.2 ⟨h.2.1, ?_⟩⟩
    refine List.forall_mem_append.2 ⟨wellFormed_innerOfClauses clauses h.2.2.1, ?_⟩
    cases elseBlock with
    | none => exact List.forall_mem_nil _
    | some _ => exact List.forall_mem_singleton.2 h.2.2.2
  | .whileLoop cond _ _, h =>
    exact List.forall_mem_append.2 ⟨cond.wellFormed_inner h.1, List.forall_mem_singleton.2 h.2⟩
  | .repeatLoop _ cond _, h => exact List.forall_mem_cons.2 ⟨h.2, cond.wellFormed_inner h.1⟩
  | .forNumeric _ start stop step _ _, h =>
    have hstep : ∀ b ∈ innerOfExprs step.toList, b.WellFormed := by
      cases step with
      | none => exact List.forall_mem_nil _
      | some step => exact wellFormed_innerOfExprs [step] ⟨h.2.2.1, trivial⟩
    refine List.forall_mem_append.2 ⟨start.wellFormed_inner h.1, ?_⟩
    refine List.forall_mem_append.2 ⟨stop.wellFormed_inner h.2.1, ?_⟩
    exact List.forall_mem_append.2 ⟨hstep, List.forall_mem_singleton.2 h.2.2.2⟩
  | .forGeneric _ iterators _ _, h =>
    exact List.forall_mem_append.2
      ⟨wellFormed_innerOfExprs iterators h.2.2.1, List.forall_mem_singleton.2 h.2.2.2⟩
  | .doBlock _ _, h => exact List.forall_mem_singleton.2 h
  | .breakStmt _, _ | .goto .., _ | .label .., _ => exact List.forall_mem_nil _

end Source

/-- A block is lowerable if its own statements are supported and the blocks inside them are
lowerable. -/
theorem Lowering.lowerable_iff {comments : List Source.Comment} {b : Source.Block} :
    Lowerable comments b ↔ ∀ x ∈ b.commented comments,
      Supported (Tag.ofComments x.2) x.1 ∧ ∀ c ∈ x.1.inner, Lowerable comments c := by
  have hstmts : b.stmts = (b.commented comments).map Prod.fst :=
    (map_fst_commentedFrom comments b.start b.stmts).symm
  unfold Lowerable
  rw [b.blocks_eq, List.forall_mem_cons, hstmts]
  constructor
  · rintro ⟨hown, hinner⟩ x hx
    refine ⟨hown x hx, fun c hc b' hb' => hinner b' (List.mem_flatMap.2 ⟨c, ?_, hb'⟩)⟩
    exact List.mem_flatMap.2 ⟨x.1, List.mem_map_of_mem hx, hc⟩
  · intro h
    refine ⟨fun x hx => (h x hx).1, fun b' hb' => ?_⟩
    obtain ⟨c, hc, hb'⟩ := List.mem_flatMap.1 hb'
    obtain ⟨s, hs, hc⟩ := List.mem_flatMap.1 hc
    obtain ⟨x, hx, rfl⟩ := List.mem_map.1 hs
    exact (h x hx).2 c hc b' hb'

end LuaTranspiler
