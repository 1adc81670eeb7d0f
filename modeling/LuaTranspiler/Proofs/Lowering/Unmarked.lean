import LuaTranspiler.Proofs.Lowering.Support

/-!
# Options without marks

Lowering looks at its options only when it chooses the shape of a block, and a block gets a shape of
its own only by the mark of the `local` that it opens with. So the options make no difference to a
source without such marks.

* `Source.Block.opensMarked`: whether a block opens with a marked `local`
* `Alike`: blocks that are lowered alike under two contexts
* `lowerExpr_congr`, `lowerStmt_congr`: parts are lowered alike if the blocks inside them are
* `Unmarked`: no mark stands where an option would heed it
* `lowerChunk_eq_of_unmarked`: the main result
-/

namespace LuaTranspiler

/-- Whether a block opens with a `local` whose comments hold a tag that `mark` finds. -/
def Source.Block.opensMarked (mark : List Tag → Option String) (comments : List Source.Comment)
    (b : Source.Block) : Bool :=
  match b.commented comments with
  | [] => false
  | (first, cs) :: _ => first.isLocalDecl && (mark (Tag.ofComments cs)).isSome

namespace Lowering

open Source (Block Comment)

/-! ### Parts of a block -/

section Parts

variable {ctx ctx' : Context} {tags : List Tag}

/-- The blocks are lowered alike under two contexts, as inner blocks. -/
def Alike (ctx ctx' : Context) (bs : List Block) : Prop :=
  ∀ b ∈ bs, lowerBlock ctx false b = lowerBlock ctx' false b

theorem lowerFunction_congr {method : Bool} {ty : Option Ty} {func : Source.Function}
    (h : Alike ctx ctx' [func.body]) :
    lowerFunction ctx tags method ty func = lowerFunction ctx' tags method ty func := by
  obtain ⟨params, body⟩ := func
  rw [lowerFunction, lowerFunction, h body List.mem_cons_self]

mutual

theorem lowerExpr_congr : ∀ e : Source.Expr, Alike ctx ctx' e.inner →
    lowerExpr ctx tags e = lowerExpr ctx' tags e
  | .ident .., _ | .literal .., _ => by rw [lowerExpr, lowerExpr]
  | .member base .., h => by rw [lowerExpr, lowerExpr, lowerExpr_congr base h]
  | .unary _ operand _, h => by rw [lowerExpr, lowerExpr, lowerExpr_congr operand h]
  | .index base index _, h => by
    obtain ⟨hbase, hindex⟩ := List.forall_mem_append.1 h
    rw [lowerExpr, lowerExpr, lowerExpr_congr base hbase, lowerExpr_congr index hindex]
  | .binary lhs op rhs _, h => by
    obtain ⟨hlhs, hrhs⟩ := List.forall_mem_append.1 h
    rw [lowerExpr, lowerExpr, lowerExpr_congr lhs hlhs, lowerExpr_congr rhs hrhs]
  | .logical lhs _ rhs _, h => by
    obtain ⟨hlhs, hrhs⟩ := List.forall_mem_append.1 h
    rw [lowerExpr, lowerExpr, lowerExpr_congr lhs hlhs, lowerExpr_congr rhs hrhs]
  | .table fields _, h => by
    rw [lowerExpr, lowerExpr, lowerElements_congr fields h, lowerProperties_congr fields h]
  | .call base args _, h => by
    obtain ⟨hbase, hargs⟩ := List.forall_mem_append.1 h
    rw [lowerExpr, lowerExpr, lowerExpr_congr base hbase, lowerExprs_congr args hargs]
  | .stringCall base argument _, h | .tableCall base argument _, h => by
    obtain ⟨hbase, hargument⟩ := List.forall_mem_append.1 h
    rw [lowerExpr, lowerExpr, lowerExpr_congr base hbase, lowerExpr_congr argument hargument]
  | .function func _, h => by
    rw [lowerExpr, lowerExpr]
    simp only [lowerFunction_congr h]

theorem lowerExprs_congr : ∀ es : List Source.Expr, Alike ctx ctx' (Source.innerOfExprs es) →
    lowerExprs ctx tags es = lowerExprs ctx' tags es
  | [], _ => by rw [lowerExprs, lowerExprs]
  | e :: es, h => by
    obtain ⟨he, hes⟩ := List.forall_mem_append.1 h
    rw [lowerExprs, lowerExprs, lowerExpr_congr e he, lowerExprs_congr es hes]

theorem lowerElements_congr : ∀ fs : List Source.Field, Alike ctx ctx' (Source.innerOfFields fs) →
    lowerElements ctx tags fs = lowerElements ctx' tags fs
  | [], _ => by rw [lowerElements, lowerElements]
  | .positional value _ :: fs, h => by
    obtain ⟨hvalue, hfs⟩ := List.forall_mem_append.1 h
    rw [lowerElements, lowerElements, lowerExpr_congr value hvalue, lowerElements_congr fs hfs]
  | .named _ _ _ :: fs, h => lowerElements_congr fs (List.forall_mem_append.1 h).2
  | .keyed _ _ _ :: fs, h => by
    have hfs := (List.forall_mem_append.1 (List.forall_mem_append.1 h).2).2
    exact lowerElements_congr fs hfs

theorem lowerProperties_congr : ∀ fs : List Source.Field,
    Alike ctx ctx' (Source.innerOfFields fs) →
    lowerProperties ctx tags fs = lowerProperties ctx' tags fs
  | [], _ => by rw [lowerProperties, lowerProperties]
  | .named _ value _ :: fs, h => by
    obtain ⟨hvalue, hfs⟩ := List.forall_mem_append.1 h
    rw [lowerProperties, lowerProperties, lowerExpr_congr value hvalue,
      lowerProperties_congr fs hfs]
  | .keyed key value _ :: fs, h => by
    obtain ⟨hkey, h⟩ := List.forall_mem_append.1 h
    obtain ⟨hvalue, hfs⟩ := List.forall_mem_append.1 h
    rw [lowerProperties, lowerProperties, lowerExpr_congr key hkey, lowerExpr_congr value hvalue,
      lowerProperties_congr fs hfs]
  | .positional _ _ :: fs, h => by
    rw [lowerProperties, lowerProperties, lowerProperties_congr fs (List.forall_mem_append.1 h).2]

end

theorem lowerTargets_congr (es : List Source.Expr) (h : Alike ctx ctx' (Source.innerOfExprs es)) :
    lowerTargets ctx tags es = lowerTargets ctx' tags es := by
  induction es with
  | nil => rw [lowerTargets, lowerTargets]
  | cons e es ih =>
    obtain ⟨he, hes⟩ := List.forall_mem_append.1 h
    rw [lowerTargets, lowerTargets, lowerExpr_congr e he, ih hes]

theorem lowerClauses_congr (cs : List Source.Clause)
    (h : Alike ctx ctx' (Source.innerOfClauses cs)) :
    lowerClauses ctx tags cs = lowerClauses ctx' tags cs := by
  induction cs with
  | nil => rw [lowerClauses, lowerClauses]
  | cons c cs ih =>
    obtain ⟨cond, block⟩ := c
    obtain ⟨hcond, h⟩ := List.forall_mem_append.1 h
    obtain ⟨hblock, hcs⟩ := List.forall_mem_cons.1 h
    rw [lowerClauses, lowerClauses, lowerExpr_congr cond hcond, hblock, ih hcs]

theorem lowerStmt_congr {top : Bool} (s : Source.Stmt) (h : Alike ctx ctx' s.inner) :
    lowerStmt ctx top tags s = lowerStmt ctx' top tags s := by
  cases s with
  | localDecl names init span => rw [lowerStmt, lowerStmt, lowerExprs_congr init h]
  | assign targets init span =>
    obtain ⟨htargets, hinit⟩ := List.forall_mem_append.1 h
    rw [lowerStmt, lowerStmt, lowerTargets_congr targets htargets, lowerExprs_congr init hinit]
  | call e span => rw [lowerStmt, lowerStmt, lowerExpr_congr e h]
  | functionDecl name isLocal func span =>
    obtain ⟨hname, hfunc⟩ := List.forall_mem_append.1 h
    rw [lowerStmt, lowerStmt]
    simp only [lowerExpr_congr name hname, lowerFunction_congr hfunc]
  | returnStmt values span => rw [lowerStmt, lowerStmt, lowerExprs_congr values h]
  | ifStmt cond thenBlock clauses elseBlock span =>
    obtain ⟨hcond, h⟩ := List.forall_mem_append.1 h
    obtain ⟨hthen, h⟩ := List.forall_mem_cons.1 h
    obtain ⟨hclauses, helse⟩ := List.forall_mem_append.1 h
    rw [lowerStmt, lowerStmt, lowerExpr_congr cond hcond, hthen,
      lowerClauses_congr clauses hclauses]
    cases elseBlock with
    | none => rfl
    | some block =>
      dsimp only
      rw [helse block List.mem_cons_self]
  | whileLoop cond block span =>
    obtain ⟨hcond, hblock⟩ := List.forall_mem_append.1 h
    rw [lowerStmt, lowerStmt, lowerExpr_congr cond hcond, hblock block List.mem_cons_self]
  | forNumeric var start stop step block span =>
    obtain ⟨hstart, h⟩ := List.forall_mem_append.1 h
    obtain ⟨hstop, h⟩ := List.forall_mem_append.1 h
    obtain ⟨hstep, hblock⟩ := List.forall_mem_append.1 h
    rw [lowerStmt, lowerStmt, lowerExpr_congr start hstart, lowerExpr_congr stop hstop,
      hblock block List.mem_cons_self]
    cases step with
    | none => rfl
    | some step =>
      dsimp only
      rw [lowerExpr_congr step (Source.innerOfExprs_singleton step ▸ hstep)]
  | forGeneric vars iterators block span =>
    obtain ⟨hiterators, hblock⟩ := List.forall_mem_append.1 h
    have hblock := hblock block List.mem_cons_self
    -- more than one iterator is refused before any of them is lowered
    rcases iterators with _ | ⟨e, _ | ⟨e', es⟩⟩
    · rw [lowerStmt, lowerStmt, hblock]
    · rw [Source.innerOfExprs_singleton] at hiterators
      rw [lowerStmt, lowerStmt, lowerExpr_congr e hiterators, hblock]
    · rw [lowerStmt, lowerStmt, hblock]
  | breakStmt | repeatLoop | doBlock | goto | label => rw [lowerStmt, lowerStmt]

theorem lowerStmts_congr {top : Bool} {keep : Source.Stmt → Bool} {floor : Nat}
    (hcomments : ctx.comments = ctx'.comments) (ss : List Source.Stmt)
    (h : ∀ s ∈ ss, Alike ctx ctx' s.inner) :
    lowerStmts ctx top keep floor ss = lowerStmts ctx' top keep floor ss := by
  induction ss generalizing floor with
  | nil => rw [lowerStmts, lowerStmts]
  | cons s ss ih =>
    obtain ⟨hs, hss⟩ := List.forall_mem_cons.1 h
    rw [lowerStmts, lowerStmts, hcomments, lowerStmt_congr s hs, ih hss]

end Parts

/-! ### Blocks -/

/-- A block without a mark that is heeded has no shape of its own. -/
theorem shapeOf_of_unmarked {ctx : Context} {top : Bool} {start : Nat} {stmts : List Source.Stmt}
    (hclass : (Block.mk start stmts).opensMarked Tag.className? ctx.comments = false)
    (hmodule : top = true →
      (Block.mk start stmts).opensMarked Tag.moduleName? ctx.comments = false) :
    shapeOf ctx top start stmts = .plain := by
  cases stmts with
  | nil => rfl
  | cons first rest =>
    rcases shapeOf_cons_cases ctx top start first rest with
      ⟨hshape, -⟩ | ⟨-, hmarked⟩ | ⟨name, names, init, span, rfl, -, -, hmarked⟩
    · exact hshape
    · obtain ⟨-, htop, _, cs, rest, hcommented, hlocal, htag, -⟩ := hmarked
      simp [Source.Block.opensMarked, hcommented, hlocal, htag, htop] at hmodule
    · obtain ⟨-, name, names, init, span, cs, rest, hcommented, htag⟩ := hmarked
      simp [Source.Block.opensMarked, hcommented, htag, Source.Stmt.isLocalDecl] at hclass

/-- No block opens with a `local` that is marked as a class, and the outermost one with none that is
marked as a module. -/
def Unmarked (chunk : Source.Chunk) : Prop :=
  (∀ b ∈ chunk.body.blocks, b.opensMarked Tag.className? chunk.comments = false) ∧
    chunk.body.opensMarked Tag.moduleName? chunk.comments = false

instance (chunk : Source.Chunk) : Decidable (Unmarked chunk) :=
  inferInstanceAs (Decidable (_ ∧ _))

/-- A block is lowered alike by all options if there is no mark to heed on it or inside of it. -/
theorem lowerBlock_congr {ctx ctx' : Context} (hcomments : ctx.comments = ctx'.comments)
    (b : Block) (top : Bool)
    (hclass : ∀ b' ∈ b.blocks, b'.opensMarked Tag.className? ctx.comments = false)
    (hmodule : top = true → b.opensMarked Tag.moduleName? ctx.comments = false) :
    lowerBlock ctx top b = lowerBlock ctx' top b := by
  induction b using Block.innerInduction generalizing top with
  | step b ih =>
    obtain ⟨start, stmts⟩ := b
    have hself : Block.mk start stmts ∈ (Block.mk start stmts).blocks := by
      rw [Block.blocks_eq]
      exact List.mem_cons_self
    have hplain := shapeOf_of_unmarked (hclass _ hself) hmodule
    have hplain' : shapeOf ctx' top start stmts = .plain :=
      shapeOf_of_unmarked (hcomments ▸ hclass _ hself) (hcomments ▸ hmodule)
    rw [lowerBlock_plain hplain, lowerBlock_plain hplain']
    -- inner blocks are never modules, so of their marks only those of classes count
    refine lowerStmts_congr hcomments stmts fun s hs c hc => ih s hs c hc false ?_ (by simp)
    intro b hb
    refine hclass b ?_
    rw [Block.blocks_eq]
    exact List.mem_cons_of_mem _
      (List.mem_flatMap.2 ⟨c, List.mem_flatMap.2 ⟨s, hs, hc⟩, hb⟩)

/-- **Options without marks.** A source without a mark to heed is lowered alike by all options: to
the same statements with the same numbers or the same refusal, with the same reports and places. -/
theorem lowerChunk_eq_of_unmarked {chunk : Source.Chunk} (h : Unmarked chunk)
    (module classmod module' classmod' : Bool) (st : State) :
    lowerChunk module classmod chunk st = lowerChunk module' classmod' chunk st := by
  obtain ⟨hclass, hmodule⟩ := h
  have hbody : lowerBlock ⟨module, classmod, chunk.comments⟩ true chunk.body =
      lowerBlock ⟨module', classmod', chunk.comments⟩ true chunk.body :=
    lowerBlock_congr (by rfl) chunk.body true hclass fun _ => hmodule
  rw [lowerChunk, lowerChunk, hbody]

/-- A function whose body is marked as a module, which it cannot be. -/
def markedBody : String :=
  "function f()\n  -- @module m\n  local M = \x7b\x7d\n  function M.g() end\nend"

/-- The mark inside the function is not heeded. -/
theorem lowerChunk_eq_of_unmarked_markedBody :
    ∃ chunk, Source.parse markedBody = .ok chunk ∧ Unmarked chunk ∧
      lowerChunk true true chunk .initial = lowerChunk false false chunk .initial := by
  have hdecided : (Source.parse markedBody).toOption.any (fun chunk => Unmarked chunk) = true := by
    decide +kernel
  cases hparse : Source.parse markedBody with
  | error e => simp [hparse, Except.toOption] at hdecided
  | ok chunk =>
    have hunmarked : Unmarked chunk := by simpa [hparse, Except.toOption] using hdecided
    have hsame := lowerChunk_eq_of_unmarked hunmarked true true false false .initial
    exact ⟨chunk, rfl, hunmarked, hsame⟩

end Lowering

end LuaTranspiler
