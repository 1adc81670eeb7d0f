import LuaTranspiler.Doc.Comments
import LuaTranspiler.Proofs.Source.Placement
import Mathlib.Data.List.Nodup

/-!
# Which statement a comment belongs to

Every block counts its comments from its own start, so the blocks of a source could claim the same
comment. They do not: comments lie between tokens, the statements of a block lie one behind the
other, and the blocks inside a statement lie within it. So a comment between two statements is
outside of all blocks inside them, and a comment inside a statement is not between statements of
the block around it.

* `Block.blocks`: a block and the blocks inside it, at every depth
* `associated`: the comments of all statements of some blocks
* `Associates`: each comment is associated at most once, and exactly where it should be
* `associates_of_parse`: this holds of every source that can be read
-/

namespace LuaTranspiler.Source

mutual

/-- The blocks inside an expression, at every depth. -/
def Expr.blocks : Expr → List Block
  | .ident .. | .literal .. => []
  | .member base .. => base.blocks
  | .index base index _ => base.blocks ++ index.blocks
  | .unary _ operand _ => operand.blocks
  | .binary lhs _ rhs _ | .logical lhs _ rhs _ => lhs.blocks ++ rhs.blocks
  | .table fields _ => fieldBlocks fields
  | .call base args _ => base.blocks ++ exprBlocks args
  | .stringCall base argument _ | .tableCall base argument _ => base.blocks ++ argument.blocks
  | .function func _ => func.blocks

/-- The blocks inside expressions. -/
def exprBlocks : List Expr → List Block
  | [] => []
  | e :: es => e.blocks ++ exprBlocks es

/-- The blocks inside a field. -/
def Field.blocks : Field → List Block
  | .keyed key value _ => key.blocks ++ value.blocks
  | .named _ value _ | .positional value _ => value.blocks

/-- The blocks inside fields. -/
def fieldBlocks : List Field → List Block
  | [] => []
  | f :: fs => f.blocks ++ fieldBlocks fs

/-- The body of a function and the blocks inside it. -/
def Function.blocks : Function → List Block
  | .mk _ body => body.blocks

/-- A block and the blocks inside it, at every depth. -/
def Block.blocks : Block → List Block
  | .mk start stmts => .mk start stmts :: stmtBlocks stmts

/-- The blocks inside a clause. -/
def Clause.blocks : Clause → List Block
  | .mk cond block => cond.blocks ++ block.blocks

/-- The blocks inside clauses. -/
def clauseBlocks : List Clause → List Block
  | [] => []
  | c :: cs => c.blocks ++ clauseBlocks cs

/-- The block behind `else` and the blocks inside it, if there is one. -/
def elseBlocks : Option Block → List Block
  | none => []
  | some block => block.blocks

/-- The blocks inside the step of a loop, if there is one. -/
def stepBlocks : Option Expr → List Block
  | none => []
  | some e => e.blocks

/-- The blocks inside a statement. -/
def Stmt.blocks : Stmt → List Block
  | .localDecl _ init _ => exprBlocks init
  | .assign targets init _ => exprBlocks targets ++ exprBlocks init
  | .call call _ => call.blocks
  | .functionDecl name _ func _ => name.blocks ++ func.blocks
  | .returnStmt values _ => exprBlocks values
  | .ifStmt cond thenBlock clauses elseBlock _ =>
    cond.blocks ++ (thenBlock.blocks ++ (clauseBlocks clauses ++ elseBlocks elseBlock))
  | .whileLoop cond block _ => cond.blocks ++ block.blocks
  | .forNumeric _ start stop step block _ =>
    start.blocks ++ (stop.blocks ++ (stepBlocks step ++ block.blocks))
  | .forGeneric _ iterators block _ => exprBlocks iterators ++ block.blocks
  | .repeatLoop block cond _ => block.blocks ++ cond.blocks
  | .doBlock block _ => block.blocks
  | .breakStmt _ | .goto .. | .label .. => []

/-- The blocks inside statements. -/
def stmtBlocks : List Stmt → List Block
  | [] => []
  | s :: ss => s.blocks ++ stmtBlocks ss

end

/-- The comments of all statements of some blocks, as often as they are associated. -/
def associated (comments : List Comment) (bs : List Block) : List Comment :=
  bs.flatMap fun b => (b.commented comments).flatMap Prod.snd

/-- How the comments of a source belong to the statements of its blocks. -/
structure Associates (comments : List Comment) (body : Block) : Prop where
  /-- No comment belongs to two statements, of one block or of two. -/
  exclusive : (associated comments body.blocks).Nodup
  /-- A comment in a block that is inside none of its statements, and not behind the last of them,
  belongs to the first statement that starts behind it and to no other statement of the block. -/
  exhaustive : ∀ b ∈ body.blocks, ∀ c ∈ comments, b.start ≤ c.span.start →
    (∀ s ∈ b.stmts, s.span.encloses c.span = false) →
    (∃ last ∈ b.stmts.getLast?, c.span.stop ≤ last.span.start) →
    ∃ before s cs behind, b.commented comments = before ++ (s, cs) :: behind ∧ c ∈ cs ∧
      c.span.stop ≤ s.span.start ∧ (∀ x ∈ before, x.1.span.start < c.span.stop) ∧
      ∀ x ∈ before ++ behind, c ∉ x.2
  /-- The comments of a statement are in the order of the source. -/
  ordered : ∀ b ∈ body.blocks, ∀ x ∈ b.commented comments,
    x.2.Pairwise fun c d => c.span.stop ≤ d.span.start

/-! ### Comments apart -/

variable {comments cs ds : List Comment} {lo mid hi lo' hi' : Nat} {bs bs' : List Block}

theorem InOrder.nodup (h : InOrder comments) : comments.Nodup := by
  refine h.apart.imp_of_mem ?_
  rintro c d hc - hle rfl
  exact (h.nonempty c hc).not_ge hle

theorem InOrder.filter (h : InOrder comments) (p : Comment → Bool) :
    InOrder (comments.filter p) :=
  ⟨fun c hc => h.nonempty c (List.mem_filter.1 hc).1, h.apart.filter p⟩

/-- Comments between two offsets, none of them twice. -/
structure Separate (lo hi : Nat) (cs : List Comment) : Prop where
  le : lo ≤ hi
  between : ∀ c ∈ cs, lo ≤ c.span.start ∧ c.span.start < c.span.stop ∧ c.span.stop ≤ hi
  nodup : cs.Nodup

namespace Separate

theorem mono (h : Separate lo hi cs) (hlo : lo' ≤ lo) (hhi : hi ≤ hi') : Separate lo' hi' cs := by
  refine ⟨hlo.trans (h.le.trans hhi), fun c hc => ?_, h.nodup⟩
  obtain ⟨hstart, hne, hstop⟩ := h.between c hc
  exact ⟨hlo.trans hstart, hne, hstop.trans hhi⟩

theorem perm (h : Separate lo hi cs) (hperm : cs.Perm ds) : Separate lo hi ds :=
  ⟨h.le, fun c hc => h.between c (hperm.mem_iff.2 hc), hperm.nodup_iff.1 h.nodup⟩

/-- A comment has no room on both sides of an offset. -/
theorem append (hcs : Separate lo mid cs) (hds : Separate mid hi ds) :
    Separate lo hi (cs ++ ds) := by
  refine ⟨hcs.le.trans hds.le, fun c hc => ?_, List.nodup_append'.2 ⟨hcs.nodup, hds.nodup, ?_⟩⟩
  · rcases List.mem_append.1 hc with hc | hc
    · exact (hcs.mono le_rfl hds.le).between c hc
    · exact (hds.mono hcs.le le_rfl).between c hc
  · intro c hc hd
    have hstop := (hcs.between c hc).2.2
    obtain ⟨hstart, hne, -⟩ := hds.between c hd
    omega

end Separate

/-- The statements of some blocks are laid out in order, and their comments are separate. -/
structure Settled (comments : List Comment) (lo hi : Nat) (bs : List Block) : Prop where
  laid : ∀ b ∈ bs, ∃ hi, LaidIn (Clear comments) b.start hi (stmtLayouts b.stmts)
  separate : Separate lo hi (associated comments bs)

namespace Settled

theorem nil (h : lo ≤ hi) : Settled comments lo hi [] :=
  ⟨by simp, h, by simp [associated], by simp [associated]⟩

theorem append (h : Settled comments lo mid bs) (h' : Settled comments mid hi bs') :
    Settled comments lo hi (bs ++ bs') := by
  refine ⟨fun b hb => ?_, ?_⟩
  · rcases List.mem_append.1 hb with hb | hb
    · exact h.laid b hb
    · exact h'.laid b hb
  · rw [associated, List.flatMap_append]
    exact h.separate.append h'.separate

theorem mono (h : Settled comments lo hi bs) (hlo : lo' ≤ lo) (hhi : hi ≤ hi') :
    Settled comments lo' hi' bs :=
  ⟨h.laid, h.separate.mono hlo hhi⟩

end Settled

/-! ### Trees whose blocks are settled -/

/-- The comments above a statement lie before it. -/
theorem separate_commentsAbove (hcs : InOrder comments) {s : Stmt} (hle : lo ≤ s.span.start) :
    Separate lo s.span.start (commentsAbove comments lo s) := by
  refine ⟨hle, fun c hc => ?_, (hcs.filter _).nodup⟩
  have hne := (hcs.filter _).nonempty c hc
  obtain ⟨-, hc⟩ := List.mem_filter.1 hc
  simp only [Bool.and_eq_true, decide_eq_true_eq] at hc
  exact ⟨hc.1, hne, hc.2⟩

mutual

theorem settledExpr (hcs : InOrder comments) : ∀ (e : Expr) {lo hi : Nat},
    LaidIn (Clear comments) lo hi e.parts → Settled comments lo hi e.blocks
  | .ident .., _, _, h | .literal .., _, _, h => by
    rw [Expr.parts] at h
    rw [Expr.blocks]
    exact .nil (laidIn_nil.1 h)
  | .member base _ _ _, _, _, h => by
    rw [Expr.parts] at h
    rw [Expr.blocks]
    obtain ⟨_, hbase, hname⟩ := laidIn_cons.1 h
    exact (settledExpr hcs base hbase.parts).mono le_rfl hname.le
  | .index base index _, _, _, h => by
    rw [Expr.parts] at h
    rw [Expr.blocks]
    obtain ⟨_, hbase, hindex⟩ := laidIn_cons.1 h
    exact (settledExpr hcs base hbase.parts).append
      (settledExpr hcs index (laidIn_singleton.1 hindex).parts)
  | .unary _ operand _, _, _, h => by
    rw [Expr.parts] at h
    rw [Expr.blocks]
    exact settledExpr hcs operand (laidIn_singleton.1 h).parts
  | .binary lhs _ rhs _, _, _, h | .logical lhs _ rhs _, _, _, h => by
    rw [Expr.parts] at h
    rw [Expr.blocks]
    obtain ⟨_, hlhs, hrhs⟩ := laidIn_cons.1 h
    exact (settledExpr hcs lhs hlhs.parts).append
      (settledExpr hcs rhs (laidIn_singleton.1 hrhs).parts)
  | .table fields _, _, _, h => by
    rw [Expr.parts] at h
    rw [Expr.blocks]
    exact settledFields hcs fields h
  | .call base args _, _, _, h => by
    rw [Expr.parts] at h
    rw [Expr.blocks]
    obtain ⟨_, hbase, hargs⟩ := laidIn_cons.1 h
    exact (settledExpr hcs base hbase.parts).append (settledExprs hcs args hargs)
  | .stringCall base argument _, _, _, h | .tableCall base argument _, _, _, h => by
    rw [Expr.parts] at h
    rw [Expr.blocks]
    obtain ⟨_, hbase, hargument⟩ := laidIn_cons.1 h
    exact (settledExpr hcs base hbase.parts).append
      (settledExpr hcs argument (laidIn_singleton.1 hargument).parts)
  | .function func _, _, _, h => by
    rw [Expr.parts] at h
    rw [Expr.blocks]
    exact settledFunction hcs func h

theorem settledExprs (hcs : InOrder comments) : ∀ (es : List Expr) {lo hi : Nat},
    LaidIn (Clear comments) lo hi (exprLayouts es) → Settled comments lo hi (exprBlocks es)
  | [], _, _, h => by
    rw [exprLayouts] at h
    rw [exprBlocks]
    exact .nil (laidIn_nil.1 h)
  | e :: es, _, _, h => by
    rw [exprLayouts] at h
    rw [exprBlocks]
    obtain ⟨_, he, hes⟩ := laidIn_cons.1 h
    exact (settledExpr hcs e he.parts).append (settledExprs hcs es hes)

theorem settledField (hcs : InOrder comments) : ∀ (f : Field) {lo hi : Nat},
    LaidIn (Clear comments) lo hi f.parts → Settled comments lo hi f.blocks
  | .keyed key value _, _, _, h => by
    rw [Field.parts] at h
    rw [Field.blocks]
    obtain ⟨_, hkey, hvalue⟩ := laidIn_cons.1 h
    exact (settledExpr hcs key hkey.parts).append
      (settledExpr hcs value (laidIn_singleton.1 hvalue).parts)
  | .named _ value _, _, _, h => by
    rw [Field.parts] at h
    rw [Field.blocks]
    obtain ⟨_, hkey, hvalue⟩ := laidIn_cons.1 h
    exact (settledExpr hcs value (laidIn_singleton.1 hvalue).parts).mono hkey.le le_rfl
  | .positional value _, _, _, h => by
    rw [Field.parts] at h
    rw [Field.blocks]
    exact settledExpr hcs value (laidIn_singleton.1 h).parts

theorem settledFields (hcs : InOrder comments) : ∀ (fs : List Field) {lo hi : Nat},
    LaidIn (Clear comments) lo hi (fieldLayouts fs) → Settled comments lo hi (fieldBlocks fs)
  | [], _, _, h => by
    rw [fieldLayouts] at h
    rw [fieldBlocks]
    exact .nil (laidIn_nil.1 h)
  | f :: fs, _, _, h => by
    rw [fieldLayouts] at h
    rw [fieldBlocks]
    obtain ⟨_, hf, hfs⟩ := laidIn_cons.1 h
    exact (settledField hcs f hf.parts).append (settledFields hcs fs hfs)

theorem settledFunction (hcs : InOrder comments) : ∀ (f : Function) {lo hi : Nat},
    LaidIn (Clear comments) lo hi f.parts → Settled comments lo hi f.blocks
  | .mk _ body, _, _, h => by
    rw [Function.parts] at h
    rw [Function.blocks]
    obtain ⟨_, hparams, hbody⟩ := laidIn_append.1 h
    exact (settledBlock hcs body (laidIn_singleton.1 hbody)).mono hparams.le le_rfl

theorem settledBlock (hcs : InOrder comments) : ∀ (b : Block) {lo hi : Nat},
    Laid (Clear comments) lo hi b.layout → Settled comments lo hi b.blocks
  | .mk start stmts, _, hi, h => by
    rw [Block.layout] at h
    rw [Block.blocks]
    obtain ⟨hstart, hstmts⟩ := laid_block.1 h
    obtain ⟨hlaid, hseparate⟩ := settledStmts hcs stmts hstmts
    refine ⟨fun b hb => ?_, ?_⟩
    · rcases List.mem_cons.1 hb with rfl | hb
      · exact ⟨hi, hstmts⟩
      · exact hlaid b hb
    · rw [associated, List.flatMap_cons]
      exact hseparate.mono hstart le_rfl

theorem settledClause (hcs : InOrder comments) : ∀ (c : Clause) {lo hi : Nat},
    LaidIn (Clear comments) lo hi c.parts → Settled comments lo hi c.blocks
  | .mk cond block, _, _, h => by
    rw [Clause.parts] at h
    rw [Clause.blocks]
    obtain ⟨_, hcond, hblock⟩ := laidIn_cons.1 h
    exact (settledExpr hcs cond hcond.parts).append
      (settledBlock hcs block (laidIn_singleton.1 hblock))

theorem settledClauses (hcs : InOrder comments) : ∀ (cs : List Clause) {lo hi : Nat},
    LaidIn (Clear comments) lo hi (clauseLayouts cs) → Settled comments lo hi (clauseBlocks cs)
  | [], _, _, h => by
    rw [clauseLayouts] at h
    rw [clauseBlocks]
    exact .nil (laidIn_nil.1 h)
  | c :: cs, _, _, h => by
    rw [clauseLayouts] at h
    rw [clauseBlocks]
    obtain ⟨_, hfirst, hrest⟩ := laidIn_append.1 h
    exact (settledClause hcs c hfirst).append (settledClauses hcs cs hrest)

theorem settledElse (hcs : InOrder comments) : ∀ (o : Option Block) {lo hi : Nat},
    LaidIn (Clear comments) lo hi (elseLayouts o) → Settled comments lo hi (elseBlocks o)
  | none, _, _, h => by
    rw [elseLayouts] at h
    rw [elseBlocks]
    exact .nil (laidIn_nil.1 h)
  | some block, _, _, h => by
    rw [elseLayouts] at h
    rw [elseBlocks]
    exact settledBlock hcs block (laidIn_singleton.1 h)

theorem settledStep (hcs : InOrder comments) : ∀ (o : Option Expr) {lo hi : Nat},
    LaidIn (Clear comments) lo hi (stepLayouts o) → Settled comments lo hi (stepBlocks o)
  | none, _, _, h => by
    rw [stepLayouts] at h
    rw [stepBlocks]
    exact .nil (laidIn_nil.1 h)
  | some e, _, _, h => by
    rw [stepLayouts] at h
    rw [stepBlocks]
    exact settledExpr hcs e (laidIn_singleton.1 h).parts

theorem settledStmt (hcs : InOrder comments) : ∀ (s : Stmt) {lo hi : Nat},
    LaidIn (Clear comments) lo hi s.parts → Settled comments lo hi s.blocks
  | .localDecl _ init _, _, _, h => by
    rw [Stmt.parts] at h
    rw [Stmt.blocks]
    obtain ⟨_, hnames, hinit⟩ := laidIn_append.1 h
    exact (settledExprs hcs init hinit).mono hnames.le le_rfl
  | .assign targets init _, _, _, h => by
    rw [Stmt.parts] at h
    rw [Stmt.blocks]
    obtain ⟨_, htargets, hinit⟩ := laidIn_append.1 h
    exact (settledExprs hcs targets htargets).append (settledExprs hcs init hinit)
  | .call call _, _, _, h => by
    rw [Stmt.parts] at h
    rw [Stmt.blocks]
    exact settledExpr hcs call (laidIn_singleton.1 h).parts
  | .functionDecl name _ func _, _, _, h => by
    rw [Stmt.parts] at h
    rw [Stmt.blocks]
    obtain ⟨_, hname, hfunc⟩ := laidIn_cons.1 h
    exact (settledExpr hcs name hname.parts).append (settledFunction hcs func hfunc)
  | .returnStmt values _, _, _, h => by
    rw [Stmt.parts] at h
    rw [Stmt.blocks]
    exact settledExprs hcs values h
  | .ifStmt cond thenBlock clauses elseBlock _, _, _, h => by
    rw [Stmt.parts] at h
    rw [Stmt.blocks]
    obtain ⟨_, hcond, h⟩ := laidIn_cons.1 h
    obtain ⟨_, hthen, h⟩ := laidIn_cons.1 h
    obtain ⟨_, hclauses, helse⟩ := laidIn_append.1 h
    exact (settledExpr hcs cond hcond.parts).append ((settledBlock hcs thenBlock hthen).append
      ((settledClauses hcs clauses hclauses).append (settledElse hcs elseBlock helse)))
  | .whileLoop cond block _, _, _, h => by
    rw [Stmt.parts] at h
    rw [Stmt.blocks]
    obtain ⟨_, hcond, hblock⟩ := laidIn_cons.1 h
    exact (settledExpr hcs cond hcond.parts).append
      (settledBlock hcs block (laidIn_singleton.1 hblock))
  | .forNumeric _ start stop step block _, _, _, h => by
    rw [Stmt.parts] at h
    rw [Stmt.blocks]
    obtain ⟨_, h, hblock⟩ := laidIn_append.1 h
    obtain ⟨_, h, hstep⟩ := laidIn_append.1 h
    obtain ⟨_, hvar, h⟩ := laidIn_cons.1 h
    obtain ⟨_, hstart, hstop⟩ := laidIn_cons.1 h
    refine Settled.mono ?_ hvar.le le_rfl
    exact (settledExpr hcs start hstart.parts).append
      ((settledExpr hcs stop (laidIn_singleton.1 hstop).parts).append
        ((settledStep hcs step hstep).append (settledBlock hcs block (laidIn_singleton.1 hblock))))
  | .forGeneric _ iterators block _, _, _, h => by
    rw [Stmt.parts] at h
    rw [Stmt.blocks]
    obtain ⟨_, h, hblock⟩ := laidIn_append.1 h
    obtain ⟨_, hvars, hiterators⟩ := laidIn_append.1 h
    exact ((settledExprs hcs iterators hiterators).append
      (settledBlock hcs block (laidIn_singleton.1 hblock))).mono hvars.le le_rfl
  | .repeatLoop block cond _, _, _, h => by
    rw [Stmt.parts] at h
    rw [Stmt.blocks]
    obtain ⟨_, hblock, hcond⟩ := laidIn_cons.1 h
    exact (settledBlock hcs block hblock).append
      (settledExpr hcs cond (laidIn_singleton.1 hcond).parts)
  | .doBlock block _, _, _, h => by
    rw [Stmt.parts] at h
    rw [Stmt.blocks]
    exact settledBlock hcs block (laidIn_singleton.1 h)
  | .breakStmt _, _, _, h | .goto .., _, _, h | .label .., _, _, h => by
    rw [Stmt.parts] at h
    rw [Stmt.blocks]
    exact .nil (laidIn_nil.1 h)

/-- The comments of statements, and those in the blocks inside them. -/
theorem settledStmts (hcs : InOrder comments) : ∀ (ss : List Stmt) {lo hi : Nat},
    LaidIn (Clear comments) lo hi (stmtLayouts ss) →
    (∀ b ∈ stmtBlocks ss, ∃ hi, LaidIn (Clear comments) b.start hi (stmtLayouts b.stmts)) ∧
      Separate lo hi ((commentedFrom comments lo ss).flatMap Prod.snd ++
        associated comments (stmtBlocks ss))
  | [], _, _, h => by
    rw [stmtLayouts] at h
    rw [stmtBlocks]
    exact ⟨by simp, laidIn_nil.1 h, by simp [commentedFrom, associated],
      by simp [commentedFrom, associated]⟩
  | s :: ss, lo, hi, h => by
    rw [stmtLayouts] at h
    rw [stmtBlocks]
    obtain ⟨_, hs, hss⟩ := laidIn_cons.1 h
    obtain ⟨hfits, hparts⟩ := laid_node.1 hs
    have habove := separate_commentsAbove hcs hfits.lower
    have hinside := settledStmt hcs s hparts
    obtain ⟨hlaid, hbehind⟩ := settledStmts hcs ss (hss.mono hfits.upper le_rfl)
    refine ⟨fun b hb => ?_, ?_⟩
    · rcases List.mem_append.1 hb with hb | hb
      · exact hinside.laid b hb
      · exact hlaid b hb
    · -- In the order of the source, the blocks inside `s` come before the next statement.
      refine (habove.append (hinside.separate.append hbehind)).perm ?_
      simp only [commentedFrom, List.flatMap_cons, associated, List.flatMap_append,
        List.append_assoc]
      exact (List.perm_append_comm_assoc _ _ _).append_left _

end

/-! ### The statement of a comment -/

theorem mem_commentsAbove {c : Comment} {s : Stmt} :
    c ∈ commentsAbove comments lo s ↔
      c ∈ comments ∧ lo ≤ c.span.start ∧ c.span.stop ≤ s.span.start := by
  simp [commentsAbove]

/-- Comments of later statements lie behind the offset where these are counted from. -/
theorem le_start_of_mem {c : Comment} {ss : List Stmt} {x : Stmt × List Comment}
    (h : LaidIn (Clear comments) lo hi (stmtLayouts ss)) (hx : x ∈ commentedFrom comments lo ss)
    (hc : c ∈ x.2) : lo ≤ c.span.start := by
  induction ss generalizing lo with
  | nil => simp [commentedFrom] at hx
  | cons s ss ih =>
    rw [commentedFrom] at hx
    rcases List.mem_cons.1 hx with rfl | hx
    · exact (mem_commentsAbove.1 hc).2.1
    · rw [stmtLayouts] at h
      obtain ⟨_, hs, hss⟩ := laidIn_cons.1 h
      have hfits := (laid_node.1 hs).1
      have hstop := ih (hss.mono hfits.upper le_rfl) hx
      exact hfits.lower.trans (hfits.nonempty.le.trans hstop)

/-- A comment that is inside no statement belongs to the first one behind it, and to it only. -/
theorem exists_commentedFrom {c : Comment} {ss : List Stmt}
    (h : LaidIn (Clear comments) lo hi (stmtLayouts ss)) (hc : c ∈ comments)
    (hne : c.span.start < c.span.stop) (hlo : lo ≤ c.span.start)
    (houtside : ∀ s ∈ ss, s.span.encloses c.span = false)
    (hlast : ∃ last ∈ ss.getLast?, c.span.stop ≤ last.span.start) :
    ∃ before s cs behind, commentedFrom comments lo ss = before ++ (s, cs) :: behind ∧ c ∈ cs ∧
      c.span.stop ≤ s.span.start ∧ (∀ x ∈ before, x.1.span.start < c.span.stop) ∧
      ∀ x ∈ before ++ behind, c ∉ x.2 := by
  induction ss generalizing lo with
  | nil => simp at hlast
  | cons s ss ih =>
    rw [stmtLayouts] at h
    obtain ⟨_, hs, hss⟩ := laidIn_cons.1 h
    have hfits := (laid_node.1 hs).1
    replace hss := hss.mono hfits.upper le_rfl
    by_cases hbehind : c.span.stop ≤ s.span.start
    · refine ⟨[], s, commentsAbove comments lo s, commentedFrom comments s.span.stop ss, rfl,
        mem_commentsAbove.2 ⟨hc, hlo, hbehind⟩, hbehind, by simp, fun x hx hmem => ?_⟩
      have hstart := le_start_of_mem hss hx hmem
      have hspan := hfits.nonempty
      omega
    · -- The comment is not inside `s`, and no end of `s` is inside the comment.
      have hstop : s.span.stop ≤ c.span.start := by
        have hout := houtside s List.mem_cons_self
        simp only [Span.encloses, Bool.and_eq_false_iff, decide_eq_false_iff_not] at hout
        rcases hfits.opening c hc with hopening | hopening
        · exact absurd hopening hbehind
        · rcases hfits.closing c hc with hclosing | hclosing
          · rcases hout with hout | hout
            · exact absurd hopening hout
            · exact absurd hclosing hout
          · exact hclosing
      have hlast' : ∃ last ∈ ss.getLast?, c.span.stop ≤ last.span.start := by
        cases ss with
        | nil => simp [hbehind] at hlast
        | cons s' ss => simpa using hlast
      obtain ⟨before, t, cs, behind, heq, hmem, hstart, hbefore, hothers⟩ :=
        ih hss hstop (fun t ht => houtside t (List.mem_cons_of_mem s ht)) hlast'
      refine ⟨(s, commentsAbove comments lo s) :: before, t, cs, behind, ?_, hmem, hstart, ?_, ?_⟩
      · rw [commentedFrom, heq, List.cons_append]
      · rintro x (_ | ⟨_, hx⟩)
        · exact not_le.1 hbehind
        · exact hbefore x hx
      · rintro x (_ | ⟨_, hx⟩)
        · exact fun habove => hbehind (mem_commentsAbove.1 habove).2.2
        · exact hothers x hx

theorem pairwise_of_mem_commentedFrom {ss : List Stmt} {x : Stmt × List Comment}
    (hcs : InOrder comments) (hx : x ∈ commentedFrom comments lo ss) :
    x.2.Pairwise fun c d => c.span.stop ≤ d.span.start := by
  induction ss generalizing lo with
  | nil => simp [commentedFrom] at hx
  | cons s ss ih =>
    rw [commentedFrom] at hx
    rcases List.mem_cons.1 hx with rfl | hx
    · exact (hcs.filter _).apart
    · exact ih hx

/-- **Every comment between statements belongs to exactly one statement**, the first one behind it,
and no comment to two, over all blocks of a source at every depth. -/
theorem associates_of_parse {s : String} {chunk : Chunk} (h : parse s = .ok chunk) :
    Associates chunk.comments chunk.body := by
  obtain ⟨hcs, hi, hbody⟩ := laid_of_parse h
  have hsettled := settledBlock hcs chunk.body hbody
  refine ⟨hsettled.separate.nodup, fun b hb c hc hlo houtside hlast => ?_, fun b _ x hx => ?_⟩
  · obtain ⟨hi, hstmts⟩ := hsettled.laid b hb
    exact exists_commentedFrom hstmts hc (hcs.nonempty c hc) hlo houtside hlast
  · exact pairwise_of_mem_commentedFrom hcs hx

/-- A comment in front of each statement, two of them inside a function expression. -/
def commentedFunction : String :=
  "--outer\nf = function() --first\n g() --[[ second ]] h() end --last\nf()"

theorem associates_commentedFunction :
    ∃ chunk, parse commentedFunction = .ok chunk ∧
      (associated chunk.comments chunk.body.blocks).length = 4 ∧
      Associates chunk.comments chunk.body := by
  have hcount : ((parse commentedFunction).toOption.map fun chunk =>
      (associated chunk.comments chunk.body.blocks).length) = some 4 := by decide +kernel
  cases hparse : parse commentedFunction with
  | error e => simp [hparse, Except.toOption] at hcount
  | ok chunk =>
    rw [hparse] at hcount
    exact ⟨chunk, rfl, Option.some.inj hcount, associates_of_parse hparse⟩

end LuaTranspiler.Source
