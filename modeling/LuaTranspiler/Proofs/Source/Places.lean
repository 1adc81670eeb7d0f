import LuaTranspiler.Proofs.Doc.Association
import LuaTranspiler.Proofs.Rising
import LuaTranspiler.Proofs.Source.Moving
import LuaTranspiler.Proofs.Source.Placement
import LuaTranspiler.Proofs.Token.Position

/-!
# Statements in the order of the source

The statements of a block at every depth, those in functions within expressions included, start one
behind the other in the order in which a tree is walked. A statement starts before what is inside
it, though its first expression may start where it does: a function in that expression has its own
first statement only behind its parameters. Layouts do not tell these apart by their offsets, so
all tokens are moved first, so that a token starts behind the end of the one before it.

* `Block.places`: where the statements of a block and the conditions behind `elseif` are written
* `Block.perm_places`: at every depth each of them has one place
* `Move.shrink`: tokens are moved apart
* `Ascends k xs ps`: wherever the layouts `xs` lie, the spans `ps` start there one behind the other
* `Block.ascends`: so do the places of a block
* `pairwise_places`: the places of a source are in order
-/

namespace LuaTranspiler

namespace Source

/-! ### Places -/

mutual

/-- The places in an expression, which are those in the functions within it. -/
def Expr.places : Expr → List Span
  | .ident .. | .literal .. => []
  | .member base .. => base.places
  | .index base index _ => base.places ++ index.places
  | .unary _ operand _ => operand.places
  | .binary lhs _ rhs _ | .logical lhs _ rhs _ => lhs.places ++ rhs.places
  | .table fields _ => fieldPlaces fields
  | .call base args _ => base.places ++ exprPlaces args
  | .stringCall base argument _ | .tableCall base argument _ => base.places ++ argument.places
  | .function func _ => func.places

/-- The places in expressions. -/
def exprPlaces : List Expr → List Span
  | [] => []
  | e :: es => e.places ++ exprPlaces es

/-- The places in a field. -/
def Field.places : Field → List Span
  | .keyed key value _ => key.places ++ value.places
  | .named _ value _ | .positional value _ => value.places

/-- The places in fields. -/
def fieldPlaces : List Field → List Span
  | [] => []
  | f :: fs => f.places ++ fieldPlaces fs

/-- The places in a function. -/
def Function.places : Function → List Span
  | .mk _ body => body.places

/-- Where the statements of a block are written, at every depth and in the order of the source. The
condition behind an `elseif` stands for its clause. -/
def Block.places : Block → List Span
  | .mk _ stmts => stmtPlaces stmts

/-- The places of clauses: of each its condition, and what is inside. -/
def clausePlaces : List Clause → List Span
  | [] => []
  | .mk cond block :: cs => cond.span :: (cond.places ++ (block.places ++ clausePlaces cs))

/-- The places in the block behind `else`, if there is one. -/
def elsePlaces : Option Block → List Span
  | none => []
  | some block => block.places

/-- The places in the step of a loop, if there is one. -/
def stepPlaces : Option Expr → List Span
  | none => []
  | some e => e.places

/-- The places inside a statement. -/
def Stmt.innerPlaces : Stmt → List Span
  | .localDecl _ init _ => exprPlaces init
  | .assign targets init _ => exprPlaces targets ++ exprPlaces init
  | .call call _ => call.places
  | .functionDecl name _ func _ => name.places ++ func.places
  | .returnStmt values _ => exprPlaces values
  | .ifStmt cond thenBlock clauses elseBlock _ =>
    cond.places ++ (thenBlock.places ++ (clausePlaces clauses ++ elsePlaces elseBlock))
  | .whileLoop cond block _ => cond.places ++ block.places
  | .forNumeric _ start stop step block _ =>
    start.places ++ (stop.places ++ (stepPlaces step ++ block.places))
  | .forGeneric _ iterators block _ => exprPlaces iterators ++ block.places
  | .repeatLoop block cond _ => block.places ++ cond.places
  | .doBlock block _ => block.places
  | .breakStmt _ | .goto .. | .label .. => []

/-- The places of statements: each of them, and what is inside. -/
def stmtPlaces : List Stmt → List Span
  | [] => []
  | s :: ss => s.span :: (s.innerPlaces ++ stmtPlaces ss)

end

/-! ### Every statement once -/

/-- The place of a clause. -/
def Clause.place : Clause → Span
  | .mk cond _ => cond.span

/-- The clauses behind `elseif` of a statement. -/
def Stmt.clauses : Stmt → List Clause
  | .ifStmt _ _ clauses _ _ => clauses
  | _ => []

/-- The place of a statement and those of its clauses. -/
def Stmt.ownPlaces (s : Stmt) : List Span := s.span :: s.clauses.map Clause.place

/-- The places of the statements of a block, without those inside them. -/
def Block.ownPlaces (b : Block) : List Span := b.stmts.flatMap Stmt.ownPlaces

/-- How often a span is a place of its own in some blocks. -/
def countOwn (a : Span) (bs : List Block) : Nat := (bs.flatMap Block.ownPlaces).count a

section Counts

variable (a : Span)

theorem countOwn_append (bs cs : List Block) :
    countOwn a (bs ++ cs) = countOwn a bs + countOwn a cs := by
  rw [countOwn, List.flatMap_append, List.count_append, countOwn, countOwn]

theorem countOwn_cons (b : Block) (bs : List Block) :
    countOwn a (b :: bs) = b.ownPlaces.count a + countOwn a bs := by
  rw [countOwn, List.flatMap_cons, List.count_append, countOwn]

attribute [local simp] countOwn_append countOwn_cons Expr.places Expr.blocks Stmt.innerPlaces
  Stmt.clauses Stmt.blocks

mutual

theorem Expr.count_places : ∀ e : Expr, e.places.count a = countOwn a e.blocks
  | .ident .. | .literal .. => rfl
  | .member base .. | .unary _ base _ => by simp [base.count_places]
  | .index lhs rhs _ | .binary lhs _ rhs _ | .logical lhs _ rhs _ | .stringCall lhs rhs _
  | .tableCall lhs rhs _ => by simp [lhs.count_places, rhs.count_places]
  | .table fields _ => by simp [count_fieldPlaces fields]
  | .call base args _ => by simp [base.count_places, count_exprPlaces args]
  | .function func _ => by simp [func.count_places]

theorem count_exprPlaces : ∀ es : List Expr,
    (exprPlaces es).count a = countOwn a (exprBlocks es)
  | [] => rfl
  | e :: es => by simp [exprPlaces, exprBlocks, e.count_places, count_exprPlaces es]

theorem Field.count_places : ∀ f : Field, f.places.count a = countOwn a f.blocks
  | .keyed key value _ => by
    simp [Field.places, Field.blocks, key.count_places, value.count_places]
  | .named _ value _ | .positional value _ => by
    simp [Field.places, Field.blocks, value.count_places]

theorem count_fieldPlaces : ∀ fs : List Field,
    (fieldPlaces fs).count a = countOwn a (fieldBlocks fs)
  | [] => rfl
  | f :: fs => by simp [fieldPlaces, fieldBlocks, f.count_places, count_fieldPlaces fs]

theorem Function.count_places : ∀ func : Function, func.places.count a = countOwn a func.blocks
  | .mk _ body => by simp [Function.places, Function.blocks, body.count_places]

theorem Block.count_places : ∀ b : Block, b.places.count a = countOwn a b.blocks
  | .mk start stmts => by
    simp [Block.places, Block.blocks, Block.ownPlaces, Block.stmts, count_stmtPlaces stmts]

theorem count_clausePlaces : ∀ cs : List Clause,
    (clausePlaces cs).count a = (cs.map Clause.place).count a + countOwn a (clauseBlocks cs)
  | [] => rfl
  | .mk cond block :: cs => by
    simp only [clausePlaces, clauseBlocks, Clause.blocks, Clause.place, List.map_cons,
      List.count_cons, List.count_append, countOwn_append, cond.count_places, block.count_places,
      count_clausePlaces cs]
    omega

theorem count_elsePlaces : ∀ b : Option Block,
    (elsePlaces b).count a = countOwn a (elseBlocks b)
  | none => rfl
  | some b => by simp [elsePlaces, elseBlocks, b.count_places]

theorem count_stepPlaces : ∀ e : Option Expr,
    (stepPlaces e).count a = countOwn a (stepBlocks e)
  | none => rfl
  | some e => by simp [stepPlaces, stepBlocks, e.count_places]

theorem Stmt.count_innerPlaces : ∀ s : Stmt,
    s.innerPlaces.count a = (s.clauses.map Clause.place).count a + countOwn a s.blocks
  | .localDecl _ es _ | .returnStmt es _ => by simp [count_exprPlaces es]
  | .assign targets init _ => by simp [count_exprPlaces targets, count_exprPlaces init]
  | .call call _ => by simp [call.count_places]
  | .functionDecl name _ func _ => by simp [name.count_places, func.count_places]
  | .ifStmt cond thenBlock clauses elseBlock _ => by
    simp only [Stmt.innerPlaces, Stmt.clauses, Stmt.blocks, List.count_append, countOwn_append,
      cond.count_places, thenBlock.count_places, count_clausePlaces clauses,
      count_elsePlaces elseBlock]
    omega
  | .whileLoop cond block _ | .repeatLoop block cond _ => by
    simp [cond.count_places, block.count_places]
  | .forNumeric _ start stop step block _ => by
    simp [start.count_places, stop.count_places, count_stepPlaces step, block.count_places]
  | .forGeneric _ iterators block _ => by simp [count_exprPlaces iterators, block.count_places]
  | .doBlock block _ => by simp [block.count_places]
  | .breakStmt _ | .goto .. | .label .. => rfl

theorem count_stmtPlaces : ∀ ss : List Stmt,
    (stmtPlaces ss).count a = (ss.flatMap Stmt.ownPlaces).count a + countOwn a (stmtBlocks ss)
  | [] => rfl
  | s :: ss => by
    simp only [stmtPlaces, stmtBlocks, Stmt.ownPlaces, List.flatMap_cons, List.cons_append,
      List.count_cons, List.count_append, countOwn_append, s.count_innerPlaces,
      count_stmtPlaces ss]
    omega

end

end Counts

/-- The places of a block are those of the statements of all blocks in it, each once. -/
theorem Block.perm_places (b : Block) :
    b.places.Perm (b.blocks.flatMap Block.ownPlaces) :=
  List.perm_iff_count.2 fun a => b.count_places a

end Source

/-! ### Moving tokens apart -/

/-- All offsets are doubled, and then everything starts one offset later. -/
def Move.shrink : Move where
  span a := ⟨2 * a.start + 1, 2 * a.stop, a.startPos, a.stopPos⟩
  offset n := 2 * n
  span_through _ _ := rfl
  stop_span _ := rfl
  offset_zero := rfl

theorem Ordered.shrink {edge : Point → Prop} {lo : Nat} {ts : List Token}
    (h : Ordered edge lo ts) :
    Ordered (fun p => edge ⟨p.offset / 2, p.position⟩) (2 * lo) (ts.map (Token.move .shrink)) := by
  refine ⟨?_, h.apart.map _ fun t u hle => ?_⟩
  · rw [List.forall_mem_map]
    intro t ht
    obtain ⟨hlower, hnonempty, -, hopening, hclosing⟩ := h.fits t ht
    have hodd : (2 * t.span.start + 1) / 2 = t.span.start := by omega
    have heven : 2 * t.span.stop / 2 = t.span.stop := by omega
    refine ⟨?_, ?_, le_rfl, ?_, ?_⟩
    · show 2 * lo ≤ 2 * t.span.start + 1
      omega
    · show 2 * t.span.start + 1 < 2 * t.span.stop
      omega
    · show edge ⟨(2 * t.span.start + 1) / 2, t.span.startPos⟩
      rwa [hodd]
    · show edge ⟨2 * t.span.stop / 2, t.span.stopPos⟩
      rwa [heven]
  · show 2 * t.span.stop ≤ 2 * u.span.start + 1
    omega

namespace Source

/-! ### Rules -/

section Rules

variable {k : Nat} {xs ys parts : List Layout} {ps qs : List Span} {a : Span}

/-- The offset at which a span starts when it is moved. -/
def shrunkStart (a : Span) : Nat := (Move.shrink.span a).start

/-- Wherever the layouts `xs` lie, the spans `ps`, when they are moved, start there one behind the
other, by at least `k` behind the start, and on edges. -/
def Ascends (k : Nat) (xs : List Layout) (ps : List Span) : Prop :=
  ∀ edge lo hi, LaidIn edge lo hi xs →
    Rising shrunkStart (lo + k) hi ps ∧ ∀ a ∈ ps, edge (Move.shrink.span a).opening

namespace Ascends

theorem nil : Ascends k xs [] := fun _ _ _ _ => ⟨.nil, List.forall_mem_nil _⟩

theorem weaken (h : Ascends 1 xs ps) : Ascends 0 xs ps := by
  intro edge lo hi hxs
  obtain ⟨hrising, hedge⟩ := h edge lo hi hxs
  exact ⟨hrising.mono (Nat.le_succ lo) le_rfl, hedge⟩

theorem append (h : Ascends k xs ps) (h' : Ascends k ys qs) :
    Ascends k (xs ++ ys) (ps ++ qs) := by
  intro edge lo hi hlaid
  obtain ⟨mid, hxs, hys⟩ := laidIn_append.1 hlaid
  obtain ⟨hrising, hedge⟩ := h edge lo mid hxs
  obtain ⟨hrising', hedge'⟩ := h' edge mid hi hys
  refine ⟨?_, List.forall_mem_append.2 ⟨hedge, hedge'⟩⟩
  exact hrising.append hrising' (Nat.le_add_right mid k) (Nat.add_le_add_right hxs.le k) hys.le

/-- A node has what its parts have. -/
theorem node (h : Ascends k parts ps) : Ascends k [.node a parts] ps := by
  intro edge lo hi hlaid
  exact h edge lo hi (laidIn_singleton.1 hlaid).parts

/-- What follows a node starts behind the start of the node. -/
theorem behind (h : Ascends 1 parts ps) (h' : Ascends 0 ys qs) :
    Ascends 1 (.node a parts :: ys) (ps ++ qs) := by
  intro edge lo hi hlaid
  obtain ⟨mid, hnode, hys⟩ := laidIn_cons.1 hlaid
  obtain ⟨hrising, hedge⟩ := h edge lo mid hnode.parts
  obtain ⟨hrising', hedge'⟩ := h' edge mid hi hys
  have hfits := (laid_node.1 hnode).1
  have hlt : lo < mid := hfits.lower.trans_lt (hfits.nonempty.trans_le hfits.upper)
  exact ⟨hrising.append hrising' le_rfl hlt hys.le, List.forall_mem_append.2 ⟨hedge, hedge'⟩⟩

/-- A block opens where no moved span starts, so what is inside starts behind that. -/
theorem block {start : Nat} (h : Ascends 0 xs ps) :
    Ascends 1 [.block (Move.shrink.offset start) xs] ps := by
  intro edge lo hi hlaid
  obtain ⟨hstart, hxs⟩ := laid_block.1 (laidIn_singleton.1 hlaid)
  obtain ⟨hrising, hedge⟩ := h edge _ hi hxs
  refine ⟨⟨fun a ha => ?_, hrising.apart⟩, hedge⟩
  obtain ⟨hle, hlt⟩ := hrising.within a ha
  -- a moved span starts at an odd offset, and a moved block opens at an even one
  have hodd : shrunkStart a = 2 * a.start + 1 := rfl
  have heven : Move.shrink.offset start = 2 * start := rfl
  omega

/-- A node that is a place itself comes before what is inside. -/
theorem place (h : Ascends 1 parts ps) :
    Ascends 0 [.node (Move.shrink.span a) parts] (a :: ps) := by
  intro edge lo hi hlaid
  obtain ⟨hfits, hparts⟩ := laid_node.1 (laidIn_singleton.1 hlaid)
  obtain ⟨hrising, hedge⟩ := h edge _ _ hparts
  refine ⟨?_, List.forall_mem_cons.2 ⟨hfits.opening, hedge⟩⟩
  have hplace : Rising shrunkStart (shrunkStart a) (shrunkStart a + 1) [a] := .singleton a
  exact (hplace.append hrising le_rfl (Nat.le_succ _) hfits.nonempty).mono hfits.lower hfits.upper

end Ascends

end Rules

/-! ### Trees -/

mutual

theorem Expr.ascends : ∀ e : Expr, Ascends 1 (e.move .shrink).parts e.places
  | .ident .. | .literal .. => by
    rw [Expr.places]
    exact .nil
  | .member base .. => by
    rw [Expr.move, Expr.parts, Expr.places, ← List.append_nil base.places]
    exact base.ascends.node.append .nil
  | .index base index _ => by
    rw [Expr.move, Expr.parts, Expr.places]
    exact base.ascends.node.append index.ascends.node
  | .unary _ operand _ => by
    rw [Expr.move, Expr.parts, Expr.places]
    exact operand.ascends.node
  | .binary lhs _ rhs _ | .logical lhs _ rhs _ => by
    rw [Expr.move, Expr.parts, Expr.places]
    exact lhs.ascends.node.append rhs.ascends.node
  | .table fields _ => by
    rw [Expr.move, Expr.parts, Expr.places]
    exact ascends_fields fields
  | .call base args _ => by
    rw [Expr.move, Expr.parts, Expr.places]
    exact base.ascends.node.append (ascends_exprs args)
  | .stringCall base argument _ | .tableCall base argument _ => by
    rw [Expr.move, Expr.parts, Expr.places]
    exact base.ascends.node.append argument.ascends.node
  | .function func _ => by
    rw [Expr.move, Expr.parts, Expr.places]
    exact func.ascends

theorem ascends_exprs : ∀ es : List Expr,
    Ascends 1 (exprLayouts (moveExprs .shrink es)) (exprPlaces es)
  | [] => by
    rw [exprPlaces]
    exact .nil
  | e :: es => by
    rw [moveExprs, exprLayouts, exprPlaces]
    exact e.ascends.node.append (ascends_exprs es)

theorem Field.ascends : ∀ f : Field, Ascends 1 (f.move .shrink).parts f.places
  | .keyed key value _ => by
    rw [Field.move, Field.parts, Field.places]
    exact key.ascends.node.append value.ascends.node
  | .named key value _ => by
    have hkey : Ascends 1 [(key.move .shrink).layout] [] := .nil
    rw [Field.move, Field.parts, Field.places]
    exact hkey.append value.ascends.node
  | .positional value _ => by
    rw [Field.move, Field.parts, Field.places]
    exact value.ascends.node

theorem ascends_fields : ∀ fs : List Field,
    Ascends 1 (fieldLayouts (moveFields .shrink fs)) (fieldPlaces fs)
  | [] => by
    rw [fieldPlaces]
    exact .nil
  | f :: fs => by
    rw [moveFields, fieldLayouts, fieldPlaces]
    exact f.ascends.node.append (ascends_fields fs)

theorem Function.ascends : ∀ func : Function, Ascends 1 (func.move .shrink).parts func.places
  | .mk params body => by
    rw [Function.move, Function.parts, Function.places, ← List.nil_append body.places]
    exact Ascends.nil.append body.ascends

theorem Block.ascends : ∀ b : Block, Ascends 1 [(b.move .shrink).layout] b.places
  | .mk start stmts => by
    rw [Block.move, Block.layout, Block.places]
    exact (ascends_stmts stmts).block

theorem ascends_clauses : ∀ cs : List Clause,
    Ascends 0 (clauseLayouts (moveClauses .shrink cs)) (clausePlaces cs)
  | [] => by
    rw [clausePlaces]
    exact .nil
  | .mk cond block :: cs => by
    rw [moveClauses, clauseLayouts, Clause.move, Clause.parts, clausePlaces, Expr.span_move]
    exact cond.ascends.place.append (block.ascends.weaken.append (ascends_clauses cs))

theorem ascends_else : ∀ b : Option Block,
    Ascends 1 (elseLayouts (moveElse .shrink b)) (elsePlaces b)
  | none => by
    rw [elsePlaces]
    exact .nil
  | some b => by
    rw [moveElse, elseLayouts, elsePlaces]
    exact b.ascends

theorem ascends_step : ∀ e : Option Expr,
    Ascends 1 (stepLayouts (moveStep .shrink e)) (stepPlaces e)
  | none => by
    rw [stepPlaces]
    exact .nil
  | some e => by
    rw [moveStep, stepLayouts, stepPlaces]
    exact e.ascends.node

theorem Stmt.ascends : ∀ s : Stmt, Ascends 1 (s.move .shrink).parts s.innerPlaces
  | .localDecl names init _ => by
    rw [Stmt.move, Stmt.parts, Stmt.innerPlaces, ← List.nil_append (exprPlaces init)]
    exact Ascends.nil.append (ascends_exprs init)
  | .assign targets init _ => by
    rw [Stmt.move, Stmt.parts, Stmt.innerPlaces]
    exact (ascends_exprs targets).append (ascends_exprs init)
  | .call call _ => by
    rw [Stmt.move, Stmt.parts, Stmt.innerPlaces]
    exact call.ascends.node
  | .functionDecl name _ func _ => by
    rw [Stmt.move, Stmt.parts, Stmt.innerPlaces]
    exact name.ascends.node.append func.ascends
  | .returnStmt values _ => by
    rw [Stmt.move, Stmt.parts, Stmt.innerPlaces]
    exact ascends_exprs values
  | .ifStmt cond thenBlock clauses elseBlock _ => by
    rw [Stmt.move, Stmt.parts, Stmt.innerPlaces]
    -- a condition behind `elseif` is a place itself, so it needs the first condition before it
    exact cond.ascends.behind (thenBlock.ascends.weaken.append
      ((ascends_clauses clauses).append (ascends_else elseBlock).weaken))
  | .whileLoop cond block _ => by
    rw [Stmt.move, Stmt.parts, Stmt.innerPlaces]
    exact cond.ascends.node.append block.ascends
  | .forNumeric var start stop step block _ => by
    have hvar : Ascends 1 [(var.move .shrink).layout] [] := .nil
    rw [Stmt.move, Stmt.parts, Stmt.innerPlaces]
    simpa using hvar.append (start.ascends.node.append (stop.ascends.node.append
      ((ascends_step step).append block.ascends)))
  | .forGeneric vars iterators block _ => by
    rw [Stmt.move, Stmt.parts, Stmt.innerPlaces, ← List.nil_append (exprPlaces iterators)]
    exact (Ascends.nil.append (ascends_exprs iterators)).append block.ascends
  | .repeatLoop block cond _ => by
    rw [Stmt.move, Stmt.parts, Stmt.innerPlaces]
    exact block.ascends.append cond.ascends.node
  | .doBlock block _ => by
    rw [Stmt.move, Stmt.parts, Stmt.innerPlaces]
    exact block.ascends
  | .breakStmt _ | .goto .. | .label .. => by
    rw [Stmt.innerPlaces]
    exact .nil

theorem ascends_stmts : ∀ ss : List Stmt,
    Ascends 0 (stmtLayouts (moveStmts .shrink ss)) (stmtPlaces ss)
  | [] => by
    rw [stmtPlaces]
    exact .nil
  | s :: ss => by
    rw [moveStmts, stmtLayouts, stmtPlaces, Stmt.span_move]
    exact s.ascends.place.append (ascends_stmts ss)

end

/-! ### Whole sources -/

/-- The places of a source start at positions that come one behind the other. -/
theorem pairwise_places {s : String} {chunk : Chunk} (h : parse s = .ok chunk) :
    (chunk.body.places.map Span.startPos).Pairwise Position.Before := by
  obtain ⟨c, c', hstart, hbody⟩ := exists_of_parse h
  obtain ⟨ts, hts, hrest, -⟩ := exists_of_start hstart
  have hordered : Ordered (Marks s) 0 c.rest := by
    rw [hrest]
    exact (ordered_of_tokens hts).filter _
  -- the moved tokens are read to the moved tree, which is laid out as any tree is
  have hmoved : body (c.move .shrink) = .ok (chunk.body.move .shrink) (c'.move .shrink) := by
    rw [moves_body .shrink c, hbody]
    rfl
  obtain ⟨hi, hlaid⟩ := laid_body hordered.shrink _ _ hmoved
  obtain ⟨hrising, hedge⟩ := chunk.body.ascends _ 0 hi (laidIn_singleton.2 hlaid)
  have hmarks : ∀ a ∈ chunk.body.places, Marks s a.opening := by
    intro a ha
    have hodd : (2 * a.start + 1) / 2 = a.start := by omega
    have hmark : Marks s ⟨(2 * a.start + 1) / 2, a.startPos⟩ := hedge a ha
    rwa [hodd] at hmark
  refine List.pairwise_map.2 (hrising.apart.imp_of_mem fun {a b} ha hb hlt => ?_)
  have hstarts : a.start < b.start := by
    have hodd : 2 * a.start + 1 < 2 * b.start + 1 := hlt
    omega
  exact (hmarks a ha).before (hmarks b hb) hstarts

end Source

end LuaTranspiler
