import LuaTranspiler.Proofs.Token.Order

/-!
# Where the parts of a tree lie

A layout keeps of a tree only where its parts lie: the spans of its nodes and the offsets at which
its blocks open. It is laid between two offsets when each part lies inside its node, and the parts
of a node follow one another without overlap.

* `Layout`: nodes with spans, and blocks
* `Laid edge lo hi x`, `LaidIn edge lo hi xs`: one layout, or several in a row, between offsets
* `Expr.layout`, `Stmt.layout`, `Block.layout`: the layouts of trees
-/

namespace LuaTranspiler.Source

/-- Where the parts of a tree lie. -/
inductive Layout where
  | node (span : Span) (parts : List Layout)
  | block (start : Nat) (stmts : List Layout)

mutual

/-- A layout lies between two offsets: a node has its parts inside its span, a block has its
statements behind its start. -/
def Laid (edge : Point → Prop) (lo hi : Nat) : Layout → Prop
  | .node span parts => span.Fits edge lo hi ∧ LaidIn edge span.start span.stop parts
  | .block start stmts => lo ≤ start ∧ LaidIn edge start hi stmts

/-- Layouts lie between two offsets, one behind the other. -/
def LaidIn (edge : Point → Prop) (lo hi : Nat) : List Layout → Prop
  | [] => lo ≤ hi
  | x :: xs => ∃ mid, Laid edge lo mid x ∧ LaidIn edge mid hi xs

end

section Laid

variable {edge : Point → Prop} {lo lo' mid hi hi' start : Nat} {a b : Span}
  {x : Layout} {xs ys : List Layout}

@[simp] theorem laid_node :
    Laid edge lo hi (.node a xs) ↔ a.Fits edge lo hi ∧ LaidIn edge a.start a.stop xs := by
  rw [Laid]

@[simp] theorem laid_block :
    Laid edge lo hi (.block start xs) ↔ lo ≤ start ∧ LaidIn edge start hi xs := by
  rw [Laid]

@[simp] theorem laidIn_nil : LaidIn edge lo hi [] ↔ lo ≤ hi := by
  rw [LaidIn]

@[simp] theorem laidIn_cons :
    LaidIn edge lo hi (x :: xs) ↔ ∃ mid, Laid edge lo mid x ∧ LaidIn edge mid hi xs := by
  rw [LaidIn]

mutual

theorem Laid.le {x : Layout} {lo hi : Nat} (h : Laid edge lo hi x) : lo ≤ hi := by
  match x with
  | .node a xs => exact (laid_node.1 h).1.le
  | .block start xs =>
    obtain ⟨hstart, hxs⟩ := laid_block.1 h
    exact hstart.trans hxs.le

theorem LaidIn.le {xs : List Layout} {lo hi : Nat} (h : LaidIn edge lo hi xs) : lo ≤ hi := by
  match xs with
  | [] => exact laidIn_nil.1 h
  | x :: xs =>
    obtain ⟨mid, hx, hxs⟩ := laidIn_cons.1 h
    exact hx.le.trans hxs.le

end

mutual

theorem Laid.mono {x : Layout} {lo lo' hi hi' : Nat} (h : Laid edge lo hi x) (hlo : lo' ≤ lo)
    (hhi : hi ≤ hi') : Laid edge lo' hi' x := by
  match x with
  | .node a xs =>
    obtain ⟨ha, hxs⟩ := laid_node.1 h
    exact laid_node.2 ⟨ha.mono hlo hhi, hxs⟩
  | .block start xs =>
    obtain ⟨hstart, hxs⟩ := laid_block.1 h
    exact laid_block.2 ⟨hlo.trans hstart, hxs.mono le_rfl hhi⟩

theorem LaidIn.mono {xs : List Layout} {lo lo' hi hi' : Nat} (h : LaidIn edge lo hi xs)
    (hlo : lo' ≤ lo) (hhi : hi ≤ hi') : LaidIn edge lo' hi' xs := by
  match xs with
  | [] => exact laidIn_nil.2 (hlo.trans ((laidIn_nil.1 h).trans hhi))
  | x :: xs =>
    obtain ⟨mid, hx, hxs⟩ := laidIn_cons.1 h
    exact laidIn_cons.2 ⟨mid, hx.mono hlo le_rfl, hxs.mono le_rfl hhi⟩

end

theorem laidIn_append :
    LaidIn edge lo hi (xs ++ ys) ↔ ∃ mid, LaidIn edge lo mid xs ∧ LaidIn edge mid hi ys := by
  induction xs generalizing lo with
  | nil =>
    constructor
    · intro h
      exact ⟨lo, laidIn_nil.2 le_rfl, h⟩
    · rintro ⟨mid, hlo, h⟩
      exact h.mono (laidIn_nil.1 hlo) le_rfl
  | cons x xs ih =>
    constructor
    · intro h
      obtain ⟨m, hx, h⟩ := laidIn_cons.1 h
      obtain ⟨mid, hxs, hys⟩ := ih.1 h
      exact ⟨mid, laidIn_cons.2 ⟨m, hx, hxs⟩, hys⟩
    · rintro ⟨mid, h, hys⟩
      obtain ⟨m, hx, hxs⟩ := laidIn_cons.1 h
      exact laidIn_cons.2 ⟨m, hx, ih.2 ⟨mid, hxs, hys⟩⟩

theorem laidIn_singleton : LaidIn edge lo hi [x] ↔ Laid edge lo hi x := by
  constructor
  · intro h
    obtain ⟨mid, hx, hmid⟩ := laidIn_cons.1 h
    exact hx.mono le_rfl (laidIn_nil.1 hmid)
  · intro h
    exact laidIn_cons.2 ⟨hi, h, laidIn_nil.2 le_rfl⟩

/-- The parts of a node lie wherever the node does. -/
theorem Laid.parts (h : Laid edge lo hi (.node a xs)) : LaidIn edge lo hi xs := by
  obtain ⟨ha, hxs⟩ := laid_node.1 h
  exact hxs.mono ha.lower ha.upper

end Laid

/-! ### Layouts of trees -/

/-- The layout of a name. -/
def Name.layout (n : Name) : Layout := .node n.span []

/-- The layout of a parameter. -/
def Param.layout (p : Param) : Layout := .node p.span []

mutual

/-- The layouts of the parts of an expression. -/
def Expr.parts : Expr → List Layout
  | .ident .. | .literal .. => []
  | .member base _ name _ => [.node base.span base.parts, name.layout]
  | .index base index _ => [.node base.span base.parts, .node index.span index.parts]
  | .unary _ operand _ => [.node operand.span operand.parts]
  | .binary lhs _ rhs _ | .logical lhs _ rhs _ =>
    [.node lhs.span lhs.parts, .node rhs.span rhs.parts]
  | .table fields _ => fieldLayouts fields
  | .call base args _ => .node base.span base.parts :: exprLayouts args
  | .stringCall base argument _ | .tableCall base argument _ =>
    [.node base.span base.parts, .node argument.span argument.parts]
  | .function func _ => func.parts

/-- The layouts of expressions. -/
def exprLayouts : List Expr → List Layout
  | [] => []
  | e :: es => .node e.span e.parts :: exprLayouts es

/-- The layouts of the parts of a field. -/
def Field.parts : Field → List Layout
  | .keyed key value _ => [.node key.span key.parts, .node value.span value.parts]
  | .named key value _ => [key.layout, .node value.span value.parts]
  | .positional value _ => [.node value.span value.parts]

/-- The layouts of fields. -/
def fieldLayouts : List Field → List Layout
  | [] => []
  | f :: fs => .node f.span f.parts :: fieldLayouts fs

/-- The layouts of the parameters and the body of a function. -/
def Function.parts : Function → List Layout
  | .mk params body => params.map Param.layout ++ [body.layout]

/-- The layout of a block. -/
def Block.layout : Block → Layout
  | .mk start stmts => .block start (stmtLayouts stmts)

/-- The layouts of the parts of a clause. -/
def Clause.parts : Clause → List Layout
  | .mk cond block => [.node cond.span cond.parts, block.layout]

/-- The layouts of the parts of clauses. -/
def clauseLayouts : List Clause → List Layout
  | [] => []
  | c :: cs => c.parts ++ clauseLayouts cs

/-- The layout of the block behind `else`, if there is one. -/
def elseLayouts : Option Block → List Layout
  | none => []
  | some block => [block.layout]

/-- The layout of the step of a loop, if there is one. -/
def stepLayouts : Option Expr → List Layout
  | none => []
  | some e => [.node e.span e.parts]

/-- The layouts of the parts of a statement. -/
def Stmt.parts : Stmt → List Layout
  | .localDecl names init _ => names.map Name.layout ++ exprLayouts init
  | .assign targets init _ => exprLayouts targets ++ exprLayouts init
  | .call call _ => [.node call.span call.parts]
  | .functionDecl name _ func _ => .node name.span name.parts :: func.parts
  | .returnStmt values _ => exprLayouts values
  | .ifStmt cond thenBlock clauses elseBlock _ =>
    .node cond.span cond.parts :: thenBlock.layout ::
      (clauseLayouts clauses ++ elseLayouts elseBlock)
  | .whileLoop cond block _ => [.node cond.span cond.parts, block.layout]
  | .forNumeric var start stop step block _ =>
    [var.layout, .node start.span start.parts, .node stop.span stop.parts] ++ stepLayouts step ++
      [block.layout]
  | .forGeneric vars iterators block _ =>
    vars.map Name.layout ++ exprLayouts iterators ++ [block.layout]
  | .repeatLoop block cond _ => [block.layout, .node cond.span cond.parts]
  | .doBlock block _ => [block.layout]
  | .breakStmt _ | .goto .. | .label .. => []

/-- The layouts of statements. -/
def stmtLayouts : List Stmt → List Layout
  | [] => []
  | s :: ss => .node s.span s.parts :: stmtLayouts ss

end

/-- The layout of an expression. -/
def Expr.layout (e : Expr) : Layout := .node e.span e.parts

/-- The layout of a field. -/
def Field.layout (f : Field) : Layout := .node f.span f.parts

/-- The layout of a statement. -/
def Stmt.layout (s : Stmt) : Layout := .node s.span s.parts

theorem exprLayouts_eq_map (es : List Expr) : exprLayouts es = es.map Expr.layout := by
  induction es with
  | nil => rw [exprLayouts, List.map_nil]
  | cons e es ih => rw [exprLayouts, ih, List.map_cons, Expr.layout]

theorem fieldLayouts_eq_map (fs : List Field) : fieldLayouts fs = fs.map Field.layout := by
  induction fs with
  | nil => rw [fieldLayouts, List.map_nil]
  | cons f fs ih => rw [fieldLayouts, ih, List.map_cons, Field.layout]

theorem clauseLayouts_eq_flatMap (cs : List Clause) :
    clauseLayouts cs = cs.flatMap Clause.parts := by
  induction cs with
  | nil => rw [clauseLayouts, List.flatMap_nil]
  | cons c cs ih => rw [clauseLayouts, ih, List.flatMap_cons]

theorem stmtLayouts_eq_map (ss : List Stmt) : stmtLayouts ss = ss.map Stmt.layout := by
  induction ss with
  | nil => rw [stmtLayouts, List.map_nil]
  | cons s ss ih => rw [stmtLayouts, ih, List.map_cons, Stmt.layout]

@[simp] theorem Expr.parts_withSpan (span : Span) (e : Expr) :
    (e.withSpan span).parts = e.parts := by
  cases e <;> simp only [Expr.withSpan, Expr.parts]

end LuaTranspiler.Source
