import LuaTranspiler.Source.Chunk

/-!
# Reading does not look at places

A parser decides by the kinds and the texts of tokens alone. Their spans go into the tree, joined
from one token to another, and the end of the token before a block goes in as the block's offset.
So when all tokens are moved, the same tree is read, moved likewise.

* `Move`: a change of places that joins of spans go along with
* `Expr.move`, `Block.move`, `SyntaxError.move` and others: what is read, moved
* `Moves f m p q`: at moved tokens `q` does what `p` does, with its result moved by `m`
* `ignoresPlaces_grammar`, `moves_body`: all parsers are such
-/

namespace LuaTranspiler

/-- A change of places: of spans, and of the offsets at which blocks open. -/
structure Move where
  span : Span → Span
  offset : Nat → Nat
  span_through (a b : Span) : span (a.through b) = (span a).through (span b)
  stop_span (a : Span) : (span a).stop = offset a.stop
  offset_zero : offset 0 = 0

/-- A token at another place. -/
def Token.move (f : Move) (t : Token) : Token := ⟨t.kind, t.literal, f.span t.span⟩

/-- A cursor before moved tokens. -/
def Cursor.move (f : Move) (c : Cursor) : Cursor := ⟨f.span c.last, c.rest.map (Token.move f)⟩

/-- An error at another place. -/
def SyntaxError.move (f : Move) : SyntaxError → SyntaxError
  | unrecognized text span => unrecognized text (f.span span)
  | unexpectedToken found expected span => unexpectedToken found expected (f.span span)
  | unexpectedEnd => unexpectedEnd
  | expectedExpression found span => expectedExpression found (f.span span)
  | expectedStatement found span => expectedStatement found (f.span span)
  | expectedCall span => expectedCall (f.span span)
  | invalidTarget span => invalidTarget (f.span span)
  | returnNotLast span => returnNotLast (f.span span)
  | malformedNumber text span => malformedNumber text (f.span span)
  | invalidEscape span => invalidEscape (f.span span)

namespace Source

open LuaTranspiler.Parser

/-! ### Trees -/

section Trees

variable (f : Move)

/-- A name at another place. -/
def Name.move (n : Name) : Name := ⟨n.text, f.span n.span⟩

/-- A parameter at another place. -/
def Param.move : Param → Param
  | .named name span => .named name (f.span span)
  | .vararg span => .vararg (f.span span)

mutual

/-- An expression at another place. -/
def Expr.move : Expr → Expr
  | .ident name span => .ident name (f.span span)
  | .literal value span => .literal value (f.span span)
  | .member base indexer name span => .member base.move indexer (name.move f) (f.span span)
  | .index base i span => .index base.move i.move (f.span span)
  | .unary op operand span => .unary op operand.move (f.span span)
  | .binary lhs op rhs span => .binary lhs.move op rhs.move (f.span span)
  | .logical lhs op rhs span => .logical lhs.move op rhs.move (f.span span)
  | .table fields span => .table (moveFields fields) (f.span span)
  | .call base args span => .call base.move (moveExprs args) (f.span span)
  | .stringCall base argument span => .stringCall base.move argument.move (f.span span)
  | .tableCall base argument span => .tableCall base.move argument.move (f.span span)
  | .function func span => .function func.move (f.span span)

/-- Expressions at another place. -/
def moveExprs : List Expr → List Expr
  | [] => []
  | e :: es => e.move :: moveExprs es

/-- A field at another place. -/
def Field.move : Field → Field
  | .keyed key value span => .keyed key.move value.move (f.span span)
  | .named key value span => .named (key.move f) value.move (f.span span)
  | .positional value span => .positional value.move (f.span span)

/-- Fields at another place. -/
def moveFields : List Field → List Field
  | [] => []
  | e :: es => e.move :: moveFields es

/-- A function at another place. -/
def Function.move : Function → Function
  | .mk params body => .mk (params.map (Param.move f)) body.move

/-- A block at another place. -/
def Block.move : Block → Block
  | .mk start stmts => .mk (f.offset start) (moveStmts stmts)

/-- Statements at another place. -/
def moveStmts : List Stmt → List Stmt
  | [] => []
  | s :: ss => s.move :: moveStmts ss

/-- A clause at another place. -/
def Clause.move : Clause → Clause
  | .mk cond block => .mk cond.move block.move

/-- Clauses at another place. -/
def moveClauses : List Clause → List Clause
  | [] => []
  | c :: cs => c.move :: moveClauses cs

/-- The block behind `else` at another place. -/
def moveElse : Option Block → Option Block
  | none => none
  | some block => some block.move

/-- The step of a loop at another place. -/
def moveStep : Option Expr → Option Expr
  | none => none
  | some step => some step.move

/-- A statement at another place. -/
def Stmt.move : Stmt → Stmt
  | .localDecl names init span =>
    .localDecl (names.map (Name.move f)) (moveExprs init) (f.span span)
  | .assign targets init span => .assign (moveExprs targets) (moveExprs init) (f.span span)
  | .call call span => .call call.move (f.span span)
  | .functionDecl name isLocal func span =>
    .functionDecl name.move isLocal func.move (f.span span)
  | .returnStmt values span => .returnStmt (moveExprs values) (f.span span)
  | .ifStmt cond thenBlock clauses elseBlock span =>
    .ifStmt cond.move thenBlock.move (moveClauses clauses) (moveElse elseBlock) (f.span span)
  | .whileLoop cond block span => .whileLoop cond.move block.move (f.span span)
  | .forNumeric var start stop step block span =>
    .forNumeric (var.move f) start.move stop.move (moveStep step) block.move (f.span span)
  | .forGeneric vars iterators block span =>
    .forGeneric (vars.map (Name.move f)) (moveExprs iterators) block.move (f.span span)
  | .breakStmt span => .breakStmt (f.span span)
  | .repeatLoop block cond span => .repeatLoop block.move cond.move (f.span span)
  | .doBlock block span => .doBlock block.move (f.span span)
  | .goto label span => .goto label (f.span span)
  | .label name span => .label name (f.span span)

end

variable {f}

theorem moveExprs_eq_map (es : List Expr) : moveExprs f es = es.map (Expr.move f) := by
  induction es with
  | nil => rfl
  | cons e es ih => rw [moveExprs, ih, List.map_cons]

theorem moveFields_eq_map (es : List Field) : moveFields f es = es.map (Field.move f) := by
  induction es with
  | nil => rfl
  | cons e es ih => rw [moveFields, ih, List.map_cons]

theorem moveStmts_eq_map (ss : List Stmt) : moveStmts f ss = ss.map (Stmt.move f) := by
  induction ss with
  | nil => rfl
  | cons s ss ih => rw [moveStmts, ih, List.map_cons]

theorem moveClauses_eq_map (cs : List Clause) : moveClauses f cs = cs.map (Clause.move f) := by
  induction cs with
  | nil => rfl
  | cons c cs ih => rw [moveClauses, ih, List.map_cons]

theorem moveElse_eq_map (block : Option Block) : moveElse f block = block.map (Block.move f) := by
  cases block <;> rfl

theorem moveStep_eq_map (step : Option Expr) : moveStep f step = step.map (Expr.move f) := by
  cases step <;> rfl

@[simp] theorem Expr.span_move (e : Expr) : (e.move f).span = f.span e.span := by
  cases e <;> rfl

@[simp] theorem Stmt.span_move (s : Stmt) : (s.move f).span = f.span s.span := by
  cases s <;> rfl

theorem Expr.move_withSpan (span : Span) (e : Expr) :
    (e.withSpan span).move f = (e.move f).withSpan (f.span span) := by
  cases e <;> rfl

@[simp] theorem Expr.isCall_move (e : Expr) : (e.move f).isCall = e.isCall := by
  cases e <;> rfl

@[simp] theorem Expr.isAssignable_move (e : Expr) : (e.move f).isAssignable = e.isAssignable := by
  cases e <;> rfl

theorem find?_isAssignable_move (es : List Expr) :
    (es.map (Expr.move f)).find? (fun e => !e.isAssignable) =
      (es.find? fun e => !e.isAssignable).map (Expr.move f) := by
  simp only [List.find?_map, Function.comp_def, Expr.isAssignable_move]

theorem InfixOp.apply_move (op : InfixOp) (lhs rhs : Expr) :
    op.apply (lhs.move f) (rhs.move f) = (op.apply lhs rhs).move f := by
  cases op <;> simp only [InfixOp.apply, Expr.move, Expr.span_move, f.span_through]

end Trees

/-! ### Rules -/

section Rules

variable {f : Move} {α β : Type} {m : α → α} {k : β → β} {p p' : Parser α}

/-- What a parser gives, moved: its result by `m`, the cursor and an error by `f`. -/
def moveResult (f : Move) (m : α → α) :
    EStateM.Result SyntaxError Cursor α → EStateM.Result SyntaxError Cursor α
  | .ok a c => .ok (m a) (c.move f)
  | .error e c => .error (e.move f) (c.move f)

/-- At moved tokens `p'` does what `p` does, with its result moved by `m`. -/
def Moves (f : Move) (m : α → α) (p p' : Parser α) : Prop :=
  ∀ c, p' (c.move f) = moveResult f m (p c)

theorem moves_pure {a b : α} (h : b = m a) : Moves f m (pure a) (pure b) := by
  subst h
  exact fun _ => rfl

theorem moves_throw {e e' : SyntaxError} (h : e' = e.move f) : Moves f m (throw e) (throw e') := by
  subst h
  exact fun _ => rfl

theorem Moves.bind {q q' : α → Parser β} (hp : Moves f m p p')
    (hq : ∀ a, Moves f k (q a) (q' (m a))) : Moves f k (p >>= q) (p' >>= q') := by
  intro c
  simp only [Bind.bind, EStateM.bind, hp c]
  cases p c with
  | ok a c' => exact hq a c'
  | error e c' => rfl

theorem moves_map {h : α → β} (hk : ∀ a, k (h a) = h (m a)) (hp : Moves f m p p') :
    Moves f k (h <$> p) (h <$> p') := by
  intro c
  simp only [Functor.map, EStateM.map, hp c]
  cases p c with
  | ok a c' => simp only [moveResult, hk]
  | error e c' => rfl

theorem moves_ofExcept {r r' : Except SyntaxError α}
    (h : r' = (r.mapError (SyntaxError.move f)).map m) : Moves f m (ofExcept r) (ofExcept r') := by
  subst h
  cases r <;> exact fun _ => rfl

theorem moves_peek? : Moves f (Option.map (Token.move f)) peek? peek? := by
  rintro ⟨last, _ | ⟨t, ts⟩⟩ <;> rfl

theorem moves_peekKind? : Moves f id peekKind? peekKind? := by
  rintro ⟨last, _ | ⟨t, ts⟩⟩ <;> rfl

theorem moves_peekNth? (n : Nat) : Moves f id (peekNth? n) (peekNth? n) := by
  intro c
  simp [peekNth?, moveResult, Cursor.move, Function.comp_def, Token.move]

theorem moves_advance : Moves f (Option.map (Token.move f)) advance advance := by
  rintro ⟨last, _ | ⟨t, ts⟩⟩ <;> rfl

theorem moves_check (kind : TokenKind) : Moves f id (check kind) (check kind) := by
  rintro ⟨last, _ | ⟨t, ts⟩⟩ <;> rfl

theorem moves_eat (kind : TokenKind) :
    Moves f (Option.map (Token.move f)) (eat kind) (eat kind) := by
  rintro ⟨last, _ | ⟨t, ts⟩⟩
  · rfl
  · by_cases hkind : t.kind = kind <;>
      simp [eat, Cursor.move, Token.move, moveResult, hkind]

theorem moves_unexpected (kinds : List TokenKind) :
    Moves f m (unexpected kinds) (unexpected kinds) := by
  rintro ⟨last, _ | ⟨t, ts⟩⟩ <;> rfl

theorem moves_expect (kind : TokenKind) : Moves f (Token.move f) (expect kind) (expect kind) := by
  rintro ⟨last, _ | ⟨t, ts⟩⟩
  · rfl
  · by_cases hkind : t.kind = kind <;>
      simp [expect, Cursor.move, Token.move, moveResult, SyntaxError.move, hkind]

theorem moves_require (kind : TokenKind) : Moves f id (require kind) (require kind) := by
  refine (moves_check kind).bind fun b => ?_
  cases b
  · exact moves_unexpected [kind]
  · exact moves_pure rfl

theorem moves_finish (a : Span) : Moves f f.span (finish a) (finish (f.span a)) := by
  intro c
  simp only [finish, moveResult, Cursor.move, f.span_through]

theorem go_move (kind : TokenKind) (last : Span) (ts : List Token) :
    skip.go kind (f.span last) (ts.map (Token.move f)) = (skip.go kind last ts).move f := by
  induction ts generalizing last with
  | nil => rfl
  | cons t ts ih =>
    simp only [List.map_cons, skip.go, Token.move]
    split
    · exact ih t.span
    · rfl

theorem moves_skip (kind : TokenKind) : Moves f id (skip kind) (skip kind) := by
  intro c
  simp only [skip, moveResult, Cursor.move, go_move, id]

theorem moves_manyUpTo {item item' : Parser (Option α)} (h : Moves f (Option.map m) item item')
    (bound : List Token) :
    Moves f (List.map m) (manyUpTo item bound) (manyUpTo item' (bound.map (Token.move f))) := by
  induction bound with
  | nil =>
    refine h.bind fun o => ?_
    cases o <;> exact moves_pure rfl
  | cons t bound ih =>
    refine h.bind fun o => ?_
    cases o with
    | none => exact moves_pure rfl
    | some a => exact ih.bind fun as => moves_pure rfl

/-- What each item does, a loop does. -/
theorem moves_many {item item' : Parser (Option α)} (h : Moves f (Option.map m) item item') :
    Moves f (List.map m) (many item) (many item') :=
  fun c => moves_manyUpTo h c.rest c

theorem moves_iterateUpTo {step step' : α → Parser (Option α)}
    (h : ∀ a, Moves f (Option.map m) (step a) (step' (m a))) (bound : List Token) (a : α) :
    Moves f m (iterateUpTo step bound a) (iterateUpTo step' (bound.map (Token.move f)) (m a)) := by
  induction bound generalizing a with
  | nil =>
    refine (h a).bind fun o => ?_
    cases o <;> exact moves_pure rfl
  | cons t bound ih =>
    refine (h a).bind fun o => ?_
    cases o with
    | none => exact moves_pure rfl
    | some b => exact ih b

/-- What each step does, an iteration does. -/
theorem moves_iterate {step step' : α → Parser (Option α)}
    (h : ∀ a, Moves f (Option.map m) (step a) (step' (m a))) (a : α) :
    Moves f m (iterate step a) (iterate step' (m a)) :=
  fun c => moves_iterateUpTo h c.rest a c

theorem moves_behindComma (hp : Moves f m p p') :
    Moves f (Option.map m) (behindComma p) (behindComma p') := by
  refine (moves_eat .comma).bind fun o => ?_
  cases o with
  | none => exact moves_pure rfl
  | some t => exact hp.bind fun a => moves_pure rfl

theorem moves_commaList (hp : Moves f m p p') :
    Moves f (List.map m) (commaList p) (commaList p') :=
  hp.bind fun _ => (moves_many (moves_behindComma hp)).bind fun _ => moves_pure rfl

end Rules

/-! ### Expressions -/

section Expressions

variable {f : Move}

theorem stringValue_move (t : Token) :
    stringValue (t.move f) = (stringValue t).mapError (SyntaxError.move f) := by
  have hkind : (t.move f).kind = t.kind := rfl
  have hquoted : (t.move f).quoted? = t.quoted? := rfl
  unfold stringValue
  rw [hkind, hquoted]
  by_cases hlong : t.kind = .longString
  · rw [if_pos hlong, if_pos hlong]
    rfl
  · rw [if_neg hlong, if_neg hlong]
    cases t.quoted? <;> rfl

theorem literal?_move (t : Token) :
    literal? (t.move f) = (literal? t).mapError (SyntaxError.move f) := by
  have hnumber : (t.move f).number? = t.number? := rfl
  unfold literal?
  rw [stringValue_move, hnumber]
  simp only [Token.move]
  split
  case h_1 | h_2 => cases t.number? <;> rfl
  case h_3 | h_4 => cases stringValue t <;> rfl
  all_goals rfl

theorem moves_name : Moves f (Name.move f) name name :=
  (moves_expect .name).bind fun _ => moves_pure rfl

theorem moves_finish_expr (e : Expr) :
    Moves f f.span (finish e.span) (finish (e.move f).span) := by
  rw [Expr.span_move]
  exact moves_finish e.span

theorem moves_param? : Moves f (Option.map (Param.move f)) param? param? := by
  refine (moves_check .rightParen).bind fun b => ?_
  cases b with
  | true => exact moves_pure rfl
  | false =>
    refine (moves_eat .ellipsis).bind fun o => ?_
    cases o with
    | some t =>
      exact (moves_require .rightParen).bind fun _ => moves_pure rfl
    | none =>
      refine moves_name.bind fun n => (moves_eat .comma).bind fun o => ?_
      cases o with
      | some t => exact moves_pure rfl
      | none =>
        exact (moves_require .rightParen).bind fun _ => moves_pure rfl

/-- The readers of a grammar do not look at places. -/
structure Grammar.IgnoresPlaces (g : Grammar) (f : Move) : Prop where
  expr (limit : Nat) : Moves f (Expr.move f) (g.expr limit) (g.expr limit)
  block (offset : Nat) : Moves f (Block.move f) (g.block offset) (g.block (f.offset offset))

variable {g : Grammar} (hg : g.IgnoresPlaces f)
include hg

theorem moves_exprList : Moves f (List.map (Expr.move f)) g.exprList g.exprList :=
  moves_commaList (hg.expr 0)

/-- The block behind a token. -/
theorem moves_blockBehind (t : Token) :
    Moves f (Block.move f) (g.block t.span.stop) (g.block (t.move f).span.stop) := by
  have hstop : (t.move f).span.stop = f.offset t.span.stop := f.stop_span t.span
  rw [hstop]
  exact hg.block t.span.stop

theorem moves_functionBody : Moves f (Function.move f) g.functionBody g.functionBody := by
  refine (moves_expect .leftParen).bind fun _ => (moves_many moves_param?).bind fun params => ?_
  refine (moves_expect .rightParen).bind fun close => ?_
  refine (moves_blockBehind hg close).bind fun body => ?_
  exact (moves_expect .kwEnd).bind fun _ => moves_pure rfl

theorem moves_field : Moves f (Field.move f) g.field g.field := by
  refine (moves_peekNth? 1).bind fun next => moves_peek?.bind fun o => ?_
  cases o with
  | none => exact moves_throw rfl
  | some t =>
    simp only [Option.map_some, Token.move, id]
    split
    · refine moves_advance.bind fun _ => (hg.expr 0).bind fun key => ?_
      refine (moves_expect .rightBracket).bind fun _ => (moves_expect .equal).bind fun _ => ?_
      refine (hg.expr 0).bind fun value => (moves_finish t.span).bind fun span => ?_
      exact moves_pure rfl
    · split
      · refine moves_name.bind fun key => (moves_expect .equal).bind fun _ => ?_
        refine (hg.expr 0).bind fun value => (moves_finish t.span).bind fun span => ?_
        exact moves_pure rfl
      · refine (hg.expr 0).bind fun value => (moves_finish t.span).bind fun span => ?_
        exact moves_pure rfl

theorem moves_field? : Moves f (Option.map (Field.move f)) g.field? g.field? := by
  refine (moves_check .rightBrace).bind fun b => ?_
  cases b with
  | true => exact moves_pure rfl
  | false =>
    refine (moves_field hg).bind fun field => (moves_eat .comma).bind fun o => ?_
    cases o with
    | some t => exact moves_pure rfl
    | none =>
      refine (moves_eat .semicolon).bind fun o => ?_
      cases o with
      | some t => exact moves_pure rfl
      | none => exact (moves_require .rightBrace).bind fun _ => moves_pure rfl

theorem moves_table : Moves f (Expr.move f) g.table g.table := by
  refine (moves_expect .leftBrace).bind fun opening => ?_
  refine (moves_many (moves_field? hg)).bind fun fields => ?_
  refine (moves_expect .rightBrace).bind fun _ => (moves_finish opening.span).bind fun span => ?_
  rw [← moveFields_eq_map]
  exact moves_pure rfl

theorem moves_callArgs (base : Expr) :
    Moves f (Expr.move f) (g.callArgs base) (g.callArgs (base.move f)) := by
  have hfinish := moves_finish_expr (f := f) base
  have hstring (t : Token) : Moves f id (ofExcept (stringValue t))
      (ofExcept (stringValue (t.move f))) := by
    refine moves_ofExcept ?_
    rw [stringValue_move, Except.map_id]
    rfl
  have hclose (args : List Expr) : Moves f (Expr.move f)
      (do
        let _ ← expect .rightParen
        return .call base args (← finish base.span))
      (do
        let _ ← expect .rightParen
        return .call (base.move f) (args.map (Expr.move f)) (← finish (base.move f).span)) := by
    refine (moves_expect .rightParen).bind fun _ => hfinish.bind fun span => moves_pure ?_
    rw [Expr.move, moveExprs_eq_map]
  refine moves_peek?.bind fun o => ?_
  cases o with
  | none => exact moves_throw rfl
  | some t =>
    simp only [Option.map_some]
    have hkind : (t.move f).kind = t.kind := rfl
    rw [hkind]
    split
    · refine moves_advance.bind fun _ => (moves_check .rightParen).bind fun b => ?_
      cases b with
      | true => exact hclose []
      | false => exact (moves_exprList hg).bind hclose
    · exact (hstring t).bind fun s => moves_advance.bind fun _ => hfinish.bind fun span =>
        moves_pure rfl
    · exact (hstring t).bind fun s => moves_advance.bind fun _ => hfinish.bind fun span =>
        moves_pure rfl
    · exact (moves_table hg).bind fun argument => hfinish.bind fun span => moves_pure rfl
    · exact moves_unexpected _

theorem moves_primary : Moves f (Expr.move f) g.primary g.primary := by
  refine moves_peek?.bind fun o => ?_
  cases o with
  | none => exact moves_throw rfl
  | some t =>
    simp only [Option.map_some, Token.move]
    split
    · exact moves_advance.bind fun _ => moves_pure rfl
    · refine moves_advance.bind fun _ => (hg.expr 0).bind fun e => ?_
      refine (moves_expect .rightParen).bind fun _ => (moves_finish t.span).bind fun span => ?_
      exact moves_pure (e.move_withSpan span).symm
    · exact moves_throw rfl

theorem moves_suffix? (base : Expr) :
    Moves f (Option.map (Expr.move f)) (g.suffix? base) (g.suffix? (base.move f)) := by
  have hfinish := moves_finish_expr (f := f) base
  refine moves_peekKind?.bind fun kind => ?_
  simp only [id]
  split
  · exact moves_advance.bind fun _ => moves_name.bind fun n => hfinish.bind fun span =>
      moves_pure rfl
  · refine moves_advance.bind fun _ => (hg.expr 0).bind fun i => ?_
    exact (moves_expect .rightBracket).bind fun _ => hfinish.bind fun span => moves_pure rfl
  · refine moves_advance.bind fun _ => moves_name.bind fun n => hfinish.bind fun span => ?_
    exact (moves_callArgs hg (.member base .colon n span)).bind fun e => moves_pure rfl
  iterate 4 exact (moves_callArgs hg base).bind fun e => moves_pure rfl
  · exact moves_pure rfl

theorem moves_suffixed : Moves f (Expr.move f) g.suffixed g.suffixed :=
  (moves_primary hg).bind fun e => moves_iterate (moves_suffix? hg) e

theorem moves_simple : Moves f (Expr.move f) g.simple g.simple := by
  refine moves_peek?.bind fun o => ?_
  cases o with
  | none => exact moves_throw rfl
  | some t =>
    have hliteral : Moves f id (ofExcept (literal? t)) (ofExcept (literal? (t.move f))) := by
      refine moves_ofExcept ?_
      rw [literal?_move, Except.map_id]
      rfl
    refine hliteral.bind fun o => ?_
    cases o with
    | some value => exact moves_advance.bind fun _ => moves_pure rfl
    | none =>
      simp only [id, Token.move]
      split
      · exact moves_table hg
      · refine moves_advance.bind fun _ => (moves_functionBody hg).bind fun func => ?_
        exact (moves_finish t.span).bind fun span => moves_pure rfl
      · exact moves_suffixed hg

theorem moves_operand : Moves f (Expr.move f) g.operand g.operand := by
  refine moves_peek?.bind fun o => ?_
  cases o with
  | none => exact moves_throw rfl
  | some t =>
    simp only [Option.map_some, Token.move]
    split
    · refine moves_advance.bind fun _ => (hg.expr unaryPriority).bind fun e => moves_pure ?_
      rw [Expr.span_move, ← f.span_through]
      rfl
    · exact moves_simple hg

theorem moves_extend? (limit : Nat) (lhs : Expr) :
    Moves f (Option.map (Expr.move f)) (g.extend? limit lhs) (g.extend? limit (lhs.move f)) := by
  refine moves_peekKind?.bind fun kind => ?_
  simp only [id]
  split
  · exact moves_pure rfl
  next op _ =>
    split
    · exact moves_pure rfl
    · refine moves_advance.bind fun _ => (hg.expr op.priority.2).bind fun rhs => moves_pure ?_
      rw [InfixOp.apply_move, Option.map_some]

theorem moves_subexpr (limit : Nat) : Moves f (Expr.move f) (g.subexpr limit) (g.subexpr limit) :=
  (moves_operand hg).bind fun e => moves_iterate (moves_extend? hg limit) e

end Expressions

/-! ### Statements -/

section Statements

variable {f : Move}

theorem moves_dotStep? (path : Expr) :
    Moves f (Option.map (Expr.move f)) (dotStep? path) (dotStep? (path.move f)) := by
  refine (moves_eat .dot).bind fun o => ?_
  cases o with
  | none => exact moves_pure rfl
  | some t =>
    exact moves_name.bind fun n => (moves_finish_expr path).bind fun span => moves_pure rfl

theorem moves_functionName : Moves f (Expr.move f) functionName functionName := by
  refine moves_name.bind fun first => ?_
  refine (moves_iterate moves_dotStep? (.ident first.text first.span)).bind fun path => ?_
  refine (moves_eat .colon).bind fun o => ?_
  cases o with
  | none => exact moves_pure rfl
  | some t =>
    exact moves_name.bind fun n => (moves_finish_expr path).bind fun span => moves_pure rfl

variable {g : Grammar} (hg : g.IgnoresPlaces f)
include hg

theorem moves_openBlock (kind : TokenKind) :
    Moves f (Block.move f) (g.openBlock kind) (g.openBlock kind) :=
  (moves_expect kind).bind fun opening => moves_blockBehind hg opening

theorem moves_doEnd : Moves f (Block.move f) g.doEnd g.doEnd :=
  (moves_openBlock hg .kwDo).bind fun _ => (moves_expect .kwEnd).bind fun _ => moves_pure rfl

theorem moves_localStmt (start : Span) :
    Moves f (Stmt.move f) (g.localStmt start) (g.localStmt (f.span start)) := by
  have hclose (names : List Name) (init : List Expr) : Moves f (Stmt.move f)
      (do return .localDecl names init (← finish start))
      (do
        return .localDecl (names.map (Name.move f)) (init.map (Expr.move f))
          (← finish (f.span start))) := by
    refine (moves_finish start).bind fun span => moves_pure ?_
    rw [Stmt.move, moveExprs_eq_map]
  refine (moves_expect .kwLocal).bind fun _ => (moves_eat .kwFunction).bind fun o => ?_
  cases o with
  | some t =>
    refine moves_name.bind fun n => (moves_functionBody hg).bind fun func => ?_
    exact (moves_finish start).bind fun span => moves_pure rfl
  | none =>
    refine (moves_commaList moves_name).bind fun names => (moves_eat .equal).bind fun o => ?_
    cases o with
    | some t => exact (moves_exprList hg).bind fun init => hclose names init
    | none => exact hclose names []

theorem moves_functionStmt (start : Span) :
    Moves f (Stmt.move f) (g.functionStmt start) (g.functionStmt (f.span start)) := by
  refine (moves_expect .kwFunction).bind fun _ => moves_functionName.bind fun path => ?_
  refine (moves_functionBody hg).bind fun func => ?_
  exact (moves_finish start).bind fun span => moves_pure rfl

theorem moves_clause? : Moves f (Option.map (Clause.move f)) g.clause? g.clause? := by
  refine (moves_eat .kwElseif).bind fun o => ?_
  cases o with
  | none => exact moves_pure rfl
  | some t =>
    exact (hg.expr 0).bind fun cond => (moves_openBlock hg .kwThen).bind fun block => moves_pure rfl

theorem moves_ifStmt (start : Span) :
    Moves f (Stmt.move f) (g.ifStmt start) (g.ifStmt (f.span start)) := by
  have hclose (cond : Expr) (block : Block) (clauses : List Clause) (elseBlock : Option Block) :
      Moves f (Stmt.move f)
        (do
          let _ ← expect .kwEnd
          return .ifStmt cond block clauses elseBlock (← finish start))
        (do
          let _ ← expect .kwEnd
          return .ifStmt (cond.move f) (block.move f) (clauses.map (Clause.move f))
            (elseBlock.map (Block.move f)) (← finish (f.span start))) := by
    refine (moves_expect .kwEnd).bind fun _ => (moves_finish start).bind fun span => moves_pure ?_
    rw [Stmt.move, moveClauses_eq_map, moveElse_eq_map]
  refine (moves_expect .kwIf).bind fun _ => (hg.expr 0).bind fun cond => ?_
  refine (moves_openBlock hg .kwThen).bind fun block => ?_
  refine (moves_many (moves_clause? hg)).bind fun clauses => (moves_eat .kwElse).bind fun o => ?_
  cases o with
  | some t =>
    refine (moves_map (k := Option.map (Block.move f)) ?_ (moves_blockBehind hg t)).bind fun o => ?_
    · exact fun _ => rfl
    · exact hclose cond block clauses o
  | none => exact hclose cond block clauses none

theorem moves_whileStmt (start : Span) :
    Moves f (Stmt.move f) (g.whileStmt start) (g.whileStmt (f.span start)) := by
  refine (moves_expect .kwWhile).bind fun _ => (hg.expr 0).bind fun cond => ?_
  exact (moves_doEnd hg).bind fun block => (moves_finish start).bind fun span => moves_pure rfl

theorem moves_forStmt (start : Span) :
    Moves f (Stmt.move f) (g.forStmt start) (g.forStmt (f.span start)) := by
  have hclose (var : Name) (lower upper : Expr) (step : Option Expr) :
      Moves f (Stmt.move f)
        (do
          let block ← g.doEnd
          return .forNumeric var lower upper step block (← finish start))
        (do
          let block ← g.doEnd
          return .forNumeric (var.move f) (lower.move f) (upper.move f)
            (step.map (Expr.move f)) block (← finish (f.span start))) := by
    refine (moves_doEnd hg).bind fun block => (moves_finish start).bind fun span => moves_pure ?_
    rw [Stmt.move, moveStep_eq_map]
  refine (moves_expect .kwFor).bind fun _ => moves_name.bind fun first => ?_
  refine (moves_eat .equal).bind fun o => ?_
  cases o with
  | some t =>
    refine (hg.expr 0).bind fun lower => (moves_expect .comma).bind fun _ => ?_
    refine (hg.expr 0).bind fun upper => (moves_eat .comma).bind fun o => ?_
    cases o with
    | some t =>
      refine (moves_map (k := Option.map (Expr.move f)) ?_ (hg.expr 0)).bind fun step => ?_
      · exact fun _ => rfl
      · exact hclose first lower upper step
    | none => exact hclose first lower upper none
  | none =>
    refine (moves_many (moves_behindComma moves_name)).bind fun others => ?_
    refine (moves_expect .kwIn).bind fun _ => (moves_exprList hg).bind fun iterators => ?_
    refine (moves_doEnd hg).bind fun block => (moves_finish start).bind fun span => moves_pure ?_
    rw [Stmt.move, moveExprs_eq_map, List.map_cons]

theorem moves_repeatStmt (start : Span) :
    Moves f (Stmt.move f) (g.repeatStmt start) (g.repeatStmt (f.span start)) := by
  refine (moves_openBlock hg .kwRepeat).bind fun block => (moves_expect .kwUntil).bind fun _ => ?_
  exact (hg.expr 0).bind fun cond => (moves_finish start).bind fun span => moves_pure rfl

theorem moves_exprStmt (start : Span) :
    Moves f (Stmt.move f) (g.exprStmt start) (g.exprStmt (f.span start)) := by
  refine (moves_suffixed hg).bind fun first => ?_
  refine (moves_check .equal).bind fun b => (moves_check .comma).bind fun b' => ?_
  simp only [id]
  split
  · refine (moves_many (moves_behindComma (moves_suffixed hg))).bind fun others => ?_
    rw [← List.map_cons, find?_isAssignable_move]
    cases (first :: others).find? fun e => !e.isAssignable with
    | some e => exact moves_throw (by rw [Expr.span_move]; rfl)
    | none =>
      refine (moves_expect .equal).bind fun _ => (moves_exprList hg).bind fun init => ?_
      refine (moves_finish start).bind fun span => moves_pure ?_
      rw [Stmt.move, moveExprs_eq_map, moveExprs_eq_map]
  · rw [Expr.isCall_move]
    split
    · exact (moves_finish start).bind fun span => moves_pure rfl
    · exact moves_throw (by rw [Expr.span_move]; rfl)

theorem moves_stmt : Moves f (Stmt.move f) g.stmt g.stmt := by
  refine moves_peek?.bind fun o => ?_
  cases o with
  | none => exact moves_throw rfl
  | some t =>
    simp only [Option.map_some, Token.move]
    split
    · exact moves_localStmt hg t.span
    · exact moves_functionStmt hg t.span
    · exact moves_ifStmt hg t.span
    · exact moves_whileStmt hg t.span
    · exact moves_forStmt hg t.span
    · exact moves_repeatStmt hg t.span
    · exact (moves_doEnd hg).bind fun block => (moves_finish t.span).bind fun span => moves_pure rfl
    · exact moves_advance.bind fun _ => (moves_finish t.span).bind fun span => moves_pure rfl
    · refine moves_advance.bind fun _ => moves_name.bind fun n => ?_
      exact (moves_finish t.span).bind fun span => moves_pure rfl
    · refine moves_advance.bind fun _ => moves_name.bind fun n => ?_
      refine (moves_expect .doubleColon).bind fun _ => ?_
      exact (moves_finish t.span).bind fun span => moves_pure rfl
    iterate 2 exact moves_exprStmt hg t.span
    · exact moves_throw rfl

theorem moves_returnStmt : Moves f (Stmt.move f) g.returnStmt g.returnStmt := by
  have hclose (start : Span) (values : List Expr) : Moves f (Stmt.move f)
      (do return .returnStmt values (← finish start))
      (do return .returnStmt (values.map (Expr.move f)) (← finish (f.span start))) := by
    refine (moves_finish start).bind fun span => moves_pure ?_
    rw [Stmt.move, moveExprs_eq_map]
  refine (moves_expect .kwReturn).bind fun t => moves_peekKind?.bind fun kind => ?_
  simp only [id]
  split
  · exact hclose t.span []
  · exact (moves_exprList hg).bind fun values => hclose t.span values

theorem moves_stmt? : Moves f (Option.map (Stmt.move f)) g.stmt? g.stmt? := by
  refine (moves_skip .semicolon).bind fun _ => moves_peek?.bind fun o => ?_
  cases o with
  | none => exact moves_pure rfl
  | some t =>
    simp only [Option.map_some, Token.move]
    split
    · exact moves_pure rfl
    · split
      · refine (moves_returnStmt hg).bind fun s => (moves_eat .semicolon).bind fun _ => ?_
        refine moves_peek?.bind fun o => ?_
        cases o with
        | none => exact moves_pure rfl
        | some next =>
          simp only [Option.map_some, Token.move]
          split
          · exact moves_pure rfl
          · exact moves_throw rfl
      · exact (moves_stmt hg).bind fun s => moves_pure rfl

theorem moves_statements (start : Nat) :
    Moves f (Block.move f) (g.statements start) (g.statements (f.offset start)) := by
  refine (moves_many (moves_stmt? hg)).bind fun stmts => moves_pure ?_
  rw [Block.move, moveStmts_eq_map]

end Statements

/-- No reader looks at places. -/
theorem ignoresPlaces_grammar (f : Move) (n : Nat) : (grammar n).IgnoresPlaces f := by
  induction n with
  | zero => exact ⟨fun _ => moves_throw rfl, fun _ => moves_pure rfl⟩
  | succ n ih => exact ⟨moves_subexpr ih, moves_statements ih⟩

/-- The block read from moved tokens is the block read from the tokens, moved. -/
theorem moves_body (f : Move) : Moves f (Block.move f) body body := by
  have hblock : Moves f (Block.move f) (block 0) (block 0) := by
    intro c
    have hlength : (c.move f).rest.length = c.rest.length := by simp [Cursor.move]
    have hread := (ignoresPlaces_grammar f (c.rest.length + 1)).block 0 c
    rw [f.offset_zero] at hread
    rw [block, hlength, hread]
    rfl
  refine hblock.bind fun b => moves_peek?.bind fun o => ?_
  cases o with
  | none => exact moves_pure rfl
  | some t => exact (moves_unexpected (m := id) []).bind fun _ => moves_pure rfl

end Source

end LuaTranspiler
