import LuaTranspiler.Proofs.Source.Moving
import LuaTranspiler.Proofs.Source.Rendering
import LuaTranspiler.Proofs.Token.Respacing

/-!
# Layout and comments do not matter

A source is read by its tokens other than comments. With each of these on a line of its own it has
the same tokens at other places, and is read to the same tree at other places, or refused for the
same reason.

* `Move.forget`: all places are forgotten
* `respaced ts`: tokens other than comments, one to a line
* `unplacedParse s`: what a source is read to, or why it is refused, without places
* `unplacedParse_respaced`: respacing changes neither
-/

namespace LuaTranspiler

/-- All places are forgotten. -/
def Move.forget : Move where
  span _ := .unknown
  offset _ := 0
  span_through _ _ := rfl
  stop_span _ := rfl
  offset_zero := rfl

theorem Move.span_forget (a : Span) : forget.span a = .unknown := rfl

theorem Move.offset_forget (n : Nat) : forget.offset n = 0 := rfl

/-- An error without its place. -/
def SyntaxError.unplaced (e : SyntaxError) : SyntaxError := e.move .forget

namespace Source

/-! ### Trees without places -/

theorem Name.move_forget : Name.move .forget = Name.unplaced := rfl

theorem Param.move_forget : Param.move .forget = Param.unplaced := by
  funext p
  cases p <;> rfl

mutual

theorem Expr.move_forget : ∀ e : Expr, e.move .forget = e.unplaced
  | .ident .. | .literal .. => rfl
  | .member base .. => by
    simp only [Expr.move, Expr.unplaced, base.move_forget, Name.move_forget, Move.span_forget]
  | .index base i _ => by
    simp only [Expr.move, Expr.unplaced, base.move_forget, i.move_forget, Move.span_forget]
  | .unary _ operand _ => by
    simp only [Expr.move, Expr.unplaced, operand.move_forget, Move.span_forget]
  | .binary lhs _ rhs _ | .logical lhs _ rhs _ => by
    simp only [Expr.move, Expr.unplaced, lhs.move_forget, rhs.move_forget, Move.span_forget]
  | .table fields _ => by
    simp only [Expr.move, Expr.unplaced, moveFields_forget fields, Move.span_forget]
  | .call base args _ => by
    simp only [Expr.move, Expr.unplaced, base.move_forget, moveExprs_forget args, Move.span_forget]
  | .stringCall base argument _ | .tableCall base argument _ => by
    simp only [Expr.move, Expr.unplaced, base.move_forget, argument.move_forget, Move.span_forget]
  | .function func _ => by simp only [Expr.move, Expr.unplaced, func.move_forget, Move.span_forget]

theorem moveExprs_forget : ∀ es : List Expr, moveExprs .forget es = unplacedExprs es
  | [] => rfl
  | e :: es => by simp only [moveExprs, unplacedExprs, e.move_forget, moveExprs_forget es]

theorem Field.move_forget : ∀ e : Field, e.move .forget = e.unplaced
  | .keyed key value _ => by
    simp only [Field.move, Field.unplaced, key.move_forget, value.move_forget, Move.span_forget]
  | .named _ value _ => by
    simp only [Field.move, Field.unplaced, Name.move_forget, value.move_forget, Move.span_forget]
  | .positional value _ => by
    simp only [Field.move, Field.unplaced, value.move_forget, Move.span_forget]

theorem moveFields_forget : ∀ es : List Field, moveFields .forget es = unplacedFields es
  | [] => rfl
  | e :: es => by simp only [moveFields, unplacedFields, e.move_forget, moveFields_forget es]

theorem Function.move_forget : ∀ func : Function, func.move .forget = func.unplaced
  | .mk params body => by
    simp only [Function.move, Function.unplaced, Param.move_forget, body.move_forget]

theorem Block.move_forget : ∀ b : Block, b.move .forget = b.unplaced
  | .mk _ stmts => by
    simp only [Block.move, Block.unplaced, moveStmts_forget stmts, Move.offset_forget]

theorem moveStmts_forget : ∀ ss : List Stmt, moveStmts .forget ss = unplacedStmts ss
  | [] => rfl
  | s :: ss => by simp only [moveStmts, unplacedStmts, s.move_forget, moveStmts_forget ss]

theorem Clause.move_forget : ∀ c : Clause, c.move .forget = c.unplaced
  | .mk cond block => by
    simp only [Clause.move, Clause.unplaced, cond.move_forget, block.move_forget]

theorem moveClauses_forget : ∀ cs : List Clause, moveClauses .forget cs = unplacedClauses cs
  | [] => rfl
  | c :: cs => by simp only [moveClauses, unplacedClauses, c.move_forget, moveClauses_forget cs]

theorem moveElse_forget : ∀ b : Option Block, moveElse .forget b = unplacedElse b
  | none => rfl
  | some b => by simp only [moveElse, unplacedElse, b.move_forget]

theorem moveStep_forget : ∀ e : Option Expr, moveStep .forget e = unplacedStep e
  | none => rfl
  | some e => by simp only [moveStep, unplacedStep, e.move_forget]

theorem Stmt.move_forget : ∀ s : Stmt, s.move .forget = s.unplaced
  | .localDecl names init _ => by
    simp only [Stmt.move, Stmt.unplaced, Name.move_forget, moveExprs_forget init, Move.span_forget]
  | .assign targets init _ => by
    simp only [Stmt.move, Stmt.unplaced, moveExprs_forget targets, moveExprs_forget init,
      Move.span_forget]
  | .call call _ => by simp only [Stmt.move, Stmt.unplaced, call.move_forget, Move.span_forget]
  | .functionDecl name _ func _ => by
    simp only [Stmt.move, Stmt.unplaced, name.move_forget, func.move_forget, Move.span_forget]
  | .returnStmt values _ => by
    simp only [Stmt.move, Stmt.unplaced, moveExprs_forget values, Move.span_forget]
  | .ifStmt cond thenBlock clauses elseBlock _ => by
    simp only [Stmt.move, Stmt.unplaced, cond.move_forget, thenBlock.move_forget,
      moveClauses_forget clauses, moveElse_forget elseBlock, Move.span_forget]
  | .whileLoop cond block _ | .repeatLoop block cond _ => by
    simp only [Stmt.move, Stmt.unplaced, cond.move_forget, block.move_forget, Move.span_forget]
  | .forNumeric var start stop step block _ => by
    simp only [Stmt.move, Stmt.unplaced, Name.move_forget, start.move_forget, stop.move_forget,
      moveStep_forget step, block.move_forget, Move.span_forget]
  | .forGeneric vars iterators block _ => by
    simp only [Stmt.move, Stmt.unplaced, Name.move_forget, moveExprs_forget iterators,
      block.move_forget, Move.span_forget]
  | .breakStmt _ | .goto .. | .label .. => rfl
  | .doBlock block _ => by simp only [Stmt.move, Stmt.unplaced, block.move_forget, Move.span_forget]

end

/-! ### Sources without layout -/

/-- The tokens of a source that are read: all but its comments. -/
def codeTokens (ts : List Token) : List Token := ts.filter fun t => !isComment t

/-- The texts of all tokens but comments, with a newline between each and the next. -/
def respaced (ts : List Token) : String := "\n".intercalate ((codeTokens ts).map Token.literal)

/-- What a source is read to, or why it is refused, without places. -/
def unplacedParse (s : String) : Except SyntaxError Block :=
  ((parse s).map fun chunk => chunk.body.unplaced).mapError SyntaxError.unplaced

/-- What comes out of a run, apart from the cursor. -/
def outcome {α : Type} : EStateM.Result SyntaxError Cursor α → Except SyntaxError α
  | .ok a _ => .ok a
  | .error e _ => .error e

/-- Without places, a source is read as its tokens are without theirs. -/
theorem unplacedParse_of_tokens {s : String} {ts : List Token} (h : tokens s = .ok ts) :
    unplacedParse s = outcome (body (Cursor.move .forget ⟨endSpan s, codeTokens ts⟩)) := by
  rw [moves_body Move.forget]
  simp only [unplacedParse, parse, start, h, bind, Except.bind, pure, Except.pure, codeTokens]
  cases body ⟨endSpan s, ts.filter fun t => !isComment t⟩ with
  | ok b c => exact congrArg Except.ok b.move_forget.symm
  | error e c => rfl

theorem move_forget_eq_comp :
    Token.move .forget = (fun x => ⟨x.1, x.2, .unknown⟩) ∘ Token.lexeme := rfl

theorem mem_codeTokens {ts : List Token} {t : Token} :
    t ∈ codeTokens ts ↔ t ∈ ts ∧ t.kind ≠ .comment := by
  simp [codeTokens, isComment]

theorem codeTokens_eq_self {ts us : List Token}
    (h : us.map Token.lexeme = (codeTokens ts).map Token.lexeme) : codeTokens us = us := by
  refine List.filter_eq_self.2 fun u hu => ?_
  have hmem : u.lexeme ∈ (codeTokens ts).map Token.lexeme := h ▸ List.mem_map_of_mem hu
  obtain ⟨t, ht, hlexeme⟩ := List.mem_map.1 hmem
  have hkind : u.kind ≠ .comment := (Prod.mk.inj hlexeme).1 ▸ (mem_codeTokens.1 ht).2
  simp [isComment, hkind]

/-- Tokens on lines of their own are cut as they were. -/
theorem exists_tokens_respaced {s : String} {ts : List Token} (h : tokens s = .ok ts) :
    ∃ us, tokens (respaced ts) = .ok us ∧
      us.map Token.lexeme = (codeTokens ts).map Token.lexeme := by
  have halone : ∀ x ∈ (codeTokens ts).map Token.lexeme, StandsAlone x.1 x.2.toList := by
    intro x hx
    obtain ⟨t, ht, rfl⟩ := List.mem_map.1 hx
    obtain ⟨hts, hkind⟩ := mem_codeTokens.1 ht
    exact standsAlone_of_tokensFrom h hts hkind
  have htext : (respaced ts).toList =
      ['\n'].intercalate (((codeTokens ts).map Token.lexeme).map fun x => x.2.toList) := by
    rw [respaced, String.toList_intercalate, List.map_map, List.map_map]
    rfl
  obtain ⟨us, hus, hlexemes⟩ := tokensFrom_intercalate halone .origin
  exact ⟨us, by rw [tokens, htext, hus], hlexemes⟩

/-- **Layout and comments never change how a source is read.** With each token other than a comment
on a line of its own, a source has the same tokens and is read to the same tree, or refused for the
same reason, but for places. -/
theorem unplacedParse_respaced {s : String} {ts : List Token} (h : tokens s = .ok ts) :
    (∃ us, tokens (respaced ts) = .ok us ∧
      us.map Token.lexeme = (codeTokens ts).map Token.lexeme) ∧
    unplacedParse (respaced ts) = unplacedParse s := by
  obtain ⟨us, hus, hlexemes⟩ := exists_tokens_respaced h
  refine ⟨⟨us, hus, hlexemes⟩, ?_⟩
  rw [unplacedParse_of_tokens hus, unplacedParse_of_tokens h, codeTokens_eq_self hlexemes]
  have hmoved : us.map (Token.move .forget) = (codeTokens ts).map (Token.move .forget) := by
    rw [move_forget_eq_comp, ← List.map_map, ← List.map_map, hlexemes]
  simp only [Cursor.move, hmoved, Move.span_forget]

/-- Comments of both kinds stand between tokens that touch: a string over two lines, a number that
ends with a point before dots, a long string, and two dashes that are no comment. -/
def crampedSource : String :=
  "local s=--[=[ ]]\n]=]\"a\\\nb\"--c\nreturn s..1. ..[=[]]]=],- -.5e1,0x1F"

theorem unplacedParse_respaced_crampedSource :
    (parse crampedSource).isOk ∧ ∃ ts, tokens crampedSource = .ok ts ∧
      respaced ts = "\n".intercalate ["local", "s", "=", "\"a\\\nb\"", "return", "s", "..", "1.",
        "..", "[=[]]]=]", ",", "-", "-", ".5e1", ",", "0x1F"] ∧
      (∃ us, tokens (respaced ts) = .ok us ∧
        us.map Token.lexeme = (codeTokens ts).map Token.lexeme) ∧
      unplacedParse (respaced ts) = unplacedParse crampedSource := by
  have htokens : (tokens crampedSource).toOption.map respaced = some ("\n".intercalate
      ["local", "s", "=", "\"a\\\nb\"", "return", "s", "..", "1.", "..", "[=[]]]=]", ",", "-", "-",
        ".5e1", ",", "0x1F"]) := by
    decide +kernel
  refine ⟨by decide +kernel, ?_⟩
  cases hts : tokens crampedSource with
  | error e => simp [hts, Except.toOption] at htokens
  | ok ts =>
    rw [hts] at htokens
    exact ⟨ts, rfl, Option.some.inj htokens, unplacedParse_respaced hts⟩

end Source

end LuaTranspiler
