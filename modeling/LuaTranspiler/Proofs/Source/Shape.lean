import LuaTranspiler.Source.Chunk
import LuaTranspiler.Proofs.Source.Outcome
import LuaTranspiler.Proofs.Source.Rendering

/-!
# What is read is well formed

The trees that parsers return have the shapes of the grammar, at every depth. Most of it holds
whatever the cursor is; only that nothing follows `return` in a block, and nothing the variable
arguments in a list of parameters, depends on where such an item leaves the cursor.

* `Gives p P`: whatever `p` returns satisfies `P`
* `ensures_many_last`: items of which only the last may be final
* `Grammar.Shapes`: the readers of a grammar return well-formed trees
* `wellFormed_of_parse`: so does the reader of a whole source
-/

namespace LuaTranspiler.Source

open LuaTranspiler.Parser

/-! ### Lists of well-formed trees -/

theorem wellFormedExprs_iff {es : List Expr} :
    WellFormedExprs es ↔ ∀ e ∈ es, e.WellFormed false := by
  induction es with
  | nil => exact iff_of_true trivial (by simp)
  | cons e es ih =>
    rw [List.forall_mem_cons, ← ih]
    rfl

theorem wellFormedFields_iff {fs : List Field} : WellFormedFields fs ↔ ∀ f ∈ fs, f.WellFormed := by
  induction fs with
  | nil => exact iff_of_true trivial (by simp)
  | cons f fs ih =>
    rw [List.forall_mem_cons, ← ih]
    rfl

theorem wellFormedClauses_iff {cs : List Clause} :
    WellFormedClauses cs ↔ ∀ c ∈ cs, c.WellFormed := by
  induction cs with
  | nil => exact iff_of_true trivial (by simp)
  | cons c cs ih =>
    rw [List.forall_mem_cons, ← ih]
    rfl

theorem wellFormedStmts_iff {ss : List Stmt} :
    WellFormedStmts ss ↔ (∀ s ∈ ss, s.WellFormed) ∧ ∀ s ∈ ss.dropLast, s.isReturn = false := by
  induction ss with
  | nil => exact iff_of_true trivial (by simp)
  | cons s ss ih =>
    have hcons : WellFormedStmts (s :: ss) ↔
        (s.isReturn = true → ss = []) ∧ s.WellFormed ∧ WellFormedStmts ss := Iff.rfl
    rw [hcons, ih, List.forall_mem_cons]
    cases ss with
    | nil => simp
    | cons t ss => simp [and_left_comm, and_assoc]

namespace Expr

/-- Where an expression is called, more shapes are allowed. -/
theorem WellFormed.called {e : Expr} (h : e.WellFormed false) : e.WellFormed true := by
  match e, h with
  | .member .., h => exact ⟨.inr rfl, h.2⟩
  | .ident .., h | .literal .., h | .index .., h | .unary .., h | .binary .., h | .logical .., h
  | .table .., h | .call .., h | .stringCall .., h | .tableCall .., h | .function .., h => exact h

theorem WellFormed.withSpan {e : Expr} {called : Bool} (h : e.WellFormed called) (span : Span) :
    (e.withSpan span).WellFormed called := by
  cases e <;> exact h

theorem WellFormed.apply {lhs rhs : Expr} (hlhs : lhs.WellFormed false)
    (hrhs : rhs.WellFormed false) (op : InfixOp) : (op.apply lhs rhs).WellFormed false := by
  cases op <;> exact ⟨hlhs, hrhs⟩

theorem isFunctionName_of_isPath {e : Expr} (h : e.isPath = true) : e.isFunctionName = true := by
  match e, h with
  | .ident .., _ => rfl
  | .member _ .dot _ _, h => exact h

end Expr

/-- A well-formed statement that others may follow. -/
def Stmt.Continues (s : Stmt) : Prop := s.WellFormed ∧ s.isReturn = false

/-! ### What parsers return -/

section Gives

variable {α β : Type} {p : Parser α} {q : α → Parser β} {P : α → Prop} {Q : β → Prop} {c : Cursor}

/-- Whatever `p` returns satisfies `P`. -/
def Gives (p : Parser α) (P : α → Prop) : Prop := ∀ c, Ensures p c fun a _ => P a

namespace Gives

theorem pure {a : α} (h : P a) : Gives (pure a) P := fun _ => ensures_pure h

theorem throw {e : SyntaxError} : Gives (throw e) P := fun _ => ensures_throw

theorem bind (hp : Gives p P) (hq : ∀ a, P a → Gives (q a) Q) : Gives (p >>= q) Q :=
  fun c => (hp c).bind fun a c' ha => hq a ha c'

/-- Nothing has to be known of what `p` returns. -/
theorem after (hq : ∀ a, Gives (q a) Q) : Gives (p >>= q) Q := by
  have hp : Gives p fun _ => True := fun _ _ _ _ => trivial
  exact hp.bind fun a _ => hq a

theorem pure_bind {a : α} (hq : Gives (q a) Q) : Gives (Pure.pure a >>= q) Q := hq

theorem map_bind {γ : Type} {f : α → γ} {q : γ → Parser β} (hp : Gives p P)
    (hq : ∀ a, P a → Gives (q (f a)) Q) : Gives (f <$> p >>= q) Q :=
  fun c => (hp c).map_bind fun a c' ha => hq a ha c'

theorem iterate {step : α → Parser (Option α)} {a : α}
    (hstep : ∀ a, P a → Gives (step a) fun o => ∀ b ∈ o, P b) (ha : P a) :
    Gives (iterate step a) P := by
  intro c
  refine ensures_iterate (fun b c hb => (hstep b hb c).mono fun o _ ho => ?_) ha
  cases o with
  | none => exact hb
  | some d => exact ho d rfl

end Gives

/-- The items of a list of which only the last may be final, because a final item leaves the cursor
where there is no further item. -/
theorem ensures_many_last {item : Parser (Option α)} {final : α → Bool} (stopped : Cursor → Prop)
    (hstop : ∀ c, stopped c → Ensures item c fun o c' => o = none ∧ stopped c')
    (hitem : ∀ c, Ensures item c fun o c' => ∀ a ∈ o, P a ∧ (final a = true → stopped c')) :
    Ensures (many item) c fun as _ => (∀ a ∈ as, P a) ∧ ∀ a ∈ as.dropLast, final a = false := by
  -- as long as no item is final there may be more; behind a final one the loop can only stop
  let I (as : List α) (c : Cursor) : Prop :=
    (∀ a ∈ as, P a) ∧ (∀ a ∈ as.dropLast, final a = false) ∧
      ((∀ a ∈ as, final a = false) ∨ stopped c)
  have hstep : ∀ as c, I as c → Ensures item c fun o c' => I (as ++ o.toList) c' := by
    rintro as c ⟨hall, hinit, hlast⟩ o c' hrun
    rcases hlast with hlast | hc
    · cases o with
      | none => simpa using ⟨hall, hinit, .inl hlast⟩
      | some a =>
        obtain ⟨ha, hfinal⟩ := hitem c _ c' hrun a rfl
        refine ⟨?_, ?_, ?_⟩
        · simpa [or_imp, forall_and] using ⟨hall, ha⟩
        · simpa using hlast
        · cases hcase : final a with
          | true => exact .inr (hfinal hcase)
          | false => simpa [or_imp, forall_and, hcase] using .inl hlast
    · obtain ⟨rfl, hc'⟩ := hstop c hc o c' hrun
      simpa using ⟨hall, hinit, .inr hc'⟩
  refine (ensures_many hstep ⟨by simp, by simp, by simp⟩).mono ?_
  exact fun as c' h => ⟨h.1, h.2.1⟩

theorem Gives.many {item : Parser (Option α)} (hitem : Gives item fun o => ∀ a ∈ o, P a) :
    Gives (many item) fun as => ∀ a ∈ as, P a := by
  intro c
  refine ensures_many (fun as c has => (hitem c).mono fun o _ ho => ?_) (by simp)
  rintro a ha
  rcases List.mem_append.1 ha with ha | ha
  · exact has a ha
  · exact ho a (by simpa using ha)

theorem Gives.behindComma (hp : Gives p P) : Gives (behindComma p) fun o => ∀ a ∈ o, P a := by
  refine .after fun comma => ?_
  cases comma with
  | none => exact .pure (by simp)
  | some _ => exact hp.bind fun a ha => .pure (by simpa using ha)

theorem Gives.commaList (hp : Gives p P) :
    Gives (commaList p) fun as => as ≠ [] ∧ ∀ a ∈ as, P a := by
  refine hp.bind fun a ha => hp.behindComma.many.bind fun as has => .pure ?_
  exact ⟨List.cons_ne_nil a as, List.forall_mem_cons.2 ⟨ha, has⟩⟩

end Gives

/-! ### Parameters -/

/-- The cursor is before a token of some kind. -/
def Before (kind : TokenKind) (c : Cursor) : Prop := c.rest.head?.map Token.kind = some kind

theorem ensures_require_before {β : Type} {kind : TokenKind} {q : Unit → Parser β} {c : Cursor}
    {post : β → Cursor → Prop} (h : Before kind c → Ensures (q ()) c post) :
    Ensures (require kind >>= q) c post := by
  have hrequire : Ensures (require kind) c fun _ c' => c' = c ∧ Before kind c := by
    refine ensures_check fun b hb => ?_
    split
    next htrue => exact ensures_pure ⟨rfl, hb.1 htrue⟩
    next => exact ensures_unexpected
  refine hrequire.bind ?_
  rintro _ _ ⟨rfl, hc⟩
  exact h hc

theorem ensures_params {c : Cursor} :
    Ensures (many param?) c fun ps _ => ∀ p ∈ ps.dropLast, p.isVararg = false := by
  have hmany : Ensures (many param?) c fun ps _ =>
      (∀ p ∈ ps, True) ∧ ∀ p ∈ ps.dropLast, p.isVararg = false := by
    refine ensures_many_last (Before .rightParen) (fun c hc => ?_) fun c => ?_
    · refine ensures_check fun closed hclosed => ?_
      rw [if_pos (hclosed.2 hc)]
      exact ensures_pure ⟨rfl, hc⟩
    · refine ensures_check fun closed _ => ?_
      split
      · exact ensures_pure (by simp)
      · refine ensures_eat.bind fun o c' _ => ?_
        cases o with
        -- the variable arguments are read only before the closing parenthesis
        | some t =>
          exact ensures_require_before fun hc' => ensures_pure (by simpa using fun _ => hc')
        | none =>
          have hname : Gives (do
              let n ← name
              if (← eat .comma).isNone then require .rightParen
              return some (Param.named n.text n.span)) fun o => ∀ p ∈ o, p.isVararg = false := by
            refine .after fun n => .after fun comma => ?_
            dsimp only
            split
            · exact .after fun _ => .pure (by simp [Param.isVararg])
            · exact .pure (by simp [Param.isVararg])
          refine (hname c').mono fun o _ ho p hp => ⟨trivial, fun hvararg => ?_⟩
          simp [ho p hp] at hvararg
  exact hmany.mono fun ps _ h => h.2

/-! ### Expressions -/

/-- The readers of a grammar return well-formed expressions and blocks. -/
structure Grammar.Shapes (g : Grammar) : Prop where
  expr : ∀ limit, Gives (g.expr limit) fun e => e.WellFormed false
  block : ∀ start, Gives (g.block start) Block.WellFormed

namespace Grammar.Shapes

variable {g : Grammar}

theorem exprList (hg : g.Shapes) : Gives g.exprList fun es => es ≠ [] ∧ WellFormedExprs es := by
  intro c
  exact ((hg.expr 0).commaList c).mono fun es _ h => ⟨h.1, wellFormedExprs_iff.2 h.2⟩

theorem functionBody (hg : g.Shapes) : Gives g.functionBody Function.WellFormed := by
  refine .after fun _ => Gives.bind (fun _ => ensures_params) fun params hparams => ?_
  refine .after fun close => (hg.block _).bind fun body hbody => .after fun _ => ?_
  exact .pure ⟨hparams, hbody⟩

theorem field (hg : g.Shapes) : Gives g.field Field.WellFormed := by
  refine .after fun next => .after fun o => ?_
  cases o with
  | none => exact .throw
  | some t =>
    dsimp only
    split
    · refine .after fun _ => (hg.expr 0).bind fun key hkey => .after fun _ => .after fun _ => ?_
      exact (hg.expr 0).bind fun value hvalue => .after fun span => .pure ⟨hkey, hvalue⟩
    · split
      · refine .after fun key => .after fun _ => ?_
        exact (hg.expr 0).bind fun value hvalue => .after fun span => .pure hvalue
      · exact (hg.expr 0).bind fun value hvalue => .after fun span => .pure hvalue

theorem field? (hg : g.Shapes) : Gives g.field? fun o => ∀ f ∈ o, f.WellFormed := by
  refine .after fun closed => ?_
  split
  · exact .pure (by simp)
  · refine hg.field.bind fun f hf => ?_
    have hsome : ∀ f' ∈ some f, f'.WellFormed := by simpa using hf
    refine .after fun comma => ?_
    dsimp only
    split
    · refine .after fun semicolon => ?_
      split
      · exact .after fun _ => .pure hsome
      · exact .pure hsome
    · exact .pure hsome

theorem table (hg : g.Shapes) : Gives g.table fun e => e.isTable = true ∧ e.WellFormed false := by
  refine .after fun opening => hg.field?.many.bind fun fields hfields => ?_
  refine .after fun _ => .after fun span => .pure ⟨rfl, ?_⟩
  exact wellFormedFields_iff.2 hfields

theorem callArgs (hg : g.Shapes) {base : Expr} (hbase : base.WellFormed true) :
    Gives (g.callArgs base) fun e => e.isCall = true ∧ e.WellFormed false := by
  refine .after fun o => ?_
  cases o with
  | none => exact .throw
  | some t =>
    dsimp only
    split
    case h_1 =>
      refine .after fun _ => .after fun closed => ?_
      split
      · exact .pure_bind <| .after fun _ => .after fun span => .pure ⟨rfl, hbase, trivial⟩
      · refine hg.exprList.bind fun args hargs => .after fun _ => .after fun span => ?_
        exact .pure ⟨rfl, hbase, hargs.2⟩
    case h_2 | h_3 =>
      exact .after fun s => .after fun _ => .after fun span => .pure ⟨rfl, hbase, rfl⟩
    case h_4 =>
      refine hg.table.bind fun argument hargument => .after fun span => ?_
      exact .pure ⟨rfl, hbase, hargument⟩
    case h_5 => exact fun _ => ensures_unexpected

theorem primary (hg : g.Shapes) : Gives g.primary fun e => e.WellFormed false := by
  refine .after fun o => ?_
  cases o with
  | none => exact .throw
  | some t =>
    dsimp only
    split
    · exact .after fun _ => .pure trivial
    · refine .after fun _ => (hg.expr 0).bind fun e he => .after fun _ => .after fun span => ?_
      exact .pure (he.withSpan span)
    · exact .throw

/-- A method is read together with its call. -/
theorem suffix? (hg : g.Shapes) {base : Expr} (hbase : base.WellFormed false) :
    Gives (g.suffix? base) fun o => ∀ e ∈ o, e.WellFormed false := by
  have hcall : ∀ base : Expr, base.WellFormed true → Gives (do
      let e ← g.callArgs base
      return some e) fun o => ∀ e ∈ o, e.WellFormed false :=
    fun base hbase => (hg.callArgs hbase).bind fun e he => .pure (by simpa using he.2)
  refine .after fun kind => ?_
  split
  case h_1 =>
    refine .after fun _ => .after fun n => .after fun span => .pure ?_
    simpa using ⟨.inl rfl, hbase⟩
  case h_2 =>
    refine .after fun _ => (hg.expr 0).bind fun i hi => .after fun _ => .after fun span => .pure ?_
    simpa using ⟨hbase, hi⟩
  case h_3 =>
    exact .after fun _ => .after fun n => .after fun span => hcall _ ⟨.inr rfl, hbase⟩
  case h_4 | h_5 | h_6 | h_7 => exact hcall base hbase.called
  case h_8 => exact .pure (by simp)

theorem suffixed (hg : g.Shapes) : Gives g.suffixed fun e => e.WellFormed false :=
  hg.primary.bind fun _ he => .iterate (fun _ h => hg.suffix? h) he

theorem simple (hg : g.Shapes) : Gives g.simple fun e => e.WellFormed false := by
  refine .after fun o => ?_
  cases o with
  | none => exact .throw
  | some t =>
    refine .after fun value => ?_
    cases value with
    | some value => exact .after fun _ => .pure trivial
    | none =>
      dsimp only
      split
      · exact fun c => (hg.table c).mono fun e _ h => h.2
      · exact .after fun _ => hg.functionBody.bind fun f hf => .after fun span => .pure hf
      · exact hg.suffixed

theorem operand (hg : g.Shapes) : Gives g.operand fun e => e.WellFormed false := by
  refine .after fun o => ?_
  cases o with
  | none => exact .throw
  | some t =>
    dsimp only
    split
    · exact .after fun _ => (hg.expr _).bind fun e he => .pure he
    · exact hg.simple

theorem extend? (hg : g.Shapes) {limit : Nat} {lhs : Expr} (hlhs : lhs.WellFormed false) :
    Gives (g.extend? limit lhs) fun o => ∀ e ∈ o, e.WellFormed false := by
  refine .after fun kind => ?_
  split
  · exact .pure (by simp)
  next op _ =>
    split
    · exact .pure (by simp)
    · refine .after fun _ => (hg.expr _).bind fun rhs hrhs => .pure ?_
      simpa using hlhs.apply hrhs op

theorem subexpr (hg : g.Shapes) (limit : Nat) :
    Gives (g.subexpr limit) fun e => e.WellFormed false :=
  hg.operand.bind fun _ he => .iterate (fun _ h => hg.extend? h) he

/-! ### Statements -/


theorem openBlock (hg : g.Shapes) {kind : TokenKind} : Gives (g.openBlock kind) Block.WellFormed :=
  .after fun _ => hg.block _

theorem doEnd (hg : g.Shapes) : Gives g.doEnd Block.WellFormed :=
  hg.openBlock.bind fun _ hb => .after fun _ => .pure hb

theorem localStmt (hg : g.Shapes) (start : Span) : Gives (g.localStmt start) Stmt.Continues := by
  refine .after fun _ => .after fun o => ?_
  cases o with
  | some _ =>
    exact .after fun n => hg.functionBody.bind fun f hf => .after fun span => .pure ⟨⟨rfl, hf⟩, rfl⟩
  | none =>
    have hnames : Gives (commaList name) fun names => names ≠ [] ∧ ∀ n ∈ names, True :=
      Gives.commaList fun _ _ _ _ => trivial
    refine hnames.bind fun names hnames => .after fun o => ?_
    cases o with
    | some _ =>
      exact hg.exprList.bind fun init hinit => .after fun span => .pure ⟨⟨hnames.1, hinit.2⟩, rfl⟩
    | none =>
      exact .pure_bind <| .after fun span => .pure ⟨⟨hnames.1, trivial⟩, rfl⟩

end Grammar.Shapes

theorem gives_functionName : Gives functionName fun e => e.isFunctionName = true := by
  refine .after fun first => ?_
  have hstep : ∀ e, e.isPath = true → Gives (dotStep? e) fun o => ∀ e' ∈ o, e'.isPath = true := by
    intro e he
    refine .after fun o => ?_
    cases o with
    | none => exact .pure (by simp)
    | some _ => exact .after fun n => .after fun span => .pure (by simpa [Expr.isPath] using he)
  have hpath : (Expr.ident first.text first.span).isPath = true := rfl
  refine (Gives.iterate hstep hpath).bind fun path hpath => .after fun o => ?_
  cases o with
  | none => exact .pure (Expr.isFunctionName_of_isPath hpath)
  | some _ => exact .after fun n => .after fun span => .pure hpath

namespace Grammar.Shapes

variable {g : Grammar}

theorem functionStmt (hg : g.Shapes) (start : Span) :
    Gives (g.functionStmt start) Stmt.Continues := by
  refine .after fun _ => gives_functionName.bind fun path hpath => ?_
  exact hg.functionBody.bind fun f hf => .after fun span => .pure ⟨⟨hpath, hf⟩, rfl⟩

theorem clause? (hg : g.Shapes) : Gives g.clause? fun o => ∀ c ∈ o, c.WellFormed := by
  refine .after fun o => ?_
  cases o with
  | none => exact .pure (by simp)
  | some _ =>
    refine (hg.expr 0).bind fun cond hcond => hg.openBlock.bind fun block hblock => .pure ?_
    simpa using ⟨hcond, hblock⟩

theorem ifStmt (hg : g.Shapes) (start : Span) : Gives (g.ifStmt start) Stmt.Continues := by
  refine .after fun _ => (hg.expr 0).bind fun cond hcond => ?_
  refine hg.openBlock.bind fun thenBlock hthen => hg.clause?.many.bind fun clauses hclauses => ?_
  replace hclauses := wellFormedClauses_iff.2 hclauses
  refine .after fun o => ?_
  cases o with
  | some t =>
    refine (hg.block _).map_bind fun elseBlock helse => .after fun _ => .after fun span => ?_
    exact .pure ⟨⟨hcond, hthen, hclauses, helse⟩, rfl⟩
  | none =>
    refine .pure_bind <| .after fun _ => .after fun span => ?_
    exact .pure ⟨⟨hcond, hthen, hclauses, trivial⟩, rfl⟩

theorem whileStmt (hg : g.Shapes) (start : Span) : Gives (g.whileStmt start) Stmt.Continues := by
  refine .after fun _ => (hg.expr 0).bind fun cond hcond => hg.doEnd.bind fun block hblock => ?_
  exact .after fun span => .pure ⟨⟨hcond, hblock⟩, rfl⟩

theorem forStmt (hg : g.Shapes) (start : Span) : Gives (g.forStmt start) Stmt.Continues := by
  refine .after fun _ => .after fun first => .after fun o => ?_
  cases o with
  | some _ =>
    refine (hg.expr 0).bind fun lower hlower => .after fun _ => ?_
    refine (hg.expr 0).bind fun upper hupper => .after fun o => ?_
    cases o with
    | some _ =>
      refine (hg.expr 0).map_bind fun step hstep => hg.doEnd.bind fun block hblock => ?_
      exact .after fun span => .pure ⟨⟨hlower, hupper, hstep, hblock⟩, rfl⟩
    | none =>
      refine .pure_bind <| hg.doEnd.bind fun block hblock => ?_
      exact .after fun span => .pure ⟨⟨hlower, hupper, trivial, hblock⟩, rfl⟩
  | none =>
    refine .after fun others => .after fun _ => hg.exprList.bind fun iterators hiterators => ?_
    refine hg.doEnd.bind fun block hblock => .after fun span => .pure ?_
    exact ⟨⟨List.cons_ne_nil first others, hiterators.1, hiterators.2, hblock⟩, rfl⟩

theorem repeatStmt (hg : g.Shapes) (start : Span) :
    Gives (g.repeatStmt start) Stmt.Continues := by
  refine hg.openBlock.bind fun block hblock => .after fun _ => ?_
  exact (hg.expr 0).bind fun cond hcond => .after fun span => .pure ⟨⟨hcond, hblock⟩, rfl⟩

theorem exprStmt (hg : g.Shapes) (start : Span) : Gives (g.exprStmt start) Stmt.Continues := by
  refine hg.suffixed.bind fun first hfirst => .after fun _ => .after fun _ => ?_
  split
  · refine hg.suffixed.behindComma.many.bind fun others hothers => ?_
    split
    · exact .throw
    next hfind =>
      refine .after fun _ => hg.exprList.bind fun init hinit => .after fun span => .pure ?_
      have hassignable : ∀ e ∈ first :: others, e.isAssignable = true := by
        simpa using List.find?_eq_none.1 hfind
      have htargets := wellFormedExprs_iff.2 (List.forall_mem_cons.2 ⟨hfirst, hothers⟩)
      exact ⟨⟨List.cons_ne_nil first others, hassignable, htargets, hinit⟩, rfl⟩
  · split
    next hcall => exact .after fun span => .pure ⟨⟨hcall, hfirst⟩, rfl⟩
    next => exact .throw

theorem stmt (hg : g.Shapes) : Gives g.stmt Stmt.Continues := by
  refine .after fun o => ?_
  cases o with
  | none => exact .throw
  | some t =>
    dsimp only
    split
    · exact hg.localStmt t.span
    · exact hg.functionStmt t.span
    · exact hg.ifStmt t.span
    · exact hg.whileStmt t.span
    · exact hg.forStmt t.span
    · exact hg.repeatStmt t.span
    · exact hg.doEnd.bind fun block hblock => .after fun span => .pure ⟨hblock, rfl⟩
    · exact .after fun _ => .after fun span => .pure ⟨trivial, rfl⟩
    · exact .after fun _ => .after fun n => .after fun span => .pure ⟨trivial, rfl⟩
    · exact .after fun _ => .after fun n => .after fun _ => .after fun span => .pure ⟨trivial, rfl⟩
    case h_11 | h_12 => exact hg.exprStmt t.span
    case h_13 => exact .throw

theorem returnStmt (hg : g.Shapes) : Gives g.returnStmt Stmt.WellFormed := by
  refine .after fun t => .after fun kind => ?_
  split
  · exact .pure_bind <| .after fun span => .pure trivial
  · exact hg.exprList.bind fun values hvalues => .after fun span => .pure hvalues.2

end Grammar.Shapes

/-! ### Blocks -/

/-- The cursor is before a token that ends a block, or behind all tokens. -/
def AtBlockEnd (c : Cursor) : Prop := ∀ t ∈ c.rest.head?, t.kind.endsBlock = true

/-- No semicolon ends a block, so there is none to skip at its end. -/
theorem AtBlockEnd.skip {c : Cursor} (hc : AtBlockEnd c) :
    skip.go .semicolon c.last c.rest = c := by
  obtain ⟨last, rest⟩ := c
  cases rest with
  | nil => rfl
  | cons t ts =>
    have hends : t.kind.endsBlock = true := hc t rfl
    have hkind : t.kind ≠ .semicolon := by
      intro h
      simp [h, TokenKind.endsBlock] at hends
    exact if_neg hkind

namespace Grammar.Shapes

variable {g : Grammar}

theorem stmt?_atBlockEnd {c : Cursor} (hc : AtBlockEnd c) :
    Ensures g.stmt? c fun o c' => o = none ∧ AtBlockEnd c' := by
  refine ensures_skip ?_
  rw [hc.skip]
  refine ensures_peek (ensures_pure ⟨rfl, hc⟩) fun t ts hrest => ?_
  have hends : t.kind.endsBlock = true := hc t (by simp [hrest])
  dsimp only
  rw [if_pos hends]
  exact ensures_pure ⟨rfl, hc⟩

theorem stmt? (hg : g.Shapes) {c : Cursor} :
    Ensures g.stmt? c fun o c' => ∀ s ∈ o, s.WellFormed ∧ (s.isReturn = true → AtBlockEnd c') := by
  refine ensures_skip (ensures_peek (ensures_pure (by simp)) fun t ts _ => ?_)
  dsimp only
  split
  · exact ensures_pure (by simp)
  split
  · -- behind `return` and its semicolon, any token that does not end the block is refused
    refine (hg.returnStmt _).bind fun s c₁ hs => Ensures.bind ensures_eat fun _ c₂ _ => ?_
    refine ensures_peekHead ?_
    cases hhead : c₂.rest.head? with
    | none => exact ensures_pure (by simpa [AtBlockEnd, hhead] using hs)
    | some next =>
      dsimp only
      split
      next hends => exact ensures_pure (by simpa [AtBlockEnd, hhead, hends] using hs)
      next => exact ensures_throw
  · refine (hg.stmt _).bind fun s c₁ hs => ensures_pure ?_
    simpa [hs.2] using hs.1

theorem statements (hg : g.Shapes) (start : Nat) : Gives (g.statements start) Block.WellFormed := by
  intro c
  refine (ensures_many_last AtBlockEnd (fun c hc => stmt?_atBlockEnd hc) fun c => hg.stmt?).bind ?_
  exact fun ss _ hss => ensures_pure (wellFormedStmts_iff.2 hss)

end Grammar.Shapes

theorem shapes_grammar (n : Nat) : (grammar n).Shapes := by
  induction n with
  | zero => exact ⟨fun _ => .throw, fun _ => .pure trivial⟩
  | succ n ih => exact ⟨ih.subexpr, ih.statements⟩

theorem gives_body : Gives body Block.WellFormed := by
  intro c
  have hblock : Ensures (block 0) c fun b _ => b.WellFormed := by
    intro b c' hb
    unfold block at hb
    exact (shapes_grammar (c.rest.length + 1)).block 0 c b c' hb
  refine hblock.bind fun b _ hb => ensures_peek (ensures_pure hb) fun t ts _ => ?_
  exact ensures_unexpected.bind fun _ _ (h : False) => h.elim

/-- **What is read from a text is well formed**, at every depth. -/
theorem wellFormed_of_parse {s : String} {chunk : Chunk} (h : parse s = .ok chunk) :
    chunk.body.WellFormed := by
  obtain ⟨c, c', -, hbody⟩ := exists_of_parse h
  exact gives_body c _ c' hbody

end LuaTranspiler.Source
