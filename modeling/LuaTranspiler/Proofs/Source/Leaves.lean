import LuaTranspiler.Proofs.Source.Rendering
import LuaTranspiler.Proofs.Source.Outcome
import LuaTranspiler.Proofs.Token.Content
import LuaTranspiler.Source.Chunk

/-!
# What the leaves of a tree hold

The names in a tree that is read from a text are the texts of name tokens, and its numbers are those
of number tokens. Parsers are followed with an invariant of the tokens that are left: the text of
each name token is a name.

* `Legible ls`: the names and numbers among lexemes are such as tokens have
* `Keeps p P`: from legible tokens `p` reads only what satisfies `P`, and leaves legible ones
* `Grammar.ReadsLegible`: the readers of a grammar read legible expressions and blocks
* `legible_of_parseExpr`: so does the reader of an expression at the head of a text
-/

namespace LuaTranspiler.Source

open LuaTranspiler.Parser

/-! ### Lexemes -/

/-- Whether a lexeme, if it is a name or a number, is one that a token can have. -/
def Lexeme.Legible : Lexeme → Prop
  | .name text => IsName text
  | .literal (.number value) => value.IsLiteral
  | _ => True

/-- Whether all lexemes are such as tokens can have. -/
def Legible (ls : List Lexeme) : Prop := ∀ l ∈ ls, l.Legible

section Legible

variable {ls ls' : List Lexeme} {lss : List (List Lexeme)}

@[simp] theorem legible_nil : Legible [] := fun _ h => nomatch h

@[simp] theorem legible_cons {l : Lexeme} : Legible (l :: ls) ↔ l.Legible ∧ Legible ls :=
  List.forall_mem_cons

@[simp] theorem legible_append : Legible (ls ++ ls') ↔ Legible ls ∧ Legible ls' :=
  List.forall_mem_append

@[simp] theorem legible_symbol {kind : TokenKind} : (Lexeme.symbol kind).Legible ↔ True := Iff.rfl

@[simp] theorem legible_name {text : String} : (Lexeme.name text).Legible ↔ IsName text := Iff.rfl

@[simp] theorem legible_parenthesized {needed : Bool} :
    Legible (parenthesized needed ls) ↔ Legible ls := by
  unfold parenthesized
  split <;> simp

theorem legible_flatMap_comma :
    Legible (lss.flatMap (.symbol .comma :: ·)) ↔ ∀ ls ∈ lss, Legible ls := by
  induction lss with
  | nil => simp
  | cons ls lss ih => simp [List.flatMap_cons, ih]

@[simp] theorem legible_commas : Legible (commas lss) ↔ ∀ ls ∈ lss, Legible ls := by
  cases lss with
  | nil => simp [commas]
  | cons ls lss => simp [commas, legible_flatMap_comma]

@[simp] theorem legible_nameLexemes {names : List Name} :
    Legible (nameLexemes names) ↔ ∀ n ∈ names, IsName n.text := by
  simp [nameLexemes]

@[simp] theorem forall_mem_exprLexemes {es : List Expr} :
    (∀ ls ∈ exprLexemes es, Legible ls) ↔ ∀ e ∈ es, Legible e.lexemes := by
  induction es with
  | nil => simp [exprLexemes]
  | cons e es ih => simp [exprLexemes, ih]

@[simp] theorem forall_mem_fieldLexemes {fs : List Field} :
    (∀ ls ∈ fieldLexemes fs, Legible ls) ↔ ∀ f ∈ fs, Legible f.lexemes := by
  induction fs with
  | nil => simp [fieldLexemes]
  | cons f fs ih => simp [fieldLexemes, ih]

@[simp] theorem legible_stmtLexemes {ss : List Stmt} :
    Legible (stmtLexemes ss) ↔ ∀ s ∈ ss, Legible s.lexemes := by
  induction ss with
  | nil => simp [stmtLexemes]
  | cons s ss ih => simp [stmtLexemes, ih]

@[simp] theorem legible_clauseLexemes {cs : List Clause} :
    Legible (clauseLexemes cs) ↔ ∀ c ∈ cs, Legible c.lexemes := by
  induction cs with
  | nil => simp [clauseLexemes]
  | cons c cs ih => simp [clauseLexemes, ih]

theorem legible_withSpan {e : Expr} (h : Legible e.lexemes) (span : Span) :
    Legible (e.withSpan span).lexemes := by
  cases e <;> simpa [Expr.withSpan, Expr.lexemes] using h

theorem legible_apply {lhs rhs : Expr} (hlhs : Legible lhs.lexemes) (hrhs : Legible rhs.lexemes)
    (op : InfixOp) : Legible (op.apply lhs rhs).lexemes := by
  cases op <;> simp [InfixOp.apply, Expr.lexemes, hlhs, hrhs]

theorem legible_localDecl {names : List Name} {init : List Expr} {span : Span} :
    Legible (Stmt.localDecl names init span).lexemes ↔
      (∀ n ∈ names, IsName n.text) ∧ ∀ e ∈ init, Legible e.lexemes := by
  cases init with
  | nil => simp [Stmt.lexemes]
  | cons e es =>
    simp only [Stmt.lexemes, legible_cons, legible_append, legible_symbol, legible_nameLexemes,
      legible_commas, forall_mem_exprLexemes, true_and]

theorem legible_functionDecl {name : Expr} {isLocal : Bool} {func : Function} {span : Span} :
    Legible (Stmt.functionDecl name isLocal func span).lexemes ↔
      Legible name.lexemes ∧ Legible func.lexemes := by
  cases isLocal <;> simp [Stmt.lexemes]

end Legible

/-! ### Parsers that keep an invariant of the tokens left -/

/-- The text of a name token is a name. -/
def NamedToken (t : Token) : Prop := t.kind = .name → IsName t.literal

/-- The texts of all name tokens that are left are names. -/
def AllNamed (c : Cursor) : Prop := ∀ t ∈ c.rest, NamedToken t

section Keeps

variable {α β : Type} {p : Parser α} {q : α → Parser β} {P : α → Prop} {Q : β → Prop}

/-- From tokens whose names are names, `p` reads only what satisfies `P`, and leaves such tokens. -/
def Keeps (p : Parser α) (P : α → Prop) : Prop :=
  ∀ c, AllNamed c → Ensures p c fun a c' => P a ∧ AllNamed c'

namespace Keeps

theorem pure {a : α} (h : P a) : Keeps (pure a) P := fun _ hc => ensures_pure ⟨h, hc⟩

theorem throw {e : SyntaxError} : Keeps (throw e) P := fun _ _ => ensures_throw

theorem bind (hp : Keeps p P) (hq : ∀ a, P a → Keeps (q a) Q) : Keeps (p >>= q) Q :=
  fun c hc => (hp c hc).bind fun a c' ha => hq a ha.1 c' ha.2

/-- Nothing has to be known of what `p` reads. -/
theorem after (hp : Keeps p P) (hq : ∀ a, Keeps (q a) Q) : Keeps (p >>= q) Q :=
  hp.bind fun a _ => hq a

theorem pure_bind {a : α} (hq : Keeps (q a) Q) : Keeps (Pure.pure a >>= q) Q := hq

theorem map_bind {γ : Type} {f : α → γ} {q : γ → Parser β} (hp : Keeps p P)
    (hq : ∀ a, P a → Keeps (q (f a)) Q) : Keeps (f <$> p >>= q) Q :=
  fun c hc => (hp c hc).map_bind fun a c' ha => hq a ha.1 c' ha.2

theorem iterate {step : α → Parser (Option α)} {a : α}
    (hstep : ∀ a, P a → Keeps (step a) fun o => ∀ b ∈ o, P b) (ha : P a) :
    Keeps (iterate step a) P := by
  intro c hc
  refine ensures_iterate (J := fun a c => P a ∧ AllNamed c) (fun b c hb => ?_) ⟨ha, hc⟩
  refine (hstep b hb.1 c hb.2).mono fun o c' ho => ⟨?_, ho.2⟩
  cases o with
  | none => exact hb.1
  | some d => exact ho.1 d rfl

theorem many {item : Parser (Option α)} (hitem : Keeps item fun o => ∀ a ∈ o, P a) :
    Keeps (many item) fun as => ∀ a ∈ as, P a := by
  intro c hc
  refine ensures_many (I := fun as c => (∀ a ∈ as, P a) ∧ AllNamed c) (fun as c has => ?_)
    ⟨by simp, hc⟩
  refine (hitem c has.2).mono fun o c' ho => ⟨?_, ho.2⟩
  rw [List.forall_mem_append]
  exact ⟨has.1, fun a ha => ho.1 a (by simpa using ha)⟩

end Keeps

theorem keeps_unexpected {kinds : List TokenKind} : Keeps (unexpected kinds) P :=
  fun _ _ => ensures_unexpected

theorem keeps_expect {kind : TokenKind} :
    Keeps (expect kind) fun t => t.kind = kind ∧ NamedToken t := by
  intro c hc
  refine ensures_expect.mono fun t c' ht => ?_
  rw [AllNamed, ht.1, List.forall_mem_cons] at hc
  exact ⟨⟨ht.2.2, hc.1⟩, hc.2⟩

theorem keeps_eat {kind : TokenKind} : Keeps (eat kind) fun _ => True := by
  intro c hc
  refine ensures_eat.mono fun o c' ho => ⟨trivial, ?_⟩
  rcases ho with ⟨-, rfl⟩ | ⟨t, -, hrest, -⟩
  · exact hc
  · rw [AllNamed, hrest, List.forall_mem_cons] at hc
    exact hc.2

theorem keeps_advance : Keeps advance fun _ => True := by
  intro c hc
  cases hrest : c.rest with
  | nil =>
    rintro o c' h
    simp only [advance, hrest] at h
    cases h
    exact ⟨trivial, hc⟩
  | cons t ts =>
    refine (ensures_advance hrest).mono fun o c' ho => ⟨trivial, ?_⟩
    rw [AllNamed, ho.2.1, List.forall_mem_cons] at hc
    exact hc.2

theorem keeps_peek : Keeps peek? fun o => ∀ t ∈ o, NamedToken t := by
  rintro c hc _ _ ⟨⟩
  exact ⟨fun t ht => hc t (List.mem_of_mem_head? ht), hc⟩

/-- A parser that only looks at the tokens keeps what is known of them. -/
theorem keeps_look {f : Cursor → α} : Keeps (fun c => .ok (f c) c : Parser α) fun _ => True := by
  rintro c hc _ _ ⟨⟩
  exact ⟨trivial, hc⟩

theorem keeps_peekKind : Keeps peekKind? fun _ => True := keeps_look

theorem keeps_peekNth {n : Nat} : Keeps (peekNth? n) fun _ => True := keeps_look

theorem keeps_check {kind : TokenKind} : Keeps (check kind) fun _ => True := keeps_look

theorem keeps_finish {start : Span} : Keeps (finish start) fun _ => True := keeps_look

theorem keeps_require {kind : TokenKind} : Keeps (require kind) fun _ => True := by
  refine keeps_check.after fun b => ?_
  split
  · exact .pure trivial
  · exact keeps_unexpected

theorem keeps_skip {kind : TokenKind} : Keeps (skip kind) fun _ => True := by
  rintro c hc _ _ ⟨⟩
  refine ⟨trivial, fun t ht => hc t ?_⟩
  revert ht
  generalize c.last = last
  induction c.rest generalizing last with
  | nil => exact id
  | cons u ts ih =>
    rw [skip.go]
    split
    · exact fun ht => List.mem_cons_of_mem u (ih _ ht)
    · exact id

theorem keeps_ofExcept {r : Except SyntaxError α} : Keeps (ofExcept r) fun a => r = .ok a := by
  intro c hc
  cases r with
  | ok a =>
    rintro _ _ ⟨⟩
    exact ⟨rfl, hc⟩
  | error e => rintro _ _ ⟨⟩

theorem Keeps.behindComma (hp : Keeps p P) : Keeps (behindComma p) fun o => ∀ a ∈ o, P a := by
  refine keeps_eat.after fun comma => ?_
  cases comma with
  | none => exact .pure (by simp)
  | some _ => exact hp.bind fun a ha => .pure (by simpa using ha)

theorem Keeps.commaList (hp : Keeps p P) : Keeps (commaList p) fun as => ∀ a ∈ as, P a :=
  hp.bind fun _ ha => hp.behindComma.many.bind fun _ has => .pure (List.forall_mem_cons.2 ⟨ha, has⟩)

end Keeps

/-! ### Leaves -/

theorem keeps_name : Keeps name fun n => IsName n.text :=
  keeps_expect.bind fun _ ht => .pure (ht.2 ht.1)

theorem keeps_param? : Keeps param? fun o => ∀ p ∈ o, p.lexeme.Legible := by
  refine keeps_check.after fun closed => ?_
  split
  · exact .pure (by simp)
  refine keeps_eat.after fun o => ?_
  cases o with
  | some t => exact keeps_require.after fun _ => .pure (by simp [Param.lexeme])
  | none =>
    refine keeps_name.bind fun n hn => keeps_eat.after fun comma => ?_
    have hparam : ∀ p ∈ some (Param.named n.text n.span), p.lexeme.Legible := by
      simpa [Param.lexeme] using hn
    dsimp only
    split
    · exact keeps_require.after fun _ => .pure hparam
    · exact .pure hparam

theorem legible_of_literal? {t : Token} {value : Literal} (h : literal? t = .ok (some value)) :
    (Lexeme.literal value).Legible := by
  -- strings and keywords have no value to judge
  unfold literal? at h
  split at h
  case h_1 | h_2 =>
    split at h
    next x hx =>
      cases h
      exact isLiteral_of_number? hx
    next => cases h
  case h_3 | h_4 =>
    split at h
    · cases h
      trivial
    · cases h
  all_goals
    cases h
    try trivial

/-! ### Expressions -/

/-- The readers of a grammar read legible expressions and blocks. -/
structure Grammar.ReadsLegible (g : Grammar) : Prop where
  expr : ∀ limit, Keeps (g.expr limit) fun e => Legible e.lexemes
  block : ∀ start, Keeps (g.block start) fun b => Legible b.lexemes

namespace Grammar.ReadsLegible

variable {g : Grammar}

theorem exprList (hg : g.ReadsLegible) : Keeps g.exprList fun es => ∀ e ∈ es, Legible e.lexemes :=
  (hg.expr 0).commaList

theorem functionBody (hg : g.ReadsLegible) : Keeps g.functionBody fun f => Legible f.lexemes := by
  refine keeps_expect.after fun _ => keeps_param?.many.bind fun params hparams => ?_
  refine keeps_expect.after fun close => (hg.block _).bind fun body hbody => ?_
  refine keeps_expect.after fun _ => .pure ?_
  simpa [Function.lexemes, hbody] using hparams

theorem field (hg : g.ReadsLegible) : Keeps g.field fun f => Legible f.lexemes := by
  refine keeps_peekNth.after fun next => keeps_peek.after fun o => ?_
  cases o with
  | none => exact .throw
  | some t =>
    dsimp only
    split
    · refine keeps_advance.after fun _ => (hg.expr 0).bind fun key hkey => ?_
      refine keeps_expect.after fun _ => keeps_expect.after fun _ => ?_
      refine (hg.expr 0).bind fun value hvalue => keeps_finish.after fun span => .pure ?_
      simp [Field.lexemes, hkey, hvalue]
    · split
      · refine keeps_name.bind fun key hkey => keeps_expect.after fun _ => ?_
        refine (hg.expr 0).bind fun value hvalue => keeps_finish.after fun span => .pure ?_
        simp [Field.lexemes, hkey, hvalue]
      · exact (hg.expr 0).bind fun value hvalue => keeps_finish.after fun span => .pure hvalue

theorem field? (hg : g.ReadsLegible) : Keeps g.field? fun o => ∀ f ∈ o, Legible f.lexemes := by
  refine keeps_check.after fun closed => ?_
  split
  · exact .pure (by simp)
  · refine hg.field.bind fun f hf => ?_
    have hsome : ∀ f' ∈ some f, Legible f'.lexemes := by simpa using hf
    refine keeps_eat.after fun comma => ?_
    dsimp only
    split
    · refine keeps_eat.after fun semicolon => ?_
      split
      · exact keeps_require.after fun _ => .pure hsome
      · exact .pure hsome
    · exact .pure hsome

theorem table (hg : g.ReadsLegible) : Keeps g.table fun e => Legible e.lexemes := by
  refine keeps_expect.after fun opening => hg.field?.many.bind fun fields hfields => ?_
  refine keeps_expect.after fun _ => keeps_finish.after fun span => .pure ?_
  simpa [Expr.lexemes] using hfields

theorem callArgs (hg : g.ReadsLegible) {base : Expr} (hbase : Legible base.lexemes) :
    Keeps (g.callArgs base) fun e => Legible e.lexemes := by
  refine keeps_peek.after fun o => ?_
  cases o with
  | none => exact .throw
  | some t =>
    dsimp only
    split
    case h_1 =>
      refine keeps_advance.after fun _ => keeps_check.after fun closed => ?_
      split
      · refine .pure_bind <| keeps_expect.after fun _ => keeps_finish.after fun span => .pure ?_
        simp [Expr.lexemes, exprLexemes, hbase]
      · refine hg.exprList.bind fun args hargs => keeps_expect.after fun _ => ?_
        refine keeps_finish.after fun span => .pure ?_
        simpa [Expr.lexemes, hbase] using hargs
    case h_2 | h_3 =>
      refine keeps_ofExcept.after fun s => keeps_advance.after fun _ => ?_
      refine keeps_finish.after fun span => .pure ?_
      simp [Expr.lexemes, hbase, Lexeme.Legible]
    case h_4 =>
      refine hg.table.bind fun argument hargument => keeps_finish.after fun span => .pure ?_
      simp [Expr.lexemes, hbase, hargument]
    case h_5 => exact keeps_unexpected

theorem primary (hg : g.ReadsLegible) : Keeps g.primary fun e => Legible e.lexemes := by
  refine keeps_peek.bind fun o ho => ?_
  cases o with
  | none => exact .throw
  | some t =>
    dsimp only
    split
    next hkind =>
      refine keeps_advance.after fun _ => .pure ?_
      simpa [Expr.lexemes] using ho t rfl hkind
    next =>
      refine keeps_advance.after fun _ => (hg.expr 0).bind fun e he => ?_
      refine keeps_expect.after fun _ => keeps_finish.after fun span => .pure ?_
      exact legible_withSpan he span
    next => exact .throw

theorem suffix? (hg : g.ReadsLegible) {base : Expr} (hbase : Legible base.lexemes) :
    Keeps (g.suffix? base) fun o => ∀ e ∈ o, Legible e.lexemes := by
  have hcall : ∀ base : Expr, Legible base.lexemes → Keeps (do
      let e ← g.callArgs base
      return some e) fun o => ∀ e ∈ o, Legible e.lexemes :=
    fun base hbase => (hg.callArgs hbase).bind fun e he => .pure (by simpa using he)
  refine keeps_peekKind.after fun kind => ?_
  split
  case h_1 =>
    refine keeps_advance.after fun _ => keeps_name.bind fun n hn => ?_
    refine keeps_finish.after fun span => .pure ?_
    simp [Expr.lexemes, hbase, hn]
  case h_2 =>
    refine keeps_advance.after fun _ => (hg.expr 0).bind fun i hi => keeps_expect.after fun _ => ?_
    refine keeps_finish.after fun span => .pure ?_
    simp [Expr.lexemes, hbase, hi]
  case h_3 =>
    refine keeps_advance.after fun _ => keeps_name.bind fun n hn => ?_
    refine keeps_finish.after fun span => hcall _ ?_
    simp [Expr.lexemes, hbase, hn]
  case h_4 | h_5 | h_6 | h_7 => exact hcall base hbase
  case h_8 => exact .pure (by simp)

theorem suffixed (hg : g.ReadsLegible) : Keeps g.suffixed fun e => Legible e.lexemes :=
  hg.primary.bind fun _ he => .iterate (fun _ h => hg.suffix? h) he

theorem simple (hg : g.ReadsLegible) : Keeps g.simple fun e => Legible e.lexemes := by
  refine keeps_peek.after fun o => ?_
  cases o with
  | none => exact .throw
  | some t =>
    refine keeps_ofExcept.bind fun value hvalue => ?_
    cases value with
    | some value =>
      refine keeps_advance.after fun _ => .pure ?_
      simpa [Expr.lexemes] using legible_of_literal? hvalue
    | none =>
      dsimp only
      split
      · exact hg.table
      · refine keeps_advance.after fun _ => hg.functionBody.bind fun f hf => ?_
        refine keeps_finish.after fun span => .pure ?_
        simpa [Expr.lexemes] using hf
      · exact hg.suffixed

theorem operand (hg : g.ReadsLegible) : Keeps g.operand fun e => Legible e.lexemes := by
  refine keeps_peek.after fun o => ?_
  cases o with
  | none => exact .throw
  | some t =>
    dsimp only
    split
    · refine keeps_advance.after fun _ => (hg.expr _).bind fun e he => .pure ?_
      simpa [Expr.lexemes] using he
    · exact hg.simple

theorem extend? (hg : g.ReadsLegible) {limit : Nat} {lhs : Expr} (hlhs : Legible lhs.lexemes) :
    Keeps (g.extend? limit lhs) fun o => ∀ e ∈ o, Legible e.lexemes := by
  refine keeps_peekKind.after fun kind => ?_
  split
  · exact .pure (by simp)
  next op _ =>
    split
    · exact .pure (by simp)
    · refine keeps_advance.after fun _ => (hg.expr _).bind fun rhs hrhs => .pure ?_
      simpa using legible_apply hlhs hrhs op

theorem subexpr (hg : g.ReadsLegible) (limit : Nat) :
    Keeps (g.subexpr limit) fun e => Legible e.lexemes :=
  hg.operand.bind fun _ he => .iterate (fun _ h => hg.extend? h) he

end Grammar.ReadsLegible

/-! ### Statements -/

theorem keeps_functionName : Keeps functionName fun e => Legible e.lexemes := by
  have hstep : ∀ e : Expr, Legible e.lexemes →
      Keeps (dotStep? e) fun o => ∀ e' ∈ o, Legible e'.lexemes := by
    intro e he
    refine keeps_eat.after fun o => ?_
    cases o with
    | none => exact .pure (by simp)
    | some _ =>
      refine keeps_name.bind fun n hn => keeps_finish.after fun span => .pure ?_
      simp [Expr.lexemes, he, hn]
  refine keeps_name.bind fun first hfirst => ?_
  have hpath : Legible (Expr.ident first.text first.span).lexemes := by
    simpa [Expr.lexemes] using hfirst
  refine (Keeps.iterate hstep hpath).bind fun path hpath => keeps_eat.after fun o => ?_
  cases o with
  | none => exact .pure hpath
  | some _ =>
    refine keeps_name.bind fun n hn => keeps_finish.after fun span => .pure ?_
    simp [Expr.lexemes, hpath, hn]

namespace Grammar.ReadsLegible

variable {g : Grammar}

theorem openBlock (hg : g.ReadsLegible) {kind : TokenKind} :
    Keeps (g.openBlock kind) fun b => Legible b.lexemes :=
  keeps_expect.after fun _ => hg.block _

theorem doEnd (hg : g.ReadsLegible) : Keeps g.doEnd fun b => Legible b.lexemes :=
  hg.openBlock.bind fun _ hb => keeps_expect.after fun _ => .pure hb

theorem localStmt (hg : g.ReadsLegible) (start : Span) :
    Keeps (g.localStmt start) fun s => Legible s.lexemes := by
  refine keeps_expect.after fun _ => keeps_eat.after fun o => ?_
  cases o with
  | some _ =>
    refine keeps_name.bind fun n hn => hg.functionBody.bind fun f hf => ?_
    refine keeps_finish.after fun span => .pure (legible_functionDecl.2 ⟨?_, hf⟩)
    simpa [Expr.lexemes] using hn
  | none =>
    refine keeps_name.commaList.bind fun names hnames => keeps_eat.after fun o => ?_
    cases o with
    | some _ =>
      refine hg.exprList.bind fun init hinit => keeps_finish.after fun span => .pure ?_
      exact legible_localDecl.2 ⟨hnames, hinit⟩
    | none =>
      refine .pure_bind <| keeps_finish.after fun span => .pure ?_
      exact legible_localDecl.2 ⟨hnames, by simp⟩

theorem functionStmt (hg : g.ReadsLegible) (start : Span) :
    Keeps (g.functionStmt start) fun s => Legible s.lexemes := by
  refine keeps_expect.after fun _ => keeps_functionName.bind fun path hpath => ?_
  refine hg.functionBody.bind fun f hf => keeps_finish.after fun span => .pure ?_
  exact legible_functionDecl.2 ⟨hpath, hf⟩

theorem clause? (hg : g.ReadsLegible) : Keeps g.clause? fun o => ∀ c ∈ o, Legible c.lexemes := by
  refine keeps_eat.after fun o => ?_
  cases o with
  | none => exact .pure (by simp)
  | some _ =>
    refine (hg.expr 0).bind fun cond hcond => hg.openBlock.bind fun block hblock => .pure ?_
    simp [Clause.lexemes, hcond, hblock]

theorem ifStmt (hg : g.ReadsLegible) (start : Span) :
    Keeps (g.ifStmt start) fun s => Legible s.lexemes := by
  refine keeps_expect.after fun _ => (hg.expr 0).bind fun cond hcond => ?_
  refine hg.openBlock.bind fun thenBlock hthen => hg.clause?.many.bind fun clauses hclauses => ?_
  refine keeps_eat.after fun o => ?_
  cases o with
  | some t =>
    refine (hg.block _).map_bind fun elseBlock helse => keeps_expect.after fun _ => ?_
    refine keeps_finish.after fun span => .pure ?_
    simpa [Stmt.lexemes, elseLexemes, hcond, hthen, helse] using hclauses
  | none =>
    refine .pure_bind <| keeps_expect.after fun _ => keeps_finish.after fun span => .pure ?_
    simpa [Stmt.lexemes, elseLexemes, hcond, hthen] using hclauses

theorem whileStmt (hg : g.ReadsLegible) (start : Span) :
    Keeps (g.whileStmt start) fun s => Legible s.lexemes := by
  refine keeps_expect.after fun _ => (hg.expr 0).bind fun cond hcond => ?_
  refine hg.doEnd.bind fun block hblock => keeps_finish.after fun span => .pure ?_
  simp [Stmt.lexemes, hcond, hblock]

theorem forStmt (hg : g.ReadsLegible) (start : Span) :
    Keeps (g.forStmt start) fun s => Legible s.lexemes := by
  refine keeps_expect.after fun _ => keeps_name.bind fun first hfirst => keeps_eat.after fun o => ?_
  cases o with
  | some _ =>
    refine (hg.expr 0).bind fun lower hlower => keeps_expect.after fun _ => ?_
    refine (hg.expr 0).bind fun upper hupper => keeps_eat.after fun o => ?_
    cases o with
    | some _ =>
      refine (hg.expr 0).map_bind fun step hstep => hg.doEnd.bind fun block hblock => ?_
      refine keeps_finish.after fun span => .pure ?_
      simp [Stmt.lexemes, stepLexemes, hfirst, hlower, hupper, hstep, hblock]
    | none =>
      refine .pure_bind <| hg.doEnd.bind fun block hblock => keeps_finish.after fun span => .pure ?_
      simp [Stmt.lexemes, stepLexemes, hfirst, hlower, hupper, hblock]
  | none =>
    refine keeps_name.behindComma.many.bind fun others hothers => keeps_expect.after fun _ => ?_
    refine hg.exprList.bind fun iterators hiterators => hg.doEnd.bind fun block hblock => ?_
    refine keeps_finish.after fun span => .pure ?_
    simpa [Stmt.lexemes, hfirst, hblock] using ⟨hothers, hiterators⟩

theorem repeatStmt (hg : g.ReadsLegible) (start : Span) :
    Keeps (g.repeatStmt start) fun s => Legible s.lexemes := by
  refine hg.openBlock.bind fun block hblock => keeps_expect.after fun _ => ?_
  refine (hg.expr 0).bind fun cond hcond => keeps_finish.after fun span => .pure ?_
  simp [Stmt.lexemes, hcond, hblock]

theorem exprStmt (hg : g.ReadsLegible) (start : Span) :
    Keeps (g.exprStmt start) fun s => Legible s.lexemes := by
  refine hg.suffixed.bind fun first hfirst => ?_
  refine keeps_check.after fun _ => keeps_check.after fun _ => ?_
  split
  · refine hg.suffixed.behindComma.many.bind fun others hothers => ?_
    split
    · exact .throw
    · refine keeps_expect.after fun _ => hg.exprList.bind fun init hinit => ?_
      refine keeps_finish.after fun span => .pure ?_
      simpa [Stmt.lexemes, hfirst] using ⟨hothers, hinit⟩
  · split
    · refine keeps_finish.after fun span => .pure ?_
      simpa [Stmt.lexemes] using hfirst
    · exact .throw

theorem stmt (hg : g.ReadsLegible) : Keeps g.stmt fun s => Legible s.lexemes := by
  refine keeps_peek.after fun o => ?_
  cases o with
  | none => exact .throw
  | some t =>
    dsimp only
    split
    · exact hg.localStmt t.span
    · exact hg.functionStmt t.span
    · exact hg.ifStmt t.span
    · exact hg.whileStmt t.span
    · exact hg.forStmt t.span
    · exact hg.repeatStmt t.span
    · refine hg.doEnd.bind fun block hblock => keeps_finish.after fun span => .pure ?_
      simp [Stmt.lexemes, hblock]
    · refine keeps_advance.after fun _ => keeps_finish.after fun span => .pure ?_
      simp [Stmt.lexemes]
    · refine keeps_advance.after fun _ => keeps_name.bind fun n hn => ?_
      refine keeps_finish.after fun span => .pure ?_
      simp [Stmt.lexemes, hn]
    · refine keeps_advance.after fun _ => keeps_name.bind fun n hn => keeps_expect.after fun _ => ?_
      refine keeps_finish.after fun span => .pure ?_
      simp [Stmt.lexemes, hn]
    case h_11 | h_12 => exact hg.exprStmt t.span
    case h_13 => exact .throw

theorem returnStmt (hg : g.ReadsLegible) : Keeps g.returnStmt fun s => Legible s.lexemes := by
  refine keeps_expect.after fun t => keeps_peekKind.after fun kind => ?_
  split
  · refine .pure_bind <| keeps_finish.after fun span => .pure ?_
    simp [Stmt.lexemes, exprLexemes]
  · refine hg.exprList.bind fun values hvalues => keeps_finish.after fun span => .pure ?_
    simpa [Stmt.lexemes] using hvalues

theorem stmt? (hg : g.ReadsLegible) : Keeps g.stmt? fun o => ∀ s ∈ o, Legible s.lexemes := by
  refine keeps_skip.after fun _ => keeps_peek.after fun o => ?_
  cases o with
  | none => exact .pure (by simp)
  | some t =>
    dsimp only
    split
    · exact .pure (by simp)
    split
    · refine hg.returnStmt.bind fun s hs => keeps_eat.after fun _ => keeps_peek.after fun next => ?_
      have hsome : ∀ s' ∈ some s, Legible s'.lexemes := by simpa using hs
      cases next with
      | none => exact .pure hsome
      | some next =>
        dsimp only
        split
        · exact .pure hsome
        · exact .throw
    · exact hg.stmt.bind fun s hs => .pure (by simpa using hs)

theorem statements (hg : g.ReadsLegible) (start : Nat) :
    Keeps (g.statements start) fun b => Legible b.lexemes := by
  refine hg.stmt?.many.bind fun ss hss => .pure ?_
  simpa [Block.lexemes] using hss

end Grammar.ReadsLegible

theorem legible_grammar (n : Nat) : (grammar n).ReadsLegible := by
  induction n with
  | zero => exact ⟨fun _ => .throw, fun _ => .pure (by simp [Block.lexemes, stmtLexemes])⟩
  | succ n ih => exact ⟨ih.subexpr, ih.statements⟩

/-! ### Whole texts -/

theorem allNamed_start {s : String} {c : Cursor} {comments : List Comment}
    (h : start s = .ok (c, comments)) : AllNamed c := by
  obtain ⟨ts, hts, hrest, -⟩ := exists_of_start h
  intro t ht
  rw [hrest] at ht
  exact isName_of_tokensFrom hts (List.mem_of_mem_filter ht)

/-- The names and numbers of an expression that is read from a text are such as tokens have. -/
theorem legible_of_parseExpr {s : String} {e : Expr} {c : Cursor}
    (h : parseExpr s = .ok (e, c)) : Legible e.lexemes := by
  unfold parseExpr at h
  cases hstart : start s with
  | error err => simp [hstart, bind, Except.bind] at h
  | ok pair =>
    obtain ⟨c₀, comments⟩ := pair
    simp only [hstart, bind, Except.bind] at h
    cases hexpr : expression c₀ with
    | error err c' => simp [hexpr] at h
    | ok e' c' =>
      simp only [hexpr, Except.ok.injEq, Prod.mk.injEq] at h
      obtain ⟨rfl, rfl⟩ := h
      unfold expression at hexpr
      exact ((legible_grammar _).expr 0 c₀ (allNamed_start hstart) _ _ hexpr).1

end LuaTranspiler.Source
