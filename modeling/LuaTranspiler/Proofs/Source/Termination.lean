import LuaTranspiler.Proofs.Source.Progress
import Mathlib.Logic.Function.Iterate

/-!
# Reading comes to an end

Expressions and blocks nest, so their readers call each other, and within them loops run until an
item declines. Neither goes on for ever: each level of nesting and each round of a loop takes a
token. This is said without a bound. Let the levels below the `n`-th, or the rounds behind it, do
anything at all. With less than `n` tokens they are never asked, and the outcome is that of the
unbounded recursion, which solves its equation.

* `Grammar.next`: the readers with one level of nesting more
* `reader`: the readers of all expressions and blocks, the one fixed point of `Grammar.next`
* `Settles f`: levels of nesting beyond the tokens do not matter to `f`
* `LoopEnds item`, `StepsEnd step`: rounds beyond the tokens do not matter to a loop
* `reading_terminates`: all parsers end and move forward
-/

namespace LuaTranspiler.Source

open LuaTranspiler.Parser

/-- `R n` says of two candidates for a recursion that they do the same with less than `n` tokens.
One round of `F` adds a token. -/
structure Contracts {S : Type} (R : Nat → S → S → Prop) (F : S → S) : Prop where
  zero (s s' : S) : R 0 s s'
  next {n : Nat} {s s' : S} (h : R n s s') : R (n + 1) (F s) (F s')

/-- Behind `n` rounds all candidates do the same with less than `n` tokens. -/
theorem Contracts.iterate {S : Type} {R : Nat → S → S → Prop} {F : S → S} (hF : Contracts R F)
    (n : Nat) (s s' : S) : R n (F^[n] s) (F^[n] s') := by
  induction n with
  | zero => exact hF.zero s s'
  | succ n ih =>
    rw [Function.iterate_succ_apply', Function.iterate_succ_apply']
    exact hF.next ih

/-! ### Nesting -/

/-- The readers with one level of nesting above those of `g`. -/
def Grammar.next (g : Grammar) : Grammar := ⟨g.subexpr, g.statements⟩

/-- The readers of all expressions and blocks. -/
def reader : Grammar := ⟨fun limit c => (grammar (c.left + 1)).expr limit c, block⟩

theorem reader_expr (limit : Nat) (c : Cursor) :
    reader.expr limit c = (grammar (c.left + 1)).expr limit c :=
  rfl

theorem reader_block (offset : Nat) (c : Cursor) :
    reader.block offset c = (grammar (c.left + 1)).block offset c :=
  rfl

theorem grammar_succ (n : Nat) : grammar (n + 1) = (grammar n).next := rfl

theorem iterate_next_grammar (n : Nat) : Grammar.next^[n] (grammar 0) = grammar n := by
  induction n with
  | zero => rfl
  | succ n ih => rw [Function.iterate_succ_apply', ih, grammar_succ]

theorem contracts_next : Contracts Grammar.CoincideBelow Grammar.next where
  zero _ _ := ⟨fun _ _ hc => absurd hc (Nat.not_lt_zero _), fun _ _ hc =>
    absurd hc (Nat.not_lt_zero _)⟩
  next hg := ⟨fun limit _ hc => hg.subexpr limit (Nat.le_of_lt_succ hc), fun start _ hc =>
    hg.statements start (Nat.le_of_lt_succ hc)⟩

/-- The reader takes at each cursor as many levels as there are tokens, and one more. So far any
deeper grammar does the same. -/
theorem coincideBelow_reader (n : Nat) (g : Grammar) :
    Grammar.CoincideBelow n (Grammar.next^[n] g) reader := by
  have hlevels (c : Cursor) (hc : c.left < n) :
      Grammar.CoincideBelow (c.left + 1) (Grammar.next^[n] g) (grammar (c.left + 1)) := by
    obtain ⟨m, rfl⟩ : ∃ m, n = c.left + 1 + m := Nat.exists_eq_add_of_le hc
    rw [Function.iterate_add_apply, ← iterate_next_grammar]
    exact contracts_next.iterate (c.left + 1) _ _
  constructor
  · intro limit c hc
    have hexpr := (hlevels c hc).expr limit c (Nat.lt_succ_self _)
    exact hexpr.trans_eq (reader_expr limit c).symm
  · intro offset c hc
    have hblock := (hlevels c hc).block offset c (Nat.lt_succ_self _)
    exact hblock.trans_eq (reader_block offset c).symm

/-- The reader solves the equation of the recursion: one level more changes nothing. -/
theorem reader_next : reader.next = reader := by
  have hlevels (c : Cursor) : Grammar.CoincideBelow c.left (grammar c.left) reader := by
    rw [← iterate_next_grammar]
    exact coincideBelow_reader c.left (grammar 0)
  have hexpr : reader.subexpr = reader.expr := by
    funext limit c
    rw [reader_expr, grammar_succ]
    exact ((hlevels c).subexpr limit le_rfl).1.symm
  have hblock : reader.statements = reader.block := by
    funext start c
    rw [reader_block, grammar_succ]
    exact ((hlevels c).statements start le_rfl).1.symm
  rw [Grammar.next, hexpr, hblock]

/-- No other readers solve it. -/
theorem next_eq_self_iff {g : Grammar} : g.next = g ↔ g = reader := by
  constructor
  · intro hfixed
    have hlevels (c : Cursor) : Grammar.CoincideBelow (c.left + 1) g reader := by
      have h := coincideBelow_reader (c.left + 1) g
      rwa [Function.iterate_fixed hfixed] at h
    have hexpr : g.expr = reader.expr := by
      funext limit c
      exact ((hlevels c).expr limit c (Nat.lt_succ_self _)).1
    have hblock : g.block = reader.block := by
      funext start c
      exact ((hlevels c).block start c (Nat.lt_succ_self _)).1
    cases g
    cases hexpr
    cases hblock
    rfl
  · rintro rfl
    exact reader_next

theorem coincideBelow_reader_self (n : Nat) : Grammar.CoincideBelow n reader reader := by
  have h := coincideBelow_reader n reader
  rwa [Function.iterate_fixed reader_next] at h

/-- With less than `n` tokens a parser does not ask for what stands below `n` levels. -/
def Settles {α : Type} (f : Grammar → Parser α) : Prop :=
  ∀ c n, c.left < n → ∀ g, f (Grammar.next^[n] g) c = f reader c

/-! ### Loops -/

/-- An item that is one takes a token. -/
def Progresses {α : Type} (item : Parser (Option α)) : Prop := ∀ c, Ensures item c (SpentIf c)

section Items

variable {α : Type} {item : Parser (Option α)} {c : Cursor}

/-- One round of a loop: an item, and if it is one, what `again` reads behind it. -/
def round (item : Parser (Option α)) (again : Parser (List α)) : Parser (List α) := do
  match ← item with
  | none => return []
  | some a => return a :: (← again)

/-- A loop solves its equation, and with less than `n` tokens it does not ask for a round behind
the `n`-th. -/
def LoopEnds (item : Parser (Option α)) : Prop :=
  round item (many item) = many item ∧
    ∀ c n, c.left < n → ∀ again, (round item)^[n] again c = many item c

theorem manyUpTo_eq_iterate (item : Parser (Option α)) (bound : List Token) :
    manyUpTo item bound = (round item)^[bound.length + 1] (pure []) := by
  induction bound with
  | nil =>
    funext c
    simp only [manyUpTo, List.length_nil, Nat.zero_add, Function.iterate_one, round]
    cases hrun : item c with
    | error e c' => simp only [Bind.bind, EStateM.bind, hrun]
    | ok o c' =>
      rw [bind_run hrun, bind_run hrun]
      cases o <;> rfl
  | cons t bound ih =>
    rw [List.length_cons, Function.iterate_succ_apply', ← ih]
    rfl

variable (hitem : Progresses item)
include hitem

/-- What is read again is read with fewer tokens. -/
theorem round_congr {again again' : Parser (List α)}
    (h : ∀ c', c'.left < c.left → again c' = again' c') :
    round item again c = round item again' c := by
  unfold round
  cases hrun : item c with
  | error e c' => simp only [Bind.bind, EStateM.bind, hrun]
  | ok o c' =>
    rw [bind_run hrun, bind_run hrun]
    cases o with
    | none => rfl
    | some a =>
      have hc' : again c' = again' c' := h c' (hitem c (some a) c' hrun rfl)
      simp only [Bind.bind, EStateM.bind, hc']

theorem contracts_round :
    Contracts (fun n again again' => ∀ c, c.left < n → again c = again' c) (round item) where
  zero _ _ _ hc := absurd hc (Nat.not_lt_zero _)
  next h _ hc := round_congr hitem fun c' hlt =>
    h c' (Nat.lt_of_lt_of_le hlt (Nat.le_of_lt_succ hc))

theorem iterate_round {n : Nat} (hc : c.left < n) (again : Parser (List α)) :
    (round item)^[n] again c = many item c := by
  obtain ⟨m, rfl⟩ : ∃ m, n = c.left + 1 + m := Nat.exists_eq_add_of_le hc
  rw [Function.iterate_add_apply, many, manyUpTo_eq_iterate]
  exact (contracts_round hitem).iterate (c.left + 1) _ _ c (Nat.lt_succ_self _)

theorem loopEnds : LoopEnds item := by
  refine ⟨?_, fun c n hc again => iterate_round hitem hc again⟩
  funext c
  calc round item (many item) c
      = round item ((round item)^[c.left] (pure [])) c :=
        round_congr hitem fun c' hlt => (iterate_round hitem hlt _).symm
    _ = (round item)^[c.left + 1] (pure []) c := by rw [Function.iterate_succ_apply']
    _ = many item c := iterate_round hitem (Nat.lt_succ_self _) _

end Items

section Steps

variable {α : Type} {step : α → Parser (Option α)} {c : Cursor}

/-- One round of an iteration: a step, and if it is one, what `again` makes of its result. -/
def turn (step : α → Parser (Option α)) (again : α → Parser α) (a : α) : Parser α := do
  match ← step a with
  | none => return a
  | some b => again b

/-- An iteration solves its equation, and with less than `n` tokens it does not ask for a round
behind the `n`-th. -/
def StepsEnd (step : α → Parser (Option α)) : Prop :=
  turn step (iterate step) = iterate step ∧
    ∀ c n, c.left < n → ∀ again a, (turn step)^[n] again a c = iterate step a c

theorem iterateUpTo_eq_iterate (step : α → Parser (Option α)) (bound : List Token) :
    iterateUpTo step bound = (turn step)^[bound.length + 1] pure := by
  induction bound with
  | nil =>
    funext a c
    simp only [iterateUpTo, List.length_nil, Nat.zero_add, Function.iterate_one, turn]
    cases hrun : step a c with
    | error e c' => simp only [Bind.bind, EStateM.bind, hrun]
    | ok o c' =>
      rw [bind_run hrun, bind_run hrun]
      cases o <;> rfl
  | cons t bound ih =>
    rw [List.length_cons, Function.iterate_succ_apply', ← ih]
    rfl

variable (hstep : ∀ a, Progresses (step a))
include hstep

/-- What is done again is done with fewer tokens. -/
theorem turn_congr {again again' : α → Parser α}
    (h : ∀ b c', c'.left < c.left → again b c' = again' b c') (a : α) :
    turn step again a c = turn step again' a c := by
  unfold turn
  cases hrun : step a c with
  | error e c' => simp only [Bind.bind, EStateM.bind, hrun]
  | ok o c' =>
    rw [bind_run hrun, bind_run hrun]
    cases o with
    | none => rfl
    | some b => exact h b c' (hstep a c (some b) c' hrun rfl)

theorem contracts_turn :
    Contracts (fun n again again' => ∀ a c, c.left < n → again a c = again' a c) (turn step) where
  zero _ _ _ _ hc := absurd hc (Nat.not_lt_zero _)
  next h a _ hc :=
    turn_congr hstep (fun b c' hlt => h b c' (Nat.lt_of_lt_of_le hlt (Nat.le_of_lt_succ hc))) a

theorem iterate_turn {n : Nat} (hc : c.left < n) (again : α → Parser α) (a : α) :
    (turn step)^[n] again a c = iterate step a c := by
  obtain ⟨m, rfl⟩ : ∃ m, n = c.left + 1 + m := Nat.exists_eq_add_of_le hc
  rw [Function.iterate_add_apply, iterate, iterateUpTo_eq_iterate]
  exact (contracts_turn hstep).iterate (c.left + 1) _ _ a c (Nat.lt_succ_self _)

theorem stepsEnd : StepsEnd step := by
  refine ⟨?_, fun c n hc again a => iterate_turn hstep hc again a⟩
  funext a c
  calc turn step (iterate step) a c
      = turn step ((turn step)^[c.left] pure) a c :=
        turn_congr hstep (fun b c' hlt => (iterate_turn hstep hlt _ b).symm) a
    _ = (turn step)^[c.left + 1] pure a c := by rw [Function.iterate_succ_apply']
    _ = iterate step a c := iterate_turn hstep (Nat.lt_succ_self _) _ a

end Steps

/-! ### All parsers -/

/-- The parsers that have to take a token. -/
inductive NeedsToken : {α : Type} → (Grammar → Parser α) → Prop
  | expect (kind : TokenKind) : NeedsToken fun _ => Parser.expect kind
  | name : NeedsToken fun _ => Source.name
  | names : NeedsToken fun _ => commaList Source.name
  | functionName : NeedsToken fun _ => Source.functionName
  | expr (limit : Nat) : NeedsToken fun g => g.expr limit
  | exprList : NeedsToken Grammar.exprList
  | functionBody : NeedsToken Grammar.functionBody
  | field : NeedsToken Grammar.field
  | table : NeedsToken Grammar.table
  | callArgs (base : Expr) : NeedsToken fun g => g.callArgs base
  | primary : NeedsToken Grammar.primary
  | suffixed : NeedsToken Grammar.suffixed
  | simple : NeedsToken Grammar.simple
  | operand : NeedsToken Grammar.operand
  | subexpr (limit : Nat) : NeedsToken fun g => g.subexpr limit
  | openBlock (kind : TokenKind) : NeedsToken fun g => g.openBlock kind
  | doEnd : NeedsToken Grammar.doEnd
  | localStmt (start : Span) : NeedsToken fun g => g.localStmt start
  | functionStmt (start : Span) : NeedsToken fun g => g.functionStmt start
  | ifStmt (start : Span) : NeedsToken fun g => g.ifStmt start
  | whileStmt (start : Span) : NeedsToken fun g => g.whileStmt start
  | forStmt (start : Span) : NeedsToken fun g => g.forStmt start
  | repeatStmt (start : Span) : NeedsToken fun g => g.repeatStmt start
  | exprStmt (start : Span) : NeedsToken fun g => g.exprStmt start
  | stmt : NeedsToken Grammar.stmt
  | returnStmt : NeedsToken Grammar.returnStmt

/-- The items of loops. -/
inductive IsItem : {α : Type} → (Grammar → Parser (Option α)) → Prop
  | param : IsItem fun _ => param?
  | field : IsItem Grammar.field?
  | clause : IsItem Grammar.clause?
  | stmt : IsItem Grammar.stmt?
  | behindComma {α : Type} {f : Grammar → Parser α} (hf : NeedsToken f) :
    IsItem fun g => Parser.behindComma (f g)

/-- The steps of iterations. -/
inductive IsStep : {α : Type} → (Grammar → α → Parser (Option α)) → Prop
  | suffix : IsStep Grammar.suffix?
  | extend (limit : Nat) : IsStep fun g => g.extend? limit
  | dotStep : IsStep fun _ => dotStep?

/-- All parsers that take part in reading expressions and blocks. -/
inductive IsParser : {α : Type} → (Grammar → Parser α) → Prop
  | peek : IsParser fun _ => peek?
  | peekKind : IsParser fun _ => peekKind?
  | peekNth (n : Nat) : IsParser fun _ => peekNth? n
  | check (kind : TokenKind) : IsParser fun _ => Parser.check kind
  | require (kind : TokenKind) : IsParser fun _ => Parser.require kind
  | unexpected {α : Type} (kinds : List TokenKind) : IsParser fun _ => @Parser.unexpected α kinds
  | finish (start : Span) : IsParser fun _ => Parser.finish start
  | advance : IsParser fun _ => Parser.advance
  | eat (kind : TokenKind) : IsParser fun _ => Parser.eat kind
  | skip (kind : TokenKind) : IsParser fun _ => Parser.skip kind
  | block (offset : Nat) : IsParser fun g => g.block offset
  | statements (start : Nat) : IsParser fun g => g.statements start
  | needsToken {α : Type} {f : Grammar → Parser α} (hf : NeedsToken f) : IsParser f
  | item {α : Type} {f : Grammar → Parser (Option α)} (hf : IsItem f) : IsParser f
  | many {α : Type} {f : Grammar → Parser (Option α)} (hf : IsItem f) :
    IsParser fun g => Parser.many (f g)
  | step {α : Type} {f : Grammar → α → Parser (Option α)} (hf : IsStep f) (a : α) :
    IsParser fun g => f g a
  | iterate {α : Type} {f : Grammar → α → Parser (Option α)} (hf : IsStep f) (a : α) :
    IsParser fun g => Parser.iterate (f g) a

section Coinciding

variable {α : Type} {n : Nat} {g g' : Grammar} (hg : g.CoincideBelow n g') {c : Cursor}
  (hc : c.left < n)
include hg hc

theorem NeedsToken.coincide {f : Grammar → Parser α} (hf : NeedsToken f) :
    Coincide (f g) (f g') c (Spent c) := by
  cases hf with
  | expect kind => exact coincide_expect
  | name => exact coincide_name
  | names => exact coincide_commaList fun _ _ => coincide_name
  | functionName => exact coincide_functionName
  | expr limit => exact hg.expr limit c hc
  | exprList => exact hg.exprList hc
  | functionBody => exact hg.functionBody hc.le
  | field => exact hg.field hc
  | table => exact hg.table hc.le
  | callArgs base => exact hg.callArgs base hc.le
  | primary => exact hg.primary hc.le
  | suffixed => exact hg.suffixed hc.le
  | simple => exact hg.simple hc.le
  | operand => exact hg.operand hc.le
  | subexpr limit => exact hg.subexpr limit hc.le
  | openBlock kind => exact hg.openBlock kind hc.le
  | doEnd => exact hg.doEnd hc.le
  | localStmt start => exact hg.localStmt start hc.le
  | functionStmt start => exact hg.functionStmt start hc.le
  | ifStmt start => exact hg.ifStmt start hc.le
  | whileStmt start => exact hg.whileStmt start hc.le
  | forStmt start => exact hg.forStmt start hc.le
  | repeatStmt start => exact hg.repeatStmt start hc.le
  | exprStmt start => exact hg.exprStmt start hc.le
  | stmt => exact hg.stmt hc.le
  | returnStmt => exact hg.returnStmt hc.le

theorem IsItem.coincide {f : Grammar → Parser (Option α)} (hf : IsItem f) :
    Coincide (f g) (f g') c (SpentIf c) := by
  cases hf with
  | param => exact coincide_param?
  | field => exact hg.field? hc
  | clause => exact hg.clause? hc.le
  | stmt => exact hg.stmt? hc.le
  | behindComma hf =>
    exact coincide_behindComma fun c' hlt => (hf.coincide hg (hlt.trans hc)).whatever

theorem IsStep.coincide {f : Grammar → α → Parser (Option α)} (hf : IsStep f) (a : α) :
    Coincide (f g a) (f g' a) c (SpentIf c) := by
  cases hf with
  | suffix => exact hg.suffix? a hc.le
  | extend limit => exact hg.extend? limit a hc.le
  | dotStep => exact coincide_dotStep? a

theorem IsParser.coincide {f : Grammar → Parser α} (hf : IsParser f) :
    Coincide (f g) (f g') c Whatever := by
  have hlook (p : Parser α) (a : α) (h : p c = .ok a c) : Coincide p p c Whatever := by
    refine ⟨rfl, ?_, fun _ _ _ => trivial⟩
    rw [h]
    exact List.suffix_rfl
  cases hf with
  | peek | peekKind | peekNth _ | check _ | finish _ => exact hlook _ _ rfl
  | require kind => exact coincide_require.whatever
  | unexpected kinds => exact coincide_unexpected
  | advance =>
    cases hrest : c.rest with
    | nil => exact hlook _ none (by simp only [Parser.advance, hrest])
    | cons t ts => exact (coincide_advance hrest).whatever
  | eat kind => exact coincide_eat.whatever
  | skip kind => exact coincide_skip
  | block offset => exact hg.block offset c hc
  | statements start => exact hg.statements start hc.le
  | needsToken hf => exact (hf.coincide hg hc).whatever
  | item hf => exact (hf.coincide hg hc).whatever
  | many hf => exact coincide_many fun c' hle => (hf.coincide hg (hle.trans_lt hc)).whatever
  | step hf a => exact (hf.coincide hg hc a).whatever
  | iterate hf a =>
    exact coincide_iterate (fun b c' hle => (hf.coincide hg (hle.trans_lt hc) b).whatever) a

end Coinciding

/-- Reading terminates: the equation of the recursion has one solution, and no parser asks for more
levels of nesting than there are tokens, nor a loop for more rounds. Every parser moves the
cursor forward, also where it fails, and each that has to take a token takes one. -/
theorem reading_terminates :
    reader.expr 0 = expression ∧ reader.block = block ∧ (∀ g : Grammar, g.next = g ↔ g = reader) ∧
    (∀ (α : Type) (f : Grammar → Parser α), IsParser f → Settles f ∧ Forward (f reader)) ∧
    (∀ (α : Type) (f : Grammar → Parser α), NeedsToken f → Consumes (f reader)) ∧
    (∀ (α : Type) (f : Grammar → Parser (Option α)), IsItem f →
      Progresses (f reader) ∧ LoopEnds (f reader)) ∧
    ∀ (α : Type) (f : Grammar → α → Parser (Option α)), IsStep f →
      (∀ a, Progresses (f reader a)) ∧ StepsEnd (f reader) := by
  have hself (c : Cursor) := coincideBelow_reader_self (c.left + 1)
  have hforward {α : Type} {f : Grammar → Parser α} (hf : IsParser f) : Forward (f reader) :=
    fun c => (hf.coincide (hself c) (Nat.lt_succ_self _)).2.1
  refine ⟨rfl, rfl, fun g => next_eq_self_iff, ?_, ?_, ?_, ?_⟩
  · intro α f hf
    refine ⟨fun c n hc g => ?_, hforward hf⟩
    exact (hf.coincide (coincideBelow_reader n g) hc).1
  · intro α f hf
    refine ⟨hforward (.needsToken hf), fun c => ?_⟩
    exact (hf.coincide (hself c) (Nat.lt_succ_self _)).2.2
  · intro α f hf
    have hitem : Progresses (f reader) :=
      fun c => (hf.coincide (hself c) (Nat.lt_succ_self _)).2.2
    exact ⟨hitem, loopEnds hitem⟩
  · intro α f hf
    have hstep (a : α) : Progresses (f reader a) :=
      fun c => (hf.coincide (hself c) (Nat.lt_succ_self _) a).2.2
    exact ⟨hstep, stepsEnd hstep⟩

theorem reading_terminates_statement :
    Consumes reader.stmt ∧ Consumes reader.returnStmt ∧ (∀ limit, Consumes (reader.subexpr limit)) ∧
      Consumes reader.suffixed ∧ (∀ base, Consumes (reader.callArgs base)) ∧
      Consumes reader.table ∧ Consumes reader.field ∧ Consumes reader.functionBody := by
  obtain ⟨-, -, -, -, hneeds, -, -⟩ := reading_terminates
  exact ⟨hneeds _ _ .stmt, hneeds _ _ .returnStmt, fun limit => hneeds _ _ (.subexpr limit),
    hneeds _ _ .suffixed, fun base => hneeds _ _ (.callArgs base), hneeds _ _ .table,
    hneeds _ _ .field, hneeds _ _ .functionBody⟩

end LuaTranspiler.Source
