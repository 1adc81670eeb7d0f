import LuaTranspiler.Proofs.Source.Outcome
import LuaTranspiler.Proofs.Source.Reading
import Mathlib.Order.Nat

/-!
# Parsers move forward

A parser leaves the cursor behind some of the tokens that it was given, also where it fails. Most
parsers take a token if they succeed, and the item of a loop takes one if it is an item. A parser
that is made from a grammar asks the grammar only behind a token of its own. So what it does depends
on what the grammar does with fewer tokens.

All this is one statement on two grammars that do the same with few tokens: a parser made from
either does the same with one token more.

* `Forward p`, `Consumes p`: the cursor moves forward, and success takes a token
* `Coincide p p' c post`: at the cursor `c` both parsers do the same, and move forward
* `Coincide.bind`, `coincide_many`, `coincide_iterate`: rules for the forms of parsers
* `Grammar.CoincideBelow n g g'`: the readers of both grammars do the same with less than `n` tokens
* `Grammar.CoincideBelow.subexpr`, `Grammar.CoincideBelow.statements`: so do the parsers made from
  them with `n` tokens
-/

namespace LuaTranspiler

/-- The count of tokens that are left to read. -/
def Cursor.left (c : Cursor) : Nat := c.rest.length

namespace Source

open LuaTranspiler.Parser

/-! ### Rules -/

section Rules

variable {α β : Type} {p p' : Parser α} {q q' : α → Parser β} {c c' : Cursor} {kind : TokenKind}
  {post : α → Cursor → Prop} {post' : β → Cursor → Prop}

/-- The cursor that a parser leaves, on success or failure. -/
def cursorOf : EStateM.Result SyntaxError Cursor α → Cursor
  | .ok _ c => c
  | .error _ c => c

/-- The cursor never goes back and never passes the end of the tokens. -/
def Forward (p : Parser α) : Prop := ∀ c, (cursorOf (p c)).rest <:+ c.rest

/-- The cursor moves forward, and success takes at least one token. -/
def Consumes (p : Parser α) : Prop :=
  Forward p ∧ ∀ c a c', p c = .ok a c' → c'.left < c.left

/-- At `c` both parsers do the same. They leave the cursor behind some of the tokens, and if they
succeed, then with a result and a cursor that satisfy `post`. -/
def Coincide (p p' : Parser α) (c : Cursor) (post : α → Cursor → Prop) : Prop :=
  p c = p' c ∧ (cursorOf (p c)).rest <:+ c.rest ∧ Ensures p c post

/-- At least one token was spent since `c`. -/
abbrev Spent (c : Cursor) (_ : α) (c' : Cursor) : Prop := c'.left < c.left

/-- At least one token was spent since `c` if there is a result. -/
abbrev SpentIf (c : Cursor) (o : Option α) (c' : Cursor) : Prop :=
  o.isSome = true → c'.left < c.left

/-- Nothing is asked of the result. -/
def Whatever (_ : α) (_ : Cursor) : Prop := True

theorem Coincide.mono {post₁ : α → Cursor → Prop} (h : Coincide p p' c post)
    (himp : ∀ a c', post a c' → post₁ a c') : Coincide p p' c post₁ :=
  ⟨h.1, h.2.1, h.2.2.mono himp⟩

theorem Coincide.whatever (h : Coincide p p' c post) : Coincide p p' c Whatever :=
  h.mono fun _ _ _ => trivial

theorem Coincide.trans_eq {p₁ : Parser α} (h : Coincide p p' c post) (heq : p' c = p₁ c) :
    Coincide p p₁ c post :=
  ⟨h.1.trans heq, h.2⟩

/-- What was spent before stays spent. -/
theorem Coincide.spent (h : Coincide p p' c' post) (hlt : c'.left < c.left) :
    Coincide p p' c' (Spent c) := by
  refine ⟨h.1, h.2.1, fun a c₁ hrun => ?_⟩
  have hsuffix := h.2.1
  rw [hrun] at hsuffix
  exact hsuffix.length_le.trans_lt hlt

theorem coincide_pure {a : α} (h : post a c) : Coincide (pure a) (pure a) c post :=
  ⟨rfl, List.suffix_rfl, ensures_pure h⟩

theorem coincide_throw {e : SyntaxError} : Coincide (throw e) (throw e) c post :=
  ⟨rfl, List.suffix_rfl, ensures_throw⟩

theorem coincide_unexpected {kinds : List TokenKind} :
    Coincide (unexpected kinds) (unexpected kinds) c post := by
  refine ⟨rfl, ?_, ensures_unexpected⟩
  unfold unexpected
  split <;> exact List.suffix_rfl

theorem Coincide.bind (hp : Coincide p p' c post)
    (hq : ∀ a c', c'.left ≤ c.left → post a c' → Coincide (q a) (q' a) c' post') :
    Coincide (p >>= q) (p' >>= q') c post' := by
  obtain ⟨heq, hforward, hensures⟩ := hp
  cases hrun : p c with
  | ok a c' =>
    rw [hrun] at heq hforward
    obtain ⟨heq', hforward', hensures'⟩ := hq a c' hforward.length_le (hensures a c' hrun)
    refine ⟨?_, ?_, ?_⟩
    · rw [bind_run hrun, bind_run heq.symm, heq']
    · rw [bind_run hrun]
      exact hforward'.trans hforward
    · intro b c'' h
      rw [bind_run hrun] at h
      exact hensures' b c'' h
  | error e c' =>
    rw [hrun] at heq hforward
    have hfail : (p >>= q) c = .error e c' := by simp only [Bind.bind, EStateM.bind, hrun]
    have hfail' : (p' >>= q') c = .error e c' := by simp only [Bind.bind, EStateM.bind, ← heq]
    refine ⟨hfail.trans hfail'.symm, ?_, ?_⟩
    · rw [hfail]
      exact hforward
    · intro b c'' h
      rw [hfail] at h
      cases h

theorem Coincide.map_bind {γ : Type} {f : α → γ} {q q' : γ → Parser β} (hp : Coincide p p' c post)
    (hq : ∀ a c', c'.left ≤ c.left → post a c' → Coincide (q (f a)) (q' (f a)) c' post') :
    Coincide (f <$> p >>= q) (f <$> p' >>= q') c post' := by
  have hmap (p : Parser α) (q : γ → Parser β) : (f <$> p >>= q) = p >>= fun a => q (f a) :=
    bind_map_left f p q
  rw [hmap, hmap]
  exact hp.bind hq

/-! ### Tokens -/

theorem coincide_expect : Coincide (expect kind) (expect kind) c (Spent c) := by
  refine ⟨rfl, ?_, ensures_expect.mono fun t c' h => ?_⟩
  · unfold expect
    split
    next => exact List.suffix_rfl
    next t ts hrest =>
      split
      · rw [hrest]
        exact List.suffix_cons t ts
      · exact List.suffix_rfl
  · simp [Spent, Cursor.left, h.1]

theorem coincide_eat : Coincide (eat kind) (eat kind) c (SpentIf c) := by
  refine ⟨rfl, ?_, ensures_eat.mono fun o c' h => ?_⟩
  · unfold eat
    split
    next => exact List.suffix_rfl
    next t ts hrest =>
      split
      · rw [hrest]
        exact List.suffix_cons t ts
      · exact List.suffix_rfl
  · rcases h with ⟨rfl, rfl⟩ | ⟨t, rfl, hrest, -⟩
    · rintro ⟨⟩
    · simp [SpentIf, Cursor.left, hrest]

theorem coincide_advance {t : Token} {ts : List Token} (hrest : c.rest = t :: ts) :
    Coincide advance advance c (Spent c) := by
  refine ⟨rfl, ?_, (ensures_advance hrest).mono fun o c' h => ?_⟩
  · simp only [advance, hrest]
    exact List.suffix_cons t ts
  · simp [Spent, Cursor.left, h.2.1]

/-! ### Looking ahead -/

theorem coincide_check {q q' : Bool → Parser β} (h : ∀ b, Coincide (q b) (q' b) c post') :
    Coincide (check kind >>= q) (check kind >>= q') c post' :=
  h _

theorem coincide_require : Coincide (require kind) (require kind) c fun _ c' => c' = c := by
  refine coincide_check fun b => ?_
  split
  · exact coincide_pure rfl
  · exact coincide_unexpected

theorem coincide_require_bind {q q' : Unit → Parser β} (h : Coincide (q ()) (q' ()) c post') :
    Coincide (require kind >>= q) (require kind >>= q') c post' := by
  refine coincide_require.bind ?_
  rintro _ _ - rfl
  exact h

theorem coincide_peek {q q' : Option Token → Parser β} (hnone : Coincide (q none) (q' none) c post')
    (hsome : ∀ t ts, c.rest = t :: ts → Coincide (q (some t)) (q' (some t)) c post') :
    Coincide (peek? >>= q) (peek? >>= q') c post' := by
  change Coincide (q c.rest.head?) (q' c.rest.head?) c post'
  cases hrest : c.rest with
  | nil => exact hnone
  | cons t ts => exact hsome t ts hrest

theorem coincide_peekKind {q q' : Option TokenKind → Parser β}
    (hnone : Coincide (q none) (q' none) c post')
    (hsome : ∀ t ts, c.rest = t :: ts → Coincide (q (some t.kind)) (q' (some t.kind)) c post') :
    Coincide (peekKind? >>= q) (peekKind? >>= q') c post' := by
  change Coincide (q (c.rest.head?.map Token.kind)) (q' (c.rest.head?.map Token.kind)) c post'
  cases hrest : c.rest with
  | nil => exact hnone
  | cons t ts => exact hsome t ts hrest

theorem coincide_peekNth {n : Nat} {q q' : Option TokenKind → Parser β}
    (h : ∀ kind, Coincide (q kind) (q' kind) c post') :
    Coincide (peekNth? n >>= q) (peekNth? n >>= q') c post' :=
  h _

theorem coincide_finish {a : Span} {q q' : Span → Parser β}
    (h : ∀ span, Coincide (q span) (q' span) c post') :
    Coincide (finish a >>= q) (finish a >>= q') c post' :=
  h _

theorem coincide_ofExcept {r : Except SyntaxError α} (h : ∀ a, Coincide (q a) (q' a) c post') :
    Coincide (ofExcept r >>= q) (ofExcept r >>= q') c post' := by
  cases r with
  | ok a => exact h a
  | error e => exact coincide_throw (α := β)

theorem skip_suffix (last : Span) (ts : List Token) : (skip.go kind last ts).rest <:+ ts := by
  induction ts generalizing last with
  | nil => exact List.suffix_rfl
  | cons t ts ih =>
    rw [skip.go]
    split
    · exact (ih t.span).trans (List.suffix_cons t ts)
    · exact List.suffix_rfl

theorem coincide_skip : Coincide (skip kind) (skip kind) c Whatever :=
  ⟨rfl, skip_suffix c.last c.rest, fun _ _ _ => trivial⟩

/-! ### Loops -/

theorem coincide_manyUpTo {item item' : Parser (Option α)} {n : Nat}
    (hitem : ∀ c, c.left ≤ n → Coincide item item' c Whatever) (hc : c.left ≤ n)
    (bound : List Token) : Coincide (manyUpTo item bound) (manyUpTo item' bound) c Whatever := by
  induction bound generalizing c with
  | nil => exact (hitem c hc).bind fun o c' _ _ => coincide_pure trivial
  | cons t bound ih =>
    refine (hitem c hc).bind fun o c' hle _ => ?_
    cases o with
    | none => exact coincide_pure trivial
    | some a => exact (ih (hle.trans hc)).bind fun as c'' _ _ => coincide_pure trivial

theorem coincide_many {item item' : Parser (Option α)}
    (hitem : ∀ c', c'.left ≤ c.left → Coincide item item' c' Whatever) :
    Coincide (many item) (many item') c Whatever :=
  coincide_manyUpTo hitem le_rfl c.rest

theorem coincide_iterateUpTo {step step' : α → Parser (Option α)} {n : Nat}
    (hstep : ∀ a c, c.left ≤ n → Coincide (step a) (step' a) c Whatever) (hc : c.left ≤ n)
    (bound : List Token) (a : α) :
    Coincide (iterateUpTo step bound a) (iterateUpTo step' bound a) c Whatever := by
  induction bound generalizing c a with
  | nil => exact (hstep a c hc).bind fun o c' _ _ => coincide_pure trivial
  | cons t bound ih =>
    refine (hstep a c hc).bind fun o c' hle _ => ?_
    cases o with
    | none => exact coincide_pure trivial
    | some b => exact ih (hle.trans hc) b

theorem coincide_iterate {step step' : α → Parser (Option α)}
    (hstep : ∀ a c', c'.left ≤ c.left → Coincide (step a) (step' a) c' Whatever) (a : α) :
    Coincide (iterate step a) (iterate step' a) c Whatever :=
  coincide_iterateUpTo hstep le_rfl c.rest a

theorem coincide_behindComma (hp : ∀ c', c'.left < c.left → Coincide p p' c' Whatever) :
    Coincide (behindComma p) (behindComma p') c (SpentIf c) := by
  refine coincide_eat.bind fun o c₁ _ hspent => ?_
  cases o with
  | none => exact coincide_pure nofun
  | some t =>
    have h₁ : c₁.left < c.left := hspent rfl
    exact (hp c₁ h₁).bind fun a c₂ h₂ _ => coincide_pure fun _ => h₂.trans_lt h₁

theorem coincide_commaList (hp : ∀ c', c'.left ≤ c.left → Coincide p p' c' (Spent c')) :
    Coincide (commaList p) (commaList p') c (Spent c) := by
  refine (hp c le_rfl).bind fun a c₁ _ h₁ => ?_
  have hmany : Coincide (many (behindComma p)) (many (behindComma p')) c₁ Whatever :=
    coincide_many fun c' hle => (coincide_behindComma fun c'' hlt =>
      (hp c'' (hlt.le.trans (hle.trans (Nat.le_of_lt h₁)))).whatever).whatever
  exact hmany.bind fun as c₂ h₂ _ => coincide_pure (h₂.trans_lt h₁)

end Rules

/-! ### Expressions -/

section Expressions

variable {c : Cursor}

theorem coincide_name : Coincide name name c (Spent c) :=
  coincide_expect.bind fun _ _ _ h => coincide_pure h

theorem coincide_param? : Coincide param? param? c (SpentIf c) := by
  refine coincide_check fun b => ?_
  cases b with
  | true => exact coincide_pure nofun
  | false =>
    refine coincide_eat.bind fun o c₁ h₁ hspent => ?_
    cases o with
    | some t => exact coincide_require_bind (coincide_pure fun _ => hspent rfl)
    | none =>
      refine coincide_name.bind fun n c₂ h₂ hspent₂ => coincide_eat.bind fun o c₃ h₃ _ => ?_
      have hlt : c₃.left < c.left := by omega
      cases o with
      | some t => exact coincide_pure fun _ => hlt
      | none => exact coincide_require_bind (coincide_pure fun _ => hlt)

/-- With less than `n` tokens the readers of two grammars do the same, and an expression takes a
token. -/
structure Grammar.CoincideBelow (n : Nat) (g g' : Grammar) : Prop where
  expr (limit : Nat) (c : Cursor) (hc : c.left < n) :
    Coincide (g.expr limit) (g'.expr limit) c (Spent c)
  block (offset : Nat) (c : Cursor) (hc : c.left < n) :
    Coincide (g.block offset) (g'.block offset) c Whatever

namespace Grammar.CoincideBelow

variable {n : Nat} {g g' : Grammar} (hg : CoincideBelow n g g')
include hg

theorem exprList (hc : c.left < n) : Coincide g.exprList g'.exprList c (Spent c) :=
  coincide_commaList fun c' hle => hg.expr 0 c' (hle.trans_lt hc)

theorem functionBody (hc : c.left ≤ n) : Coincide g.functionBody g'.functionBody c (Spent c) := by
  refine coincide_expect.bind fun _ c₁ _ h₁ => ?_
  refine (coincide_many fun _ _ => coincide_param?.whatever).bind fun params c₂ h₂ _ => ?_
  refine coincide_expect.bind fun close c₃ h₃ _ => ?_
  refine (hg.block close.span.stop c₃ (by omega)).bind fun body c₄ h₄ _ => ?_
  exact coincide_expect.bind fun _ c₅ h₅ _ => coincide_pure (by omega)

/-- A field may open with an expression, so unlike most parsers it is not a token ahead of the
grammar. -/
theorem field (hc : c.left < n) : Coincide g.field g'.field c (Spent c) := by
  refine coincide_peekNth fun next => coincide_peek coincide_throw fun t ts hrest => ?_
  dsimp only
  split
  · refine (coincide_advance hrest).bind fun _ c₁ h₁ _ => ?_
    refine (hg.expr 0 c₁ (by omega)).bind fun key c₂ h₂ _ => ?_
    refine coincide_expect.bind fun _ c₃ h₃ _ => coincide_expect.bind fun _ c₄ h₄ _ => ?_
    refine (hg.expr 0 c₄ (by omega)).bind fun value c₅ h₅ _ => coincide_finish fun span => ?_
    exact coincide_pure (by omega)
  · split
    · refine coincide_name.bind fun key c₁ h₁ _ => coincide_expect.bind fun _ c₂ h₂ _ => ?_
      refine (hg.expr 0 c₂ (by omega)).bind fun value c₃ h₃ _ => coincide_finish fun span => ?_
      exact coincide_pure (by omega)
    · exact (hg.expr 0 c hc).bind fun value c₁ _ h₁ => coincide_finish fun span => coincide_pure h₁

theorem field? (hc : c.left < n) : Coincide g.field? g'.field? c (SpentIf c) := by
  refine coincide_check fun b => ?_
  cases b with
  | true => exact coincide_pure nofun
  | false =>
    refine (hg.field hc).bind fun field c₁ _ h₁ => coincide_eat.bind fun o c₂ h₂ _ => ?_
    have hlt₂ : c₂.left < c.left := by omega
    cases o with
    | some t => exact coincide_pure fun _ => hlt₂
    | none =>
      refine coincide_eat.bind fun o c₃ h₃ _ => ?_
      have hlt₃ : c₃.left < c.left := by omega
      cases o with
      | some t => exact coincide_pure fun _ => hlt₃
      | none => exact coincide_require_bind (coincide_pure fun _ => hlt₃)

theorem table (hc : c.left ≤ n) : Coincide g.table g'.table c (Spent c) := by
  refine coincide_expect.bind fun opening c₁ _ h₁ => ?_
  have hfields : Coincide (many g.field?) (many g'.field?) c₁ Whatever :=
    coincide_many fun c' hle => (hg.field? (by omega)).whatever
  refine hfields.bind fun fields c₂ h₂ _ => coincide_expect.bind fun _ c₃ h₃ _ => ?_
  exact coincide_finish fun span => coincide_pure (by omega)

theorem callArgs (base : Expr) (hc : c.left ≤ n) :
    Coincide (g.callArgs base) (g'.callArgs base) c (Spent c) := by
  have hclose (args : List Expr) (c₁ : Cursor) (h₁ : c₁.left < c.left) :
      Coincide
        (do
          let _ ← expect .rightParen
          return Expr.call base args (← finish base.span))
        (do
          let _ ← expect .rightParen
          return Expr.call base args (← finish base.span)) c₁ (Spent c) :=
    coincide_expect.bind fun _ c₂ h₂ _ => coincide_finish fun span => coincide_pure (by omega)
  refine coincide_peek coincide_throw fun t ts hrest => ?_
  have hadvance := coincide_advance hrest
  dsimp only
  split
  · refine hadvance.bind fun _ c₁ _ h₁ => coincide_check fun b => ?_
    cases b with
    | true => exact hclose [] c₁ h₁
    | false =>
      refine (hg.exprList (by omega)).bind fun args c₂ h₂ _ => ?_
      exact hclose args c₂ (by omega)
  iterate 2
    exact coincide_ofExcept fun s => hadvance.bind fun _ c₁ _ h₁ => coincide_finish fun span =>
      coincide_pure h₁
  · exact (hg.table hc).bind fun argument c₁ _ h₁ => coincide_finish fun span => coincide_pure h₁
  · exact coincide_unexpected

theorem primary (hc : c.left ≤ n) : Coincide g.primary g'.primary c (Spent c) := by
  refine coincide_peek coincide_throw fun t ts hrest => ?_
  have hadvance := coincide_advance hrest
  dsimp only
  split
  · exact hadvance.bind fun _ c₁ _ h₁ => coincide_pure h₁
  · refine hadvance.bind fun _ c₁ _ h₁ => (hg.expr 0 c₁ (by omega)).bind fun e c₂ h₂ _ => ?_
    exact coincide_expect.bind fun _ c₃ h₃ _ => coincide_finish fun span => coincide_pure (by omega)
  · exact coincide_throw

theorem suffix? (base : Expr) (hc : c.left ≤ n) :
    Coincide (g.suffix? base) (g'.suffix? base) c (SpentIf c) := by
  refine coincide_peekKind (coincide_pure nofun) fun t ts hrest => ?_
  have hadvance := coincide_advance hrest
  have hcall : Coincide (do return some (← g.callArgs base)) (do return some (← g'.callArgs base)) c
      (SpentIf c) :=
    (hg.callArgs base hc).bind fun e c₁ _ h₁ => coincide_pure fun _ => h₁
  split
  · refine hadvance.bind fun _ c₁ _ h₁ => coincide_name.bind fun n c₂ h₂ _ => ?_
    exact coincide_finish fun span => coincide_pure fun _ => by omega
  · refine hadvance.bind fun _ c₁ _ h₁ => (hg.expr 0 c₁ (by omega)).bind fun i c₂ h₂ _ => ?_
    refine coincide_expect.bind fun _ c₃ h₃ _ => coincide_finish fun span => ?_
    exact coincide_pure fun _ => by omega
  · refine hadvance.bind fun _ c₁ _ h₁ => coincide_name.bind fun n c₂ h₂ _ => ?_
    refine coincide_finish fun span => (hg.callArgs _ (by omega)).bind fun e c₃ h₃ _ => ?_
    exact coincide_pure fun _ => by omega
  iterate 4 exact hcall
  · exact coincide_pure nofun

theorem suffixed (hc : c.left ≤ n) : Coincide g.suffixed g'.suffixed c (Spent c) := by
  refine (hg.primary hc).bind fun e c₁ _ h₁ => ?_
  have hsteps : Coincide (iterate g.suffix? e) (iterate g'.suffix? e) c₁ Whatever :=
    coincide_iterate (fun base c' hle => (hg.suffix? base (by omega)).whatever) e
  exact hsteps.spent h₁

theorem simple (hc : c.left ≤ n) : Coincide g.simple g'.simple c (Spent c) := by
  refine coincide_peek coincide_throw fun t ts hrest => coincide_ofExcept fun o => ?_
  have hadvance := coincide_advance hrest
  cases o with
  | some value => exact hadvance.bind fun _ c₁ _ h₁ => coincide_pure h₁
  | none =>
    dsimp only
    split
    · exact hg.table hc
    · refine hadvance.bind fun _ c₁ _ h₁ => ?_
      refine (hg.functionBody (by omega)).bind fun func c₂ h₂ _ => coincide_finish fun span => ?_
      exact coincide_pure (by omega)
    · exact hg.suffixed hc

theorem operand (hc : c.left ≤ n) : Coincide g.operand g'.operand c (Spent c) := by
  refine coincide_peek coincide_throw fun t ts hrest => ?_
  dsimp only
  split
  · refine (coincide_advance hrest).bind fun _ c₁ _ h₁ => ?_
    refine (hg.expr unaryPriority c₁ (by omega)).bind fun e c₂ h₂ _ => ?_
    exact coincide_pure (by omega)
  · exact hg.simple hc

theorem extend? (limit : Nat) (lhs : Expr) (hc : c.left ≤ n) :
    Coincide (g.extend? limit lhs) (g'.extend? limit lhs) c (SpentIf c) := by
  refine coincide_peekKind (coincide_pure nofun) fun t ts hrest => ?_
  split
  · exact coincide_pure nofun
  next op _ =>
    split
    · exact coincide_pure nofun
    · refine (coincide_advance hrest).bind fun _ c₁ _ h₁ => ?_
      refine (hg.expr op.priority.2 c₁ (by omega)).bind fun rhs c₂ h₂ _ => ?_
      exact coincide_pure fun _ => by omega

theorem subexpr (limit : Nat) (hc : c.left ≤ n) :
    Coincide (g.subexpr limit) (g'.subexpr limit) c (Spent c) := by
  refine (hg.operand hc).bind fun e c₁ _ h₁ => ?_
  have hsteps : Coincide (iterate (g.extend? limit) e) (iterate (g'.extend? limit) e) c₁ Whatever :=
    coincide_iterate (fun lhs c' hle => (hg.extend? limit lhs (by omega)).whatever) e
  exact hsteps.spent h₁

end Grammar.CoincideBelow

end Expressions

/-! ### Statements -/

section Statements

variable {c : Cursor}

theorem coincide_dotStep? (path : Expr) :
    Coincide (dotStep? path) (dotStep? path) c (SpentIf c) := by
  refine coincide_eat.bind fun o c₁ _ hspent => ?_
  cases o with
  | none => exact coincide_pure nofun
  | some t =>
    have h₁ : c₁.left < c.left := hspent rfl
    refine coincide_name.bind fun n c₂ h₂ _ => coincide_finish fun span => ?_
    exact coincide_pure fun _ => by omega

theorem coincide_functionName : Coincide functionName functionName c (Spent c) := by
  refine coincide_name.bind fun first c₁ _ h₁ => ?_
  refine (coincide_iterate (fun path _ _ => (coincide_dotStep? path).whatever) _).bind
    fun path c₂ h₂ _ => coincide_eat.bind fun o c₃ h₃ _ => ?_
  cases o with
  | none => exact coincide_pure (by omega)
  | some t =>
    refine coincide_name.bind fun n c₄ h₄ _ => coincide_finish fun span => ?_
    exact coincide_pure (by omega)

namespace Grammar.CoincideBelow

variable {n : Nat} {g g' : Grammar} (hg : CoincideBelow n g g')
include hg

theorem openBlock (kind : TokenKind) (hc : c.left ≤ n) :
    Coincide (g.openBlock kind) (g'.openBlock kind) c (Spent c) :=
  coincide_expect.bind fun opening c₁ _ h₁ =>
    (hg.block opening.span.stop c₁ (Nat.lt_of_lt_of_le h₁ hc)).spent h₁

theorem doEnd (hc : c.left ≤ n) : Coincide g.doEnd g'.doEnd c (Spent c) :=
  (hg.openBlock .kwDo hc).bind fun _ _ _ h₁ => coincide_expect.bind fun _ _ h₂ _ =>
    coincide_pure (h₂.trans_lt h₁)

theorem localStmt (start : Span) (hc : c.left ≤ n) :
    Coincide (g.localStmt start) (g'.localStmt start) c (Spent c) := by
  refine coincide_expect.bind fun _ c₁ _ h₁ => coincide_eat.bind fun o c₂ h₂ _ => ?_
  cases o with
  | some t =>
    refine coincide_name.bind fun n c₃ h₃ _ => ?_
    refine (hg.functionBody (by omega)).bind fun func c₄ h₄ _ => coincide_finish fun span => ?_
    exact coincide_pure (by omega)
  | none =>
    refine (coincide_commaList fun _ _ => coincide_name).bind fun names c₃ h₃ _ => ?_
    refine coincide_eat.bind fun o c₄ h₄ _ => ?_
    cases o with
    | some t =>
      refine (hg.exprList (by omega)).bind fun init c₅ h₅ _ => coincide_finish fun span => ?_
      exact coincide_pure (by omega)
    | none => exact coincide_finish fun span => coincide_pure (by omega)

theorem functionStmt (start : Span) (hc : c.left ≤ n) :
    Coincide (g.functionStmt start) (g'.functionStmt start) c (Spent c) := by
  refine coincide_expect.bind fun _ c₁ _ h₁ => coincide_functionName.bind fun path c₂ h₂ _ => ?_
  refine (hg.functionBody (by omega)).bind fun func c₃ h₃ _ => coincide_finish fun span => ?_
  exact coincide_pure (by omega)

theorem clause? (hc : c.left ≤ n) : Coincide g.clause? g'.clause? c (SpentIf c) := by
  refine coincide_eat.bind fun o c₁ _ hspent => ?_
  cases o with
  | none => exact coincide_pure nofun
  | some t =>
    have h₁ : c₁.left < c.left := hspent rfl
    refine (hg.expr 0 c₁ (by omega)).bind fun cond c₂ h₂ _ => ?_
    refine (hg.openBlock .kwThen (by omega)).bind fun block c₃ h₃ _ => ?_
    exact coincide_pure fun _ => by omega

theorem ifStmt (start : Span) (hc : c.left ≤ n) :
    Coincide (g.ifStmt start) (g'.ifStmt start) c (Spent c) := by
  have hclose (cond : Expr) (block : Block) (clauses : List Clause) (elseBlock : Option Block)
      (c₁ : Cursor) (h₁ : c₁.left < c.left) :
      Coincide
        (do
          let _ ← expect .kwEnd
          return Stmt.ifStmt cond block clauses elseBlock (← finish start))
        (do
          let _ ← expect .kwEnd
          return Stmt.ifStmt cond block clauses elseBlock (← finish start)) c₁ (Spent c) :=
    coincide_expect.bind fun _ c₂ h₂ _ => coincide_finish fun span => coincide_pure (by omega)
  refine coincide_expect.bind fun _ c₁ _ h₁ => ?_
  refine (hg.expr 0 c₁ (by omega)).bind fun cond c₂ h₂ _ => ?_
  refine (hg.openBlock .kwThen (by omega)).bind fun block c₃ h₃ _ => ?_
  have hclauses : Coincide (many g.clause?) (many g'.clause?) c₃ Whatever :=
    coincide_many fun c' hle => (hg.clause? (by omega)).whatever
  refine hclauses.bind fun clauses c₄ h₄ _ => coincide_eat.bind fun o c₅ h₅ _ => ?_
  cases o with
  | some t =>
    refine (hg.block t.span.stop c₅ (by omega)).map_bind fun elseBlock c₆ h₆ _ => ?_
    exact hclose cond block clauses (some elseBlock) c₆ (by omega)
  | none => exact hclose cond block clauses none c₅ (by omega)

theorem whileStmt (start : Span) (hc : c.left ≤ n) :
    Coincide (g.whileStmt start) (g'.whileStmt start) c (Spent c) := by
  refine coincide_expect.bind fun _ c₁ _ h₁ => ?_
  refine (hg.expr 0 c₁ (by omega)).bind fun cond c₂ h₂ _ => ?_
  refine (hg.doEnd (by omega)).bind fun block c₃ h₃ _ => coincide_finish fun span => ?_
  exact coincide_pure (by omega)

theorem forStmt (start : Span) (hc : c.left ≤ n) :
    Coincide (g.forStmt start) (g'.forStmt start) c (Spent c) := by
  have hclose (var : Name) (lower upper : Expr) (step : Option Expr) (c₁ : Cursor)
      (h₁ : c₁.left < c.left) :
      Coincide
        (do
          let block ← g.doEnd
          return Stmt.forNumeric var lower upper step block (← finish start))
        (do
          let block ← g'.doEnd
          return Stmt.forNumeric var lower upper step block (← finish start)) c₁ (Spent c) :=
    (hg.doEnd (by omega)).bind fun block c₂ h₂ _ => coincide_finish fun span =>
      coincide_pure (by omega)
  refine coincide_expect.bind fun _ c₁ _ h₁ => coincide_name.bind fun first c₂ h₂ _ => ?_
  refine coincide_eat.bind fun o c₃ h₃ _ => ?_
  cases o with
  | some t =>
    refine (hg.expr 0 c₃ (by omega)).bind fun lower c₄ h₄ _ => ?_
    refine coincide_expect.bind fun _ c₅ h₅ _ => ?_
    refine (hg.expr 0 c₅ (by omega)).bind fun upper c₆ h₆ _ => ?_
    refine coincide_eat.bind fun o c₇ h₇ _ => ?_
    cases o with
    | some t =>
      refine (hg.expr 0 c₇ (by omega)).map_bind fun step c₈ h₈ _ => ?_
      exact hclose first lower upper (some step) c₈ (by omega)
    | none => exact hclose first lower upper none c₇ (by omega)
  | none =>
    have hnames : Coincide (many (behindComma name)) (many (behindComma name)) c₃ Whatever :=
      coincide_many fun _ _ => (coincide_behindComma fun _ _ => coincide_name.whatever).whatever
    refine hnames.bind fun others c₄ h₄ _ => coincide_expect.bind fun _ c₅ h₅ _ => ?_
    refine (hg.exprList (by omega)).bind fun iterators c₆ h₆ _ => ?_
    refine (hg.doEnd (by omega)).bind fun block c₇ h₇ _ => coincide_finish fun span => ?_
    exact coincide_pure (by omega)

theorem repeatStmt (start : Span) (hc : c.left ≤ n) :
    Coincide (g.repeatStmt start) (g'.repeatStmt start) c (Spent c) := by
  refine (hg.openBlock .kwRepeat hc).bind fun block c₁ _ h₁ => ?_
  refine coincide_expect.bind fun _ c₂ h₂ _ => ?_
  refine (hg.expr 0 c₂ (by omega)).bind fun cond c₃ h₃ _ => coincide_finish fun span => ?_
  exact coincide_pure (by omega)

theorem exprStmt (start : Span) (hc : c.left ≤ n) :
    Coincide (g.exprStmt start) (g'.exprStmt start) c (Spent c) := by
  refine (hg.suffixed hc).bind fun first c₁ _ h₁ => ?_
  refine coincide_check fun b => coincide_check fun b' => ?_
  split
  · have hothers : Coincide (many (behindComma g.suffixed)) (many (behindComma g'.suffixed)) c₁
        Whatever :=
      coincide_many fun c' hle => (coincide_behindComma fun c'' hlt =>
        (hg.suffixed (by omega)).whatever).whatever
    refine hothers.bind fun others c₂ h₂ _ => ?_
    split
    · exact coincide_throw
    · refine coincide_expect.bind fun _ c₃ h₃ _ => ?_
      refine (hg.exprList (by omega)).bind fun init c₄ h₄ _ => coincide_finish fun span => ?_
      exact coincide_pure (by omega)
  · split
    · exact coincide_finish fun span => coincide_pure h₁
    · exact coincide_throw

theorem stmt (hc : c.left ≤ n) : Coincide g.stmt g'.stmt c (Spent c) := by
  refine coincide_peek coincide_throw fun t ts hrest => ?_
  have hadvance := coincide_advance hrest
  dsimp only
  split
  · exact hg.localStmt t.span hc
  · exact hg.functionStmt t.span hc
  · exact hg.ifStmt t.span hc
  · exact hg.whileStmt t.span hc
  · exact hg.forStmt t.span hc
  · exact hg.repeatStmt t.span hc
  · exact (hg.doEnd hc).bind fun block c₁ _ h₁ => coincide_finish fun span => coincide_pure h₁
  · exact hadvance.bind fun _ c₁ _ h₁ => coincide_finish fun span => coincide_pure h₁
  · refine hadvance.bind fun _ c₁ _ h₁ => coincide_name.bind fun n c₂ h₂ _ => ?_
    exact coincide_finish fun span => coincide_pure (by omega)
  · refine hadvance.bind fun _ c₁ _ h₁ => coincide_name.bind fun n c₂ h₂ _ => ?_
    refine coincide_expect.bind fun _ c₃ h₃ _ => coincide_finish fun span => ?_
    exact coincide_pure (by omega)
  iterate 2 exact hg.exprStmt t.span hc
  · exact coincide_throw

theorem returnStmt (hc : c.left ≤ n) : Coincide g.returnStmt g'.returnStmt c (Spent c) := by
  have hclose (span : Span) (values : List Expr) (c₁ : Cursor) (h₁ : c₁.left < c.left) :
      Coincide (do return Stmt.returnStmt values (← finish span))
        (do return Stmt.returnStmt values (← finish span)) c₁ (Spent c) :=
    coincide_finish fun span => coincide_pure h₁
  refine coincide_expect.bind fun t c₁ _ h₁ => ?_
  refine coincide_peekKind (hclose t.span [] c₁ h₁) fun next ts hrest => ?_
  dsimp only
  split
  · exact hclose t.span [] c₁ h₁
  · refine (hg.exprList (by omega)).bind fun values c₂ h₂ _ => ?_
    exact hclose t.span values c₂ (by omega)

theorem stmt? (hc : c.left ≤ n) : Coincide g.stmt? g'.stmt? c (SpentIf c) := by
  refine coincide_skip.bind fun _ c₁ h₁ _ => ?_
  refine coincide_peek (coincide_pure nofun) fun t ts hrest => ?_
  dsimp only
  split
  · exact coincide_pure nofun
  · split
    · refine (hg.returnStmt (by omega)).bind fun s c₂ _ h₂ => coincide_eat.bind fun _ c₃ h₃ _ => ?_
      have hlt : c₃.left < c.left := by omega
      refine coincide_peek (coincide_pure fun _ => hlt) fun next ts hrest => ?_
      dsimp only
      split
      · exact coincide_pure fun _ => hlt
      · exact coincide_throw
    · exact (hg.stmt (by omega)).bind fun s c₂ _ h₂ => coincide_pure fun _ => by omega

theorem statements (start : Nat) (hc : c.left ≤ n) :
    Coincide (g.statements start) (g'.statements start) c Whatever := by
  have hstmts : Coincide (many g.stmt?) (many g'.stmt?) c Whatever :=
    coincide_many fun c' hle => (hg.stmt? (by omega)).whatever
  exact hstmts.bind fun stmts c₁ _ _ => coincide_pure trivial

end Grammar.CoincideBelow

end Statements

end Source

end LuaTranspiler
