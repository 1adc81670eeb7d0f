import LuaTranspiler.Proofs.Source.Layout
import LuaTranspiler.Proofs.Source.Outcome

/-!
# Trees lie where they were read

Whatever a parser reads from tokens in order is laid out in order: between the place where the
parser started and the last token that it took. The proof follows each parser from one token to the
next and keeps account of the layouts read so far.

* `Past edge lo xs c`: the layouts `xs` are read from `lo` on, and the cursor is behind them
* `Reached edge lo xs c`: moreover the last of them ends with the token read last
* `Yields edge p f`: what `p` reads is laid out as `f` says
* `Grammar.Places`: the readers of a grammar do so for expressions and blocks
-/

namespace LuaTranspiler.Source

open LuaTranspiler.Parser

variable {α β : Type} {edge : Point → Prop} {lo lo' : Nat} {xs ys : List Layout} {c c' : Cursor}

/-! ### How far has been read -/

/-- The layouts `xs` are read from `lo` on, and the tokens left come behind them. -/
def Past (edge : Point → Prop) (lo : Nat) (xs : List Layout) (c : Cursor) : Prop :=
  ∃ hi, LaidIn edge lo hi xs ∧ Ordered edge hi c.rest

/-- The layouts `xs` are read from `lo` on, up to the end of the token read last. -/
structure Reached (edge : Point → Prop) (lo : Nat) (xs : List Layout) (c : Cursor) : Prop where
  laid : LaidIn edge lo c.last.stop xs
  lt : lo < c.last.stop
  closing : edge c.last.closing
  ordered : Ordered edge c.last.stop c.rest

theorem Reached.past (h : Reached edge lo xs c) : Past edge lo xs c := ⟨_, h.laid, h.ordered⟩

theorem past_nil (h : Ordered edge lo c.rest) : Past edge lo [] c := ⟨lo, laidIn_nil.2 le_rfl, h⟩

theorem Reached.mono (h : Reached edge lo xs c) (hlo : lo' ≤ lo) : Reached edge lo' xs c :=
  ⟨h.laid.mono hlo le_rfl, hlo.trans_lt h.lt, h.closing, h.ordered⟩

/-- A span that may be the start of a node. -/
structure Starts (edge : Point → Prop) (lo : Nat) (a : Span) : Prop where
  lower : lo ≤ a.start
  opening : edge a.opening

/-- A node from the start of `a` up to the token read last. -/
theorem Starts.node {a : Span} (ha : Starts edge lo a) (h : Reached edge a.start xs c) :
    Reached edge lo [.node (a.through c.last) xs] c := by
  refine { h.mono ha.lower with laid := laidIn_singleton.2 (laid_node.2 ⟨?_, h.laid⟩) }
  exact ⟨ha.lower, h.lt, le_rfl, ha.opening, h.closing⟩

theorem starts_head {t : Token} {ts : List Token} (hc : Ordered edge lo c.rest)
    (hrest : c.rest = t :: ts) : Starts edge lo t.span ∧ Ordered edge t.span.start c.rest := by
  rw [hrest] at hc ⊢
  have ht := hc.head
  exact ⟨⟨ht.lower, ht.opening⟩, .cons { ht with lower := le_rfl } hc.tail⟩

/-- What is read further is counted from where the first node starts. -/
theorem Reached.rebase {a : Span} (h : Reached edge lo [.node a xs] c) :
    Starts edge lo a ∧ Reached edge a.start [.node a xs] c := by
  obtain ⟨hfits, hxs⟩ := laid_node.1 (laidIn_singleton.1 h.laid)
  refine ⟨⟨hfits.lower, hfits.opening⟩, ?_, hfits.nonempty.trans_le hfits.upper, h.closing,
    h.ordered⟩
  exact laidIn_singleton.2 (laid_node.2 ⟨{ hfits with lower := le_rfl }, hxs⟩)

/-- A node from the start of one node to the end of the next. -/
theorem Reached.through {a b : Span} (h : Reached edge lo [.node a xs, .node b ys] c) :
    Reached edge lo [.node (a.through b) [.node a xs, .node b ys]] c := by
  obtain ⟨mid, ha, hb⟩ := laidIn_cons.1 h.laid
  obtain ⟨hfits, hxs⟩ := laid_node.1 ha
  obtain ⟨hfits', hys⟩ := laid_node.1 (laidIn_singleton.1 hb)
  have hlt : a.start < b.stop :=
    hfits.nonempty.trans (hfits.upper.trans_lt (hfits'.lower.trans_lt hfits'.nonempty))
  refine { h with laid := laidIn_singleton.2 (laid_node.2 ⟨?_, laidIn_cons.2 ⟨mid, ?_, ?_⟩⟩) }
  · exact ⟨hfits.lower, hlt, hfits'.upper, hfits.opening, hfits'.closing⟩
  · exact laid_node.2 ⟨{ hfits with lower := le_rfl }, hxs⟩
  · exact laidIn_singleton.2 (laid_node.2 ⟨{ hfits' with upper := le_rfl }, hys⟩)

/-- The first part of a node may be left out. -/
theorem Reached.drop {a : Span} {x : Layout} (h : Reached edge lo [.node a (x :: xs)] c) :
    Reached edge lo [.node a xs] c := by
  obtain ⟨hfits, hparts⟩ := laid_node.1 (laidIn_singleton.1 h.laid)
  obtain ⟨mid, hx, hxs⟩ := laidIn_cons.1 hparts
  exact { h with laid := laidIn_singleton.2 (laid_node.2 ⟨hfits, hxs.mono hx.le le_rfl⟩) }

/-- What was read may be left out of account. -/
theorem Reached.bare (h : Reached edge lo xs c) : Reached edge lo [] c :=
  { h with laid := laidIn_nil.2 h.lt.le }

/-! ### Reading tokens -/

section Tokens

variable {t : Token} {kind : TokenKind} {post : β → Cursor → Prop}

/-- One more token is read. -/
theorem Past.token (h : Past edge lo xs c) (hrest : c.rest = t :: c'.rest)
    (hlast : c'.last = t.span) : Reached edge lo xs c' := by
  obtain ⟨hi, hxs, hts⟩ := h
  rw [hrest] at hts
  have ht := hts.head
  refine ⟨?_, ?_, ?_, ?_⟩ <;> rw [hlast]
  · exact hxs.mono le_rfl ht.le
  · exact hxs.le.trans_lt (ht.lower.trans_lt ht.nonempty)
  · exact ht.closing
  · exact hts.tail

/-- One more token is read, and its span belongs to a node. -/
theorem Past.leaf (h : Past edge lo xs c) (hrest : c.rest = t :: c'.rest)
    (hlast : c'.last = t.span) : Reached edge lo (xs ++ [.node t.span []]) c' := by
  obtain ⟨hi, hxs, hts⟩ := h
  refine { Past.token ⟨hi, hxs, hts⟩ hrest hlast with laid := laidIn_append.2 ⟨hi, hxs, ?_⟩ }
  rw [hrest] at hts
  rw [hlast]
  exact laidIn_singleton.2 (laid_node.2 ⟨hts.head, laidIn_nil.2 hts.head.nonempty.le⟩)

theorem Past.expect {q : Token → Parser β} (hc : Past edge lo xs c)
    (h : ∀ t c', c'.last = t.span → Reached edge lo xs c' → Ensures (q t) c' post) :
    Ensures (expect kind >>= q) c post := by
  refine ensures_expect.bind fun t c' ⟨hrest, hlast, _⟩ => ?_
  exact h t c' hlast (hc.token hrest hlast)

theorem Past.advance {q : Option Token → Parser β} {ts : List Token} (hc : Past edge lo xs c)
    (hrest : c.rest = t :: ts) (h : ∀ c', Reached edge lo xs c' → Ensures (q (some t)) c' post) :
    Ensures (advance >>= q) c post := by
  refine (ensures_advance hrest).bind ?_
  rintro _ c' ⟨rfl, hrest, hlast⟩
  exact h c' (hc.token hrest hlast)

/-- At the end of the tokens there is nothing to advance over, and nothing changes. -/
theorem Reached.advance {q : Option Token → Parser β} (hc : Reached edge lo xs c)
    (h : ∀ o c', Reached edge lo xs c' → Ensures (q o) c' post) :
    Ensures (advance >>= q) c post := by
  cases hrest : c.rest with
  | nil =>
    have hadvance : Ensures Parser.advance c fun _ c' => c' = c := by
      intro o c' hrun
      simp only [Parser.advance, hrest] at hrun
      cases hrun
      rfl
    refine hadvance.bind ?_
    rintro o _ rfl
    exact h o _ hc
  | cons t ts => exact hc.past.advance hrest (h (some t))

theorem Reached.eat {q : Option Token → Parser β} (hc : Reached edge lo xs c)
    (h : ∀ o c', Reached edge lo xs c' → Ensures (q o) c' post) :
    Ensures (eat kind >>= q) c post := by
  refine ensures_eat.bind ?_
  rintro o c' (⟨-, rfl⟩ | ⟨t, -, hrest, hlast, -⟩)
  · exact h o _ hc
  · exact h o c' (hc.past.token hrest hlast)

theorem Past.eat {q : Option Token → Parser β} (hc : Past edge lo xs c)
    (hnone : Ensures (q none) c post)
    (hsome : ∀ t c', c'.last = t.span → Reached edge lo xs c' → Ensures (q (some t)) c' post) :
    Ensures (eat kind >>= q) c post := by
  refine ensures_eat.bind ?_
  rintro _ c' (⟨rfl, rfl⟩ | ⟨t, rfl, hrest, hlast, -⟩)
  · exact hnone
  · exact hsome t c' hlast (hc.token hrest hlast)

theorem past_skip (hc : Past edge lo xs c) : Past edge lo xs (skip.go kind c.last c.rest) := by
  obtain ⟨hi, hxs, hts⟩ := hc
  generalize c.last = last, c.rest = ts at hts
  induction ts generalizing hi last with
  | nil => exact ⟨hi, hxs, hts⟩
  | cons t ts ih =>
    rw [skip.go]
    split
    · exact ih t.span.stop (hxs.mono le_rfl hts.head.le) t.span hts.tail
    · exact ⟨hi, hxs, hts⟩

end Tokens

/-! ### What parsers yield -/

/-- Whatever was read before, `p` goes on with the layouts `f` and ends with a token. -/
def Yields (edge : Point → Prop) (p : Parser α) (f : α → List Layout) : Prop :=
  ∀ ⦃lo xs c⦄, Past edge lo xs c → Ensures p c fun a c' => Reached edge lo (xs ++ f a) c'

namespace Yields

variable {p item : Parser α} {f : α → List Layout}

/-- It is enough to follow `p` from where it starts. -/
theorem of_ordered
    (h : ∀ ⦃lo c⦄, Ordered edge lo c.rest → Ensures p c fun a c' => Reached edge lo (f a) c') :
    Yields edge p f := by
  rintro lo xs c ⟨hi, hxs, hrest⟩ a c' hp
  have ha := h hrest a c' hp
  exact ⟨laidIn_append.2 ⟨hi, hxs, ha.laid⟩, hxs.le.trans_lt ha.lt, ha.closing, ha.ordered⟩

theorem bind {q : α → Parser β} {post : β → Cursor → Prop} (hp : Yields edge p f)
    (hc : Past edge lo xs c)
    (h : ∀ a c', Reached edge lo (xs ++ f a) c' → Ensures (q a) c' post) :
    Ensures (p >>= q) c post :=
  (hp hc).bind h

theorem many_behindComma (hitem : Yields edge item f) (hc : Reached edge lo xs c) :
    Ensures (many (behindComma item)) c fun as c' => Reached edge lo (xs ++ as.flatMap f) c' := by
  refine ensures_many (fun as c hc => ?_) (by simpa using hc)
  refine hc.eat fun comma c' h => ?_
  cases comma with
  | none => exact ensures_pure (by simpa using h)
  | some comma => exact hitem.bind h.past fun a c'' h => ensures_pure (by simpa using h)

theorem commaList (hitem : Yields edge item f) :
    Yields edge (commaList item) fun as => as.flatMap f := by
  intro lo xs c hc
  refine hitem.bind hc fun first c₁ h₁ => ?_
  refine (hitem.many_behindComma h₁).bind fun others c₂ h₂ => ensures_pure ?_
  simpa using h₂

end Yields

theorem yields_name : Yields edge name fun n => [n.layout] := by
  intro lo xs c hc
  refine ensures_expect.bind fun t c' ⟨hrest, hlast, _⟩ => ensures_pure ?_
  exact hc.leaf hrest hlast

theorem reached_param? (hc : Reached edge lo xs c) :
    Ensures param? c fun o c' => Reached edge lo (xs ++ o.toList.map Param.layout) c' := by
  refine ensures_check fun closed _ => ?_
  split
  · exact ensures_pure (by simpa using hc)
  · refine ensures_eat.bind ?_
    rintro _ c₁ (⟨rfl, rfl⟩ | ⟨t, rfl, hrest, hlast, -⟩)
    · refine yields_name.bind hc.past fun n c₂ h₂ => h₂.eat fun comma c₃ h₃ => ?_
      dsimp only
      split
      · exact ensures_require (ensures_pure h₃)
      · exact ensures_pure h₃
    · exact ensures_require (ensures_pure (hc.past.leaf hrest hlast))

theorem yields_functionName : Yields edge functionName fun e => [e.layout] := by
  refine .of_ordered fun lo c hc => ?_
  refine yields_name.bind (past_nil hc) fun first c₁ h₁ => ?_
  have hstep : ∀ e c, Reached edge lo [e.layout] c →
      Ensures (dotStep? e) c fun o c' => Reached edge lo [(o.getD e).layout] c' := by
    intro e c hc
    obtain ⟨he, hc'⟩ := hc.rebase
    refine hc'.past.eat (ensures_pure hc) fun _ c₂ _ h₂ => ?_
    refine yields_name.bind h₂.past fun n c₃ h₃ => ensures_finish (ensures_pure ?_)
    exact he.node h₃
  have hfirst : Reached edge lo [(Expr.ident first.text first.span).layout] c₁ := h₁
  refine (ensures_iterate hstep hfirst).bind fun path c₂ h₂ => ?_
  obtain ⟨hpath, h₂'⟩ := h₂.rebase
  refine h₂'.past.eat (ensures_pure h₂) fun _ c₃ _ h₃ => ?_
  refine yields_name.bind h₃.past fun n c₄ h₄ => ensures_finish (ensures_pure ?_)
  exact hpath.node h₄

theorem reached_params (hc : Reached edge lo xs c) :
    Ensures (many param?) c fun ps c' => Reached edge lo (xs ++ ps.map Param.layout) c' := by
  refine ensures_many (fun ps c h => ?_) (by simpa using hc)
  refine (reached_param? h).mono fun o c' h' => ?_
  simpa using h'

/-! ### Expressions -/

/-- The readers of a grammar lay out expressions and blocks in order. -/
structure Grammar.Places (edge : Point → Prop) (g : Grammar) : Prop where
  expr : ∀ limit, Yields edge (g.expr limit) fun e => [e.layout]
  block : ∀ start c, Ordered edge start c.rest →
    Ensures (g.block start) c fun b c' => Past edge start [b.layout] c'

namespace Grammar.Places

variable {g : Grammar}

/-- A block that opens behind the token read last. -/
theorem block_reached (hg : g.Places edge) (hc : Reached edge lo xs c) :
    Ensures (g.block c.last.stop) c fun b c' => Past edge lo (xs ++ [b.layout]) c' := by
  refine (hg.block _ c hc.ordered).mono fun b c' h => ?_
  obtain ⟨hi, hb, hc'⟩ := h
  exact ⟨hi, laidIn_append.2 ⟨_, hc.laid, hb⟩, hc'⟩

theorem exprList (hg : g.Places edge) : Yields edge g.exprList exprLayouts := by
  intro lo xs c hc
  refine ((hg.expr 0).commaList hc).mono fun es c' h => ?_
  rwa [exprLayouts_eq_map, List.map_eq_flatMap]

theorem functionBody (hg : g.Places edge) : Yields edge g.functionBody Function.parts := by
  intro lo xs c hc
  refine hc.expect fun _ c₁ _ h₁ => ?_
  refine (reached_params h₁).bind fun params c₂ h₂ => ?_
  refine h₂.past.expect fun close c₃ hclose h₃ => ?_
  rw [← hclose]
  refine (hg.block_reached h₃).bind fun body c₄ h₄ => ?_
  refine h₄.expect fun _ c₅ _ h₅ => ensures_pure ?_
  simpa [Function.parts] using h₅

theorem field (hg : g.Places edge) : Yields edge g.field fun f => [f.layout] := by
  refine .of_ordered fun lo c hc => ?_
  refine ensures_peekNth (ensures_peek ensures_throw fun t ts hrest => ?_)
  obtain ⟨ht, hc⟩ := starts_head hc hrest
  dsimp only
  split
  · refine (past_nil hc).advance hrest fun c₁ h₁ => ?_
    refine (hg.expr 0).bind h₁.past fun key c₂ h₂ => ?_
    refine h₂.past.expect fun _ c₃ _ h₃ => h₃.past.expect fun _ c₄ _ h₄ => ?_
    refine (hg.expr 0).bind h₄.past fun value c₅ h₅ => ensures_finish (ensures_pure ?_)
    exact ht.node h₅
  · split
    · refine yields_name.bind (past_nil hc) fun key c₁ h₁ => ?_
      refine h₁.past.expect fun _ c₂ _ h₂ => ?_
      refine (hg.expr 0).bind h₂.past fun value c₃ h₃ => ensures_finish (ensures_pure ?_)
      exact ht.node h₃
    · refine (hg.expr 0).bind (past_nil hc) fun value c₁ h₁ => ensures_finish (ensures_pure ?_)
      exact ht.node h₁

theorem field? (hg : g.Places edge) (hc : Reached edge lo xs c) :
    Ensures g.field? c fun o c' => Reached edge lo (xs ++ o.toList.map Field.layout) c' := by
  refine ensures_check fun closed _ => ?_
  split
  · exact ensures_pure (by simpa using hc)
  · refine hg.field.bind hc.past fun f c₁ h₁ => h₁.eat fun comma c₂ h₂ => ?_
    dsimp only
    split
    · refine h₂.eat fun semicolon c₃ h₃ => ?_
      split
      · exact ensures_require (ensures_pure h₃)
      · exact ensures_pure h₃
    · exact ensures_pure h₂

theorem table (hg : g.Places edge) : Yields edge g.table fun e => [e.layout] := by
  refine .of_ordered fun lo c hc => ?_
  refine ensures_expect.bind fun opening c₁ ⟨hrest, hlast, _⟩ => ?_
  obtain ⟨hopening, hc⟩ := starts_head hc hrest
  have h₁ := (past_nil hc).token hrest hlast
  have hfields : Ensures (many g.field?) c₁ fun fs c' =>
      Reached edge opening.span.start (fs.map Field.layout) c' :=
    ensures_many (fun fs c h => (hg.field? h).mono fun o c' h' => by simpa using h') h₁
  refine hfields.bind fun fields c₂ h₂ => ?_
  refine h₂.past.expect fun _ c₃ _ h₃ => ensures_finish (ensures_pure ?_)
  rw [← fieldLayouts_eq_map] at h₃
  exact hopening.node h₃

/-- A call of what was read before. -/
theorem callArgs (hg : g.Places edge) {base : Expr} (hc : Reached edge lo [base.layout] c) :
    Ensures (g.callArgs base) c fun e c' => Reached edge lo [e.layout] c' := by
  obtain ⟨hbase, hc⟩ := hc.rebase
  refine ensures_peek ensures_throw fun t ts hrest => ?_
  dsimp only
  split
  case h_1 =>
    refine hc.advance fun _ c₁ h₁ => ensures_check fun closed _ => ?_
    split
    · refine h₁.past.expect fun _ c₂ _ h₂ => ensures_finish (ensures_pure ?_)
      exact hbase.node h₂
    · refine hg.exprList.bind h₁.past fun args c₂ h₂ => h₂.past.expect fun _ c₃ _ h₃ => ?_
      exact ensures_finish (ensures_pure (hbase.node h₃))
  case h_2 | h_3 =>
    refine ensures_ofExcept fun s _ => (ensures_advance hrest).bind ?_
    rintro _ c₁ ⟨rfl, hrest, hlast⟩
    exact ensures_finish (ensures_pure (hbase.node (hc.past.leaf hrest hlast)))
  case h_4 =>
    refine hg.table.bind hc.past fun argument c₁ h₁ => ensures_finish (ensures_pure ?_)
    exact hbase.node h₁
  case h_5 => exact ensures_unexpected

theorem primary (hg : g.Places edge) : Yields edge g.primary fun e => [e.layout] := by
  refine .of_ordered fun lo c hc => ?_
  refine ensures_peek ensures_throw fun t ts hrest => ?_
  dsimp only
  split
  · refine (ensures_advance hrest).bind ?_
    rintro _ c₁ ⟨rfl, hrest, hlast⟩
    exact ensures_pure ((past_nil hc).leaf hrest hlast)
  · obtain ⟨ht, hc⟩ := starts_head hc hrest
    refine (past_nil hc).advance hrest fun c₁ h₁ => ?_
    refine (hg.expr 0).bind h₁.past fun e c₂ h₂ => h₂.past.expect fun _ c₃ _ h₃ => ?_
    refine ensures_finish (ensures_pure ?_)
    have hparts : Reached edge t.span.start e.parts c₃ := 
      { h₃ with laid := (laidIn_singleton.1 h₃.laid).parts }
    simpa [Expr.layout] using ht.node hparts
  · exact ensures_throw

/-- A suffix of what was read before. -/
theorem suffix? (hg : g.Places edge) {base : Expr} (hc : Reached edge lo [base.layout] c) :
    Ensures (g.suffix? base) c fun o c' => Reached edge lo [(o.getD base).layout] c' := by
  refine ensures_peekKind ?_
  obtain ⟨hbase, hc'⟩ := hc.rebase
  split
  · refine hc'.advance fun _ c₁ h₁ => yields_name.bind h₁.past fun n c₂ h₂ => ?_
    refine ensures_finish (ensures_pure ?_)
    exact hbase.node h₂
  · refine hc'.advance fun _ c₁ h₁ => (hg.expr 0).bind h₁.past fun i c₂ h₂ => ?_
    refine h₂.past.expect fun _ c₃ _ h₃ => ensures_finish (ensures_pure ?_)
    exact hbase.node h₃
  · refine hc'.advance fun _ c₁ h₁ => yields_name.bind h₁.past fun n c₂ h₂ => ?_
    refine ensures_finish ?_
    have hmember :
        Reached edge lo [(Expr.member base .colon n (base.span.through c₂.last)).layout] c₂ :=
      hbase.node h₂
    exact (hg.callArgs hmember).bind fun e c₃ h₃ => ensures_pure h₃
  case h_4 | h_5 | h_6 | h_7 => exact (hg.callArgs hc).bind fun e c₃ h₃ => ensures_pure h₃
  case h_8 => exact ensures_pure hc

theorem suffixed (hg : g.Places edge) : Yields edge g.suffixed fun e => [e.layout] := by
  refine .of_ordered fun lo c hc => ?_
  refine hg.primary.bind (past_nil hc) fun e c₁ h₁ => ?_
  exact ensures_iterate (fun e c h => hg.suffix? h) h₁

theorem simple (hg : g.Places edge) : Yields edge g.simple fun e => [e.layout] := by
  refine .of_ordered fun lo c hc => ?_
  refine ensures_peek ensures_throw fun t ts hrest => ensures_ofExcept fun o _ => ?_
  cases o with
  | some value =>
    refine (ensures_advance hrest).bind ?_
    rintro _ c₁ ⟨rfl, hrest, hlast⟩
    exact ensures_pure ((past_nil hc).leaf hrest hlast)
  | none =>
    dsimp only
    split
    · exact hg.table (past_nil hc)
    · obtain ⟨ht, hc⟩ := starts_head hc hrest
      refine (past_nil hc).advance hrest fun c₁ h₁ => ?_
      refine hg.functionBody.bind h₁.past fun f c₂ h₂ => ensures_finish (ensures_pure ?_)
      exact ht.node h₂
    · exact hg.suffixed (past_nil hc)

theorem operand (hg : g.Places edge) : Yields edge g.operand fun e => [e.layout] := by
  refine .of_ordered fun lo c hc => ?_
  refine ensures_peek ensures_throw fun t ts hrest => ?_
  dsimp only
  split
  · refine (ensures_advance hrest).bind ?_
    rintro _ c₁ ⟨rfl, hrest, hlast⟩
    have h₁ := (past_nil hc).leaf hrest hlast
    refine (hg.expr unaryPriority).bind h₁.past fun e c₂ h₂ => ensures_pure ?_
    exact Reached.through h₂ |>.drop
  · exact hg.simple (past_nil hc)

/-- An operator and its right operand behind what was read before. -/
theorem extend? (hg : g.Places edge) {limit : Nat} {lhs : Expr}
    (hc : Reached edge lo [lhs.layout] c) :
    Ensures (g.extend? limit lhs) c fun o c' => Reached edge lo [(o.getD lhs).layout] c' := by
  refine ensures_peekKind ?_
  split
  · exact ensures_pure hc
  next op _ =>
    split
    · exact ensures_pure hc
    · refine hc.advance fun _ c₁ h₁ => ?_
      refine (hg.expr _).bind h₁.past fun rhs c₂ h₂ => ensures_pure ?_
      cases op <;> exact Reached.through h₂

theorem subexpr (hg : g.Places edge) (limit : Nat) :
    Yields edge (g.subexpr limit) fun e => [e.layout] := by
  refine .of_ordered fun lo c hc => ?_
  refine hg.operand.bind (past_nil hc) fun e c₁ h₁ => ?_
  exact ensures_iterate (fun e c h => hg.extend? h) h₁

/-! ### Statements -/

theorem openBlock (hg : g.Places edge) {kind : TokenKind} (hc : Past edge lo xs c) :
    Ensures (g.openBlock kind) c fun b c' => Past edge lo (xs ++ [b.layout]) c' := by
  refine hc.expect fun opening c₁ hopening h₁ => ?_
  rw [← hopening]
  exact hg.block_reached h₁

theorem doEnd (hg : g.Places edge) : Yields edge g.doEnd fun b => [b.layout] := by
  intro lo xs c hc
  refine (hg.openBlock hc).bind fun block c₁ h₁ => ?_
  exact h₁.expect fun _ c₂ _ h₂ => ensures_pure h₂

variable {start : Span}

theorem localStmt (hg : g.Places edge) (hstart : Starts edge lo start)
    (hc : Ordered edge start.start c.rest) :
    Ensures (g.localStmt start) c fun s c' => Reached edge lo [s.layout] c' := by
  refine (past_nil hc).expect fun _ c₁ _ h₁ => h₁.eat fun o c₂ h₂ => ?_
  cases o with
  | some _ =>
    refine yields_name.bind h₂.past fun n c₃ h₃ => ?_
    refine hg.functionBody.bind h₃.past fun f c₄ h₄ => ensures_finish (ensures_pure ?_)
    exact hstart.node h₄
  | none =>
    refine yields_name.commaList.bind h₂.past fun names c₃ h₃ => h₃.eat fun o c₄ h₄ => ?_
    rw [← List.map_eq_flatMap] at h₄
    cases o with
    | some _ =>
      refine hg.exprList.bind h₄.past fun init c₅ h₅ => ensures_finish (ensures_pure ?_)
      exact hstart.node h₅
    | none =>
      show Ensures (finish start >>= fun span => pure (Stmt.localDecl names [] span)) c₄ _
      refine ensures_finish (ensures_pure ?_)
      have h₅ : Reached edge start.start (names.map Name.layout ++ exprLayouts []) c₄ := by
        simpa [exprLayouts] using h₄
      exact hstart.node h₅

theorem functionStmt (hg : g.Places edge) (hstart : Starts edge lo start)
    (hc : Ordered edge start.start c.rest) :
    Ensures (g.functionStmt start) c fun s c' => Reached edge lo [s.layout] c' := by
  refine (past_nil hc).expect fun _ c₁ _ h₁ => ?_
  refine yields_functionName.bind h₁.past fun path c₂ h₂ => ?_
  refine hg.functionBody.bind h₂.past fun f c₃ h₃ => ensures_finish (ensures_pure ?_)
  exact hstart.node h₃

theorem clause? (hg : g.Places edge) (hc : Past edge lo xs c) :
    Ensures g.clause? c fun o c' => Past edge lo (xs ++ o.toList.flatMap Clause.parts) c' := by
  refine hc.eat (ensures_pure (by simpa using hc)) fun _ c₁ _ h₁ => ?_
  refine (hg.expr 0).bind h₁.past fun cond c₂ h₂ => ?_
  refine (hg.openBlock h₂.past).bind fun block c₃ h₃ => ensures_pure ?_
  simpa [Clause.parts, Expr.layout] using h₃

theorem ifStmt (hg : g.Places edge) (hstart : Starts edge lo start)
    (hc : Ordered edge start.start c.rest) :
    Ensures (g.ifStmt start) c fun s c' => Reached edge lo [s.layout] c' := by
  refine (past_nil hc).expect fun _ c₁ _ h₁ => ?_
  refine (hg.expr 0).bind h₁.past fun cond c₂ h₂ => ?_
  refine (hg.openBlock h₂.past).bind fun thenBlock c₃ h₃ => ?_
  have hclauses : Ensures (many g.clause?) c₃ fun cs c' => Past edge start.start
      ([] ++ [cond.layout] ++ [thenBlock.layout] ++ cs.flatMap Clause.parts) c' :=
    ensures_many (fun cs c h => (hg.clause? h).mono fun o c' h' => by simpa using h')
      (by simpa using h₃)
  refine hclauses.bind fun clauses c₄ h₄ => ?_
  rw [← clauseLayouts_eq_flatMap] at h₄
  refine h₄.eat ?_ fun t c₅ ht h₅ => ?_
  · refine h₄.expect fun _ c₅ _ h₅ => ensures_finish (ensures_pure (hstart.node ?_))
    simpa [Stmt.parts, elseLayouts, Expr.layout] using h₅
  · dsimp only
    rw [← ht]
    refine (hg.block_reached h₅).map_bind fun elseBlock c₆ h₆ => ?_
    refine h₆.expect fun _ c₇ _ h₇ => ensures_finish (ensures_pure ?_)
    exact hstart.node h₇

theorem whileStmt (hg : g.Places edge) (hstart : Starts edge lo start)
    (hc : Ordered edge start.start c.rest) :
    Ensures (g.whileStmt start) c fun s c' => Reached edge lo [s.layout] c' := by
  refine (past_nil hc).expect fun _ c₁ _ h₁ => ?_
  refine (hg.expr 0).bind h₁.past fun cond c₂ h₂ => ?_
  refine hg.doEnd.bind h₂.past fun block c₃ h₃ => ensures_finish (ensures_pure ?_)
  exact hstart.node h₃

theorem forStmt (hg : g.Places edge) (hstart : Starts edge lo start)
    (hc : Ordered edge start.start c.rest) :
    Ensures (g.forStmt start) c fun s c' => Reached edge lo [s.layout] c' := by
  refine (past_nil hc).expect fun _ c₁ _ h₁ => ?_
  refine yields_name.bind h₁.past fun first c₂ h₂ => h₂.eat fun o c₃ h₃ => ?_
  cases o with
  | some _ =>
    refine (hg.expr 0).bind h₃.past fun lower c₄ h₄ => h₄.past.expect fun _ c₅ _ h₅ => ?_
    refine (hg.expr 0).bind h₅.past fun upper c₆ h₆ => h₆.eat fun o c₇ h₇ => ?_
    cases o with
    | some _ =>
      refine (hg.expr 0 h₇.past).map_bind fun step c₈ h₈ => ?_
      refine hg.doEnd.bind h₈.past fun block c₉ h₉ => ensures_finish (ensures_pure ?_)
      exact hstart.node h₉
    | none =>
      refine hg.doEnd.bind h₇.past fun block c₈ h₈ => ensures_finish (ensures_pure ?_)
      exact hstart.node h₈
  | none =>
    refine (yields_name.many_behindComma h₃).bind fun others c₄ h₄ => ?_
    refine h₄.past.expect fun _ c₅ _ h₅ => hg.exprList.bind h₅.past fun iterators c₆ h₆ => ?_
    refine hg.doEnd.bind h₆.past fun block c₇ h₇ => ensures_finish (ensures_pure ?_)
    rw [← List.map_eq_flatMap] at h₇
    exact hstart.node h₇

theorem repeatStmt (hg : g.Places edge) (hstart : Starts edge lo start)
    (hc : Ordered edge start.start c.rest) :
    Ensures (g.repeatStmt start) c fun s c' => Reached edge lo [s.layout] c' := by
  refine (hg.openBlock (past_nil hc)).bind fun block c₁ h₁ => h₁.expect fun _ c₂ _ h₂ => ?_
  refine (hg.expr 0).bind h₂.past fun cond c₃ h₃ => ensures_finish (ensures_pure ?_)
  exact hstart.node h₃

theorem exprStmt (hg : g.Places edge) (hstart : Starts edge lo start)
    (hc : Ordered edge start.start c.rest) :
    Ensures (g.exprStmt start) c fun s c' => Reached edge lo [s.layout] c' := by
  refine hg.suffixed.bind (past_nil hc) fun first c₁ h₁ => ?_
  refine ensures_check fun _ _ => ensures_check fun _ _ => ?_
  split
  · refine (hg.suffixed.many_behindComma h₁).bind fun others c₂ h₂ => ?_
    split
    · exact ensures_throw
    · refine h₂.past.expect fun _ c₃ _ h₃ => hg.exprList.bind h₃.past fun init c₄ h₄ => ?_
      refine ensures_finish (ensures_pure ?_)
      rw [← List.map_eq_flatMap, ← exprLayouts_eq_map] at h₄
      exact hstart.node h₄
  · split
    · exact ensures_finish (ensures_pure (hstart.node h₁))
    · exact ensures_throw

theorem stmt (hg : g.Places edge) : Yields edge g.stmt fun s => [s.layout] := by
  refine .of_ordered fun lo c hc => ?_
  refine ensures_peek ensures_throw fun t ts hrest => ?_
  obtain ⟨ht, hc⟩ := starts_head hc hrest
  dsimp only
  split
  · exact hg.localStmt ht hc
  · exact hg.functionStmt ht hc
  · exact hg.ifStmt ht hc
  · exact hg.whileStmt ht hc
  · exact hg.forStmt ht hc
  · exact hg.repeatStmt ht hc
  · refine hg.doEnd.bind (past_nil hc) fun block c₁ h₁ => ensures_finish (ensures_pure ?_)
    exact ht.node h₁
  · refine (past_nil hc).advance hrest fun c₁ h₁ => ensures_finish (ensures_pure ?_)
    exact ht.node h₁
  · refine (past_nil hc).advance hrest fun c₁ h₁ => yields_name.bind h₁.past fun n c₂ h₂ => ?_
    exact ensures_finish (ensures_pure (ht.node (h₂.bare)))
  · refine (past_nil hc).advance hrest fun c₁ h₁ => yields_name.bind h₁.past fun n c₂ h₂ => ?_
    refine h₂.past.expect fun _ c₃ _ h₃ => ensures_finish (ensures_pure ?_)
    exact ht.node h₃.bare
  case h_11 | h_12 => exact hg.exprStmt ht hc
  case h_13 => exact ensures_throw

theorem returnStmt (hg : g.Places edge) : Yields edge g.returnStmt fun s => [s.layout] := by
  refine .of_ordered fun lo c hc => ?_
  refine ensures_expect.bind fun t c₁ ⟨hrest, hlast, _⟩ => ?_
  obtain ⟨ht, hc⟩ := starts_head hc hrest
  have h₁ := (past_nil hc).token hrest hlast
  refine ensures_peekKind ?_
  split
  · show Ensures (finish t.span >>= fun span => pure (Stmt.returnStmt [] span)) c₁ _
    exact ensures_finish (ensures_pure (ht.node h₁))
  · refine hg.exprList.bind h₁.past fun values c₂ h₂ => ensures_finish (ensures_pure ?_)
    exact ht.node h₂

theorem stmt? (hg : g.Places edge) (hc : Past edge lo xs c) :
    Ensures g.stmt? c fun o c' => Past edge lo (xs ++ o.toList.map Stmt.layout) c' := by
  refine ensures_skip ?_
  replace hc : Past edge lo xs (skip.go .semicolon c.last c.rest) := past_skip hc
  refine ensures_peek (ensures_pure ?_) fun t ts hrest => ?_
  · simpa using hc
  dsimp only
  split
  · exact ensures_pure (by simpa using hc)
  · split
    · refine hg.returnStmt.bind hc fun s c₁ h₁ => h₁.eat fun _ c₂ h₂ => ?_
      refine ensures_peek (ensures_pure h₂.past) fun next _ _ => ?_
      dsimp only
      split
      · exact ensures_pure h₂.past
      · exact ensures_throw
    · exact hg.stmt.bind hc fun s c₁ h₁ => ensures_pure h₁.past

theorem statements (hg : g.Places edge) {start : Nat} (hc : Ordered edge start c.rest) :
    Ensures (g.statements start) c fun b c' => Past edge start [b.layout] c' := by
  have hstmts : Ensures (many g.stmt?) c fun ss c' =>
      Past edge start (ss.map Stmt.layout) c' :=
    ensures_many (fun ss c h => (hg.stmt? h).mono fun o c' h' => by simpa using h') (past_nil hc)
  refine hstmts.bind fun ss c' h => ensures_pure ?_
  obtain ⟨hi, hss, hc'⟩ := h
  rw [← stmtLayouts_eq_map] at hss
  exact ⟨hi, laidIn_singleton.2 (laid_block.2 ⟨le_rfl, hss⟩), hc'⟩

end Grammar.Places

/-- The readers of all levels lay out what they read in order. -/
theorem places_grammar (n : Nat) : (grammar n).Places edge := by
  induction n with
  | zero =>
    refine ⟨fun _ _ _ _ _ => ensures_throw, fun start c hc => ensures_pure ?_⟩
    exact ⟨start, laidIn_singleton.2 (laid_block.2 ⟨le_rfl, laidIn_nil.2 le_rfl⟩), hc⟩
  | succ n ih => exact ⟨ih.subexpr, fun start c hc => ih.statements hc⟩

theorem laid_body (hc : Ordered edge 0 c.rest) :
    Ensures body c fun b _ => ∃ hi, Laid edge 0 hi b.layout := by
  have hblock : Ensures (block 0) c fun b c' => Past edge 0 [b.layout] c' := by
    intro b c' hb
    unfold block at hb
    exact (places_grammar (c.rest.length + 1)).block 0 c hc b c' hb
  refine hblock.bind fun b c₁ ⟨hi, hb, _⟩ => ?_
  refine ensures_peek ?_ fun t ts _ => ?_
  · exact ensures_pure ⟨hi, laidIn_singleton.1 hb⟩
  · exact ensures_unexpected.bind fun _ _ (h : False) => h.elim

/-- **What is read from a text is laid out in order, clear of its comments**, which are in order
too. -/
theorem laid_of_parse {s : String} {chunk : Chunk} (h : parse s = .ok chunk) :
    InOrder chunk.comments ∧ ∃ hi, Laid (Clear chunk.comments) 0 hi chunk.body.layout := by
  obtain ⟨c, c', hstart, hbody⟩ := exists_of_parse h
  obtain ⟨hcomments, hc⟩ := start_ordered hstart
  exact ⟨hcomments, laid_body hc _ c' hbody⟩

end LuaTranspiler.Source
