import LuaTranspiler.Proofs.Doc.Association
import LuaTranspiler.Proofs.Source.Matching
import LuaTranspiler.Proofs.Token.Lossless

/-!
# Targets and calls in parentheses

Parentheses leave no node in a tree: an expression in parentheses is the expression itself, with the
span that they take up. So what is assigned to, or called as a statement, may be written in
parentheses, and its span is all that shows it. A name is then longer than its text, and any other
target or call starts before the expression that it goes on from.

* `InParentheses ts a`: a span from an opening parenthesis to the one that matches it
* `Expr.isWidened`: what the span of a target or a call shows
* `Expr.ReadFrom ts us e`: the tokens that an expression with its suffixes is read from
* `Grammar.Shows`: the readers of a grammar show where targets and calls are in parentheses
* `shown_of_parse`: so does the reader of a whole source
-/

namespace LuaTranspiler.Source

open LuaTranspiler.Parser

/-- The span `a` is that of tokens among `ts` from an opening parenthesis to the closing one that
matches it. -/
def InParentheses (ts : List Token) (a : Span) : Prop :=
  ∃ before us behind, ts = before ++ (us ++ behind) ∧ Enclosed us ∧
    Span.cover (us.map Token.span) = some a

/-- Whether a target or a call is wider than what it consists of. -/
def Expr.isWidened : Expr → Bool
  | .ident name span => span.start + name.utf8ByteSize ≠ span.stop
  | .member base _ _ span | .index base _ span | .call base _ span | .stringCall base _ span
  | .tableCall base _ span => span.start ≠ base.span.start
  | _ => false

/-- The span of a target or a call shows whether it is written in parentheses. -/
def Expr.Shown (ts : List Token) (e : Expr) : Prop :=
  InParentheses ts e.span ↔ e.isWidened = true

/-- What a statement assigns to, or what it calls. -/
def Stmt.heads : Stmt → List Expr
  | .assign targets _ _ => targets
  | .call e _ => [e]
  | _ => []

/-- The targets of a statement can be assigned to, and what it calls is a call. Both are shown. -/
def Stmt.Shown (ts : List Token) : Stmt → Prop
  | .assign targets _ _ => ∀ e ∈ targets, e.isAssignable = true ∧ e.Shown ts
  | .call e _ => e.isCall = true ∧ e.Shown ts
  | _ => True

/-- The targets and calls of the statements of a block are shown. -/
def Block.Shown (ts : List Token) (b : Block) : Prop := ∀ s ∈ b.stmts, s.Shown ts

/-! ### Spans that widen -/

namespace Expr

/-- If the expression is a name, its span has room for the text. -/
def HasRoom : Expr → Prop
  | .ident name span => span.start + name.utf8ByteSize ≤ span.stop
  | _ => True

variable {e : Expr} {a : Span}

theorem HasRoom.withSpan (h : e.HasRoom) (hstart : a.start ≤ e.span.start)
    (hstop : e.span.stop ≤ a.stop) : (e.withSpan a).HasRoom := by
  cases e with
  | ident name span =>
    simp only [HasRoom, Expr.withSpan, Expr.span] at h hstart hstop ⊢
    omega
  | _ => trivial

@[simp] theorem blocks_withSpan (a : Span) (e : Expr) : (e.withSpan a).blocks = e.blocks := by
  cases e <;> simp only [Expr.withSpan, Expr.blocks]

@[simp] theorem isAssignable_withSpan (a : Span) (e : Expr) :
    (e.withSpan a).isAssignable = e.isAssignable := by
  cases e <;> rfl

@[simp] theorem isCall_withSpan (a : Span) (e : Expr) : (e.withSpan a).isCall = e.isCall := by
  cases e <;> rfl

/-- An expression that is given a wider span is widened. -/
theorem isWidened_withSpan {edge : Point → Prop} (hhead : e.isAssignable = true ∨ e.isCall = true)
    (hroom : e.HasRoom) (hparts : LaidIn edge e.span.start e.span.stop e.parts)
    (hstart : a.start < e.span.start) (hstop : e.span.stop < a.stop) :
    (e.withSpan a).isWidened = true := by
  cases e with
  | ident name span =>
    simp only [HasRoom, Expr.span] at hroom hstart hstop
    simp only [Expr.withSpan, isWidened, decide_eq_true_eq]
    omega
  | member base | index base | call base | stringCall base | tableCall base =>
    simp only [Expr.parts, laidIn_cons, laid_node] at hparts
    obtain ⟨mid, ⟨hfits, -⟩, -⟩ := hparts
    simpa [Expr.withSpan, isWidened] using (hstart.trans_le hfits.lower).ne
  | _ => simp [isAssignable, isCall] at hhead

end Expr

/-! ### What is read -/

/-- The tokens of a text: in order, and as long as what they say. -/
structure Measured (ts : List Token) : Prop where
  ordered : Ordered (fun _ => True) 0 ts
  sized : ∀ t ∈ ts, t.span.start + t.literal.utf8ByteSize = t.span.stop

theorem measured_of_start {s : String} {c : Cursor} {comments : List Comment}
    (h : start s = .ok (c, comments)) : Measured c.rest := by
  obtain ⟨ts, hts, hrest, -⟩ := exists_of_start h
  have hordered : Ordered (fun _ => True) 0 ts := tokensFrom_ordered (fun _ _ _ => trivial) hts
  rw [hrest]
  refine ⟨hordered.filter _, fun t ht => ?_⟩
  obtain ⟨before, behind, -, hspan⟩ := exists_of_mem_tokensFrom hts (List.mem_filter.1 ht).1
  rw [Point.after_origin, Point.after_origin] at hspan
  rw [hspan]
  show (String.ofList before).utf8ByteSize + _ = (String.ofList (before ++ _)).utf8ByteSize
  rw [utf8ByteSize_append, String.ofList_toList]

/-- What is known of every expression that is read. -/
structure Expr.Known (ts : List Token) (e : Expr) : Prop where
  room : e.HasRoom
  blocks : ∀ b ∈ e.blocks, b.Shown ts

/-- What is known of every statement that is read. -/
structure Stmt.Known (ts : List Token) (s : Stmt) : Prop where
  shown : s.Shown ts
  blocks : ∀ b ∈ s.blocks, b.Shown ts

/-- The expression `e` is read from the tokens `us`, with all its suffixes. -/
structure Expr.ReadFrom (ts us : List Token) (e : Expr) : Prop where
  known : e.Known ts
  cover : Span.cover (us.map Token.span) = some e.span
  enclosed : e.isAssignable = true ∨ e.isCall = true → (Enclosed us ↔ e.isWidened = true)

/-- The expression `e` goes on from `base` with one suffix, which is read from `c` to `c'`. -/
structure Expr.GoesOn (ts : List Token) (base e : Expr) (c c' : Cursor) : Prop where
  known : e.Known ts
  took : ∃ us, us ≠ [] ∧ Took us c c'
  span : e.span = base.span.through c'.last
  narrow : e.isWidened = false

section Lists

variable {ts : List Token}

theorem shown_exprBlocks {es : List Expr} :
    (∀ b ∈ exprBlocks es, b.Shown ts) ↔ ∀ e ∈ es, ∀ b ∈ e.blocks, b.Shown ts := by
  induction es with
  | nil => simp [exprBlocks]
  | cons e es ih => rw [exprBlocks, List.forall_mem_append, List.forall_mem_cons, ih]

theorem shown_fieldBlocks {fs : List Field} :
    (∀ b ∈ fieldBlocks fs, b.Shown ts) ↔ ∀ f ∈ fs, ∀ b ∈ f.blocks, b.Shown ts := by
  induction fs with
  | nil => simp [fieldBlocks]
  | cons f fs ih => rw [fieldBlocks, List.forall_mem_append, List.forall_mem_cons, ih]

theorem shown_clauseBlocks {cs : List Clause} :
    (∀ b ∈ clauseBlocks cs, b.Shown ts) ↔ ∀ c ∈ cs, ∀ b ∈ c.blocks, b.Shown ts := by
  induction cs with
  | nil => simp [clauseBlocks]
  | cons c cs ih => rw [clauseBlocks, List.forall_mem_append, List.forall_mem_cons, ih]

theorem shown_stmtBlocks {ss : List Stmt} :
    (∀ b ∈ stmtBlocks ss, b.Shown ts) ↔ ∀ s ∈ ss, ∀ b ∈ s.blocks, b.Shown ts := by
  induction ss with
  | nil => simp [stmtBlocks]
  | cons s ss ih => rw [stmtBlocks, List.forall_mem_append, List.forall_mem_cons, ih]

end Lists

/-! ### Expressions -/

/-- The readers of a grammar place what they read, and show where it is in parentheses. -/
structure Grammar.Shows (ts : List Token) (g : Grammar) : Prop where
  places : g.Places fun _ => True
  expr : ∀ limit, Follows ts (g.expr limit) (Expr.Known ts)
  block : ∀ start, Follows ts (g.block start) fun b => ∀ b' ∈ b.blocks, b'.Shown ts

namespace Grammar.Shows

variable {ts : List Token} {g : Grammar} {c c' : Cursor} {base e : Expr}

theorem exprList (hg : g.Shows ts) : Follows ts g.exprList fun es => ∀ e ∈ es, e.Known ts :=
  (hg.expr 0).commaList

theorem functionBody (hg : g.Shows ts) :
    Follows ts g.functionBody fun f => ∀ b ∈ f.blocks, b.Shown ts := by
  intro c hc
  refine ensures_expect.bind ?_
  rintro opening c₁ ⟨hrest, -, hopening⟩
  refine ensures_enclosed hopening hrest hc follows_params ?_
  intro params us closing c₂ _ htook
  have hbody : Follows ts (do
      let body ← g.block closing.span.stop
      let _ ← expect .kwEnd
      return Function.mk params body) fun f => ∀ b ∈ f.blocks, b.Shown ts :=
    (hg.block _).bind fun body hbody => (follows_expect rfl).bind fun _ _ => .pure hbody
  exact hbody.behind hc htook

theorem field (hg : g.Shows ts) : Follows ts g.field fun f => ∀ b ∈ f.blocks, b.Shown ts := by
  refine follows_peekNth.bind fun next _ => follows_peek .throw fun t us c hrest hc => ?_
  dsimp only
  split
  next hkind =>
    refine taking_advance hrest (by rw [hkind]; rfl) hc ?_
    refine (hg.expr 0).bind fun key hkey => (follows_expect rfl).bind fun _ _ => ?_
    refine (follows_expect rfl).bind fun _ _ => (hg.expr 0).bind fun value hvalue => ?_
    refine follows_finish.bind fun span _ => .pure ?_
    exact List.forall_mem_append.2 ⟨hkey.blocks, hvalue.blocks⟩
  next =>
    split
    · refine Follows.bind follows_name (fun key _ => (follows_expect rfl).bind fun _ _ => ?_) hc
      refine (hg.expr 0).bind fun value hvalue => ?_
      exact follows_finish.bind fun span _ => .pure hvalue.blocks
    · refine Follows.bind (hg.expr 0) (fun value hvalue => ?_) hc
      exact follows_finish.bind fun span _ => .pure hvalue.blocks

theorem field? (hg : g.Shows ts) :
    Follows ts g.field? fun o => ∀ f ∈ o, ∀ b ∈ f.blocks, b.Shown ts := by
  refine follows_check.bind fun closed _ => ?_
  split
  · exact .pure (by simp)
  · refine hg.field.bind fun f hf => (follows_eat rfl).bind fun comma _ => ?_
    have hsome : ∀ f' ∈ some f, ∀ b ∈ f'.blocks, b.Shown ts := by simpa using hf
    dsimp only
    split
    · refine (follows_eat rfl).bind fun semicolon _ => ?_
      split
      · exact follows_require.bind fun _ _ => .pure hsome
      · exact .pure hsome
    · exact .pure hsome

/-- A table is read from one token at least. -/
theorem ensures_table (hg : g.Shows ts) (hc : c.rest <:+ ts) :
    Ensures g.table c fun e c' => e.Known ts ∧ ∃ us, us ≠ [] ∧ Took us c c' := by
  refine ensures_expect.bind ?_
  rintro opening c₁ ⟨hrest, hlast, hkind⟩
  have hopening := took_token hrest hlast (by rw [hkind]; rfl)
  have hfields : Follows ts (do
      let fields ← many g.field?
      let _ ← expect .rightBrace
      return Expr.table fields (← finish opening.span)) (Expr.Known ts) := by
    refine hg.field?.many.bind fun fields hfields => (follows_expect rfl).bind fun _ _ => ?_
    refine follows_finish.bind fun span _ => .pure ⟨trivial, ?_⟩
    exact shown_fieldBlocks.2 hfields
  have hc₁ : c₁.rest <:+ ts := (hrest ▸ List.suffix_cons opening c₁.rest).trans hc
  refine (hfields hc₁).mono ?_
  rintro e c₂ ⟨he, us, hus⟩
  exact ⟨he, [opening] ++ us, by simp, hopening.trans hus⟩

theorem table (hg : g.Shows ts) : Follows ts g.table (Expr.Known ts) := by
  intro c hc
  refine (hg.ensures_table hc).mono ?_
  rintro e c' ⟨he, us, -, hus⟩
  exact ⟨he, us, hus⟩

/-- A call goes on from what is called. -/
theorem callArgs (hg : g.Shows ts) (hbase : ∀ b ∈ base.blocks, b.Shown ts) (hc : c.rest <:+ ts) :
    Ensures (g.callArgs base) c fun e c' => base.GoesOn ts e c c' := by
  refine ensures_peek ensures_throw fun t us hrest => ?_
  dsimp only
  split
  case h_1 hkind =>
    refine (ensures_advance hrest).bind ?_
    rintro _ c₁ ⟨rfl, hrest, -⟩
    have hcall (args : List Expr) (us : List Token) (closing : Token) (c₂ : Cursor)
        (hargs : ∀ e ∈ args, e.Known ts) (htook : Took (t :: (us ++ [closing])) c c₂) :
        base.GoesOn ts (.call base args (base.span.through c₂.last)) c c₂ := by
      refine ⟨⟨trivial, List.forall_mem_append.2 ⟨hbase, ?_⟩⟩, ⟨_, by simp, htook⟩, rfl, ?_⟩
      · exact shown_exprBlocks.2 fun e he => (hargs e he).blocks
      · simp [Expr.isWidened, Span.through]
    refine ensures_check fun closed _ => ?_
    split
    · refine ensures_enclosed hkind hrest hc (.pure (P := (· = [])) rfl) ?_
      rintro _ us closing c₂ rfl htook
      exact ensures_finish (ensures_pure (hcall [] us closing c₂ (by simp) htook))
    · refine ensures_enclosed hkind hrest hc hg.exprList ?_
      rintro args us closing c₂ hargs htook
      exact ensures_finish (ensures_pure (hcall args us closing c₂ hargs htook))
  case h_2 hkind | h_3 hkind =>
    refine ensures_ofExcept fun s _ => (ensures_advance hrest).bind ?_
    rintro _ c₁ ⟨rfl, hrest, hlast⟩
    have htook := took_token hrest hlast (by rw [hkind]; rfl)
    refine ensures_finish (ensures_pure ⟨⟨trivial, ?_⟩, ⟨_, by simp, htook⟩, rfl, ?_⟩)
    · simpa [Expr.blocks] using hbase
    · simp [Expr.isWidened, Span.through]
  case h_4 =>
    refine (hg.ensures_table hc).bind ?_
    rintro argument c₁ ⟨hargument, htook⟩
    refine ensures_finish (ensures_pure ⟨⟨trivial, ?_⟩, htook, rfl, ?_⟩)
    · exact List.forall_mem_append.2 ⟨hbase, hargument.blocks⟩
    · simp [Expr.isWidened, Span.through]
  case h_5 => exact ensures_unexpected

/-- Parentheses are read with what is between them, and widen it. -/
theorem primary (hts : Measured ts) (hg : g.Shows ts) (hc : c.rest <:+ ts) :
    Ensures g.primary c fun e c' => ∃ us, Took us c c' ∧ e.ReadFrom ts us := by
  refine ensures_peek ensures_throw fun t us hrest => ?_
  have hmem : t ∈ ts := hc.subset (by simp [hrest])
  dsimp only
  split
  next hkind =>
    refine (ensures_advance hrest).bind ?_
    rintro _ c₁ ⟨rfl, hrest, hlast⟩
    have hsize := hts.sized t hmem
    refine ensures_pure ⟨[t], took_token hrest hlast (by rw [hkind]; rfl), ⟨hsize.le, ?_⟩, rfl, ?_⟩
    · simp [Expr.blocks]
    · exact fun _ => iff_of_false not_enclosed_singleton (by simp [Expr.isWidened, hsize])
  next hkind =>
    refine (ensures_advance hrest).bind ?_
    rintro _ c₁ ⟨rfl, hrest, -⟩
    have hordered : Ordered (fun _ => True) t.span.stop c₁.rest := by
      obtain ⟨before, rfl⟩ := hc
      have hsuffix := hts.ordered.of_suffix (List.suffix_append before c.rest)
      rw [hrest] at hsuffix
      exact hsuffix.tail
    have hc₁ : c₁.rest <:+ ts := (hrest ▸ List.suffix_cons t c₁.rest).trans hc
    have hexpr : Ensures (g.expr 0) c₁ fun e c₂ =>
        Taking c₁ (Expr.Known ts) e c₂ ∧ Reached (fun _ => True) t.span.stop [e.layout] c₂ :=
      fun e c₂ h => ⟨hg.expr 0 hc₁ e c₂ h, hg.places.expr 0 (past_nil hordered) e c₂ h⟩
    refine hexpr.bind ?_
    rintro e c₂ ⟨⟨he, us, hus⟩, hreached⟩
    refine ensures_expect.bind ?_
    rintro closing c₃ ⟨hrest', hlast, hclosing⟩
    -- what is between the parentheses lies strictly inside them, and its own parts lie in it
    obtain ⟨hfits, hparts⟩ := laid_node.1 (laidIn_singleton.1 hreached.laid)
    have hbehind := (hrest' ▸ hreached.ordered).head
    have hstart : t.span.start < e.span.start :=
      (hts.ordered.fits t hmem).nonempty.trans_le hfits.lower
    have hstop : e.span.stop < closing.span.stop :=
      (hfits.upper.trans hbehind.lower).trans_lt hbehind.nonempty
    refine ensures_finish (ensures_pure ⟨_, .enclose hkind hrest hus hclosing hrest' hlast, ?_⟩)
    rw [hlast]
    refine ⟨⟨he.room.withSpan hstart.le hstop.le, by simpa using he.blocks⟩, ?_, fun hhead => ?_⟩
    · have hfirst : Span.cover ([t].map Token.span) = some t.span := rfl
      rw [Expr.span_withSpan]
      exact cover_append hfirst List.getLast?_concat
    · refine iff_of_true ⟨t, us, closing, rfl, hkind, hus.balanced, hclosing⟩ ?_
      exact Expr.isWidened_withSpan (by simpa using hhead) he.room hparts hstart hstop
  next => exact ensures_throw

/-- A suffix goes on from what is before it. -/
theorem suffix? (hg : g.Shows ts) (hbase : ∀ b ∈ base.blocks, b.Shown ts) (hc : c.rest <:+ ts) :
    Ensures (g.suffix? base) c fun o c' => (o = none ∧ c' = c) ∨
      ∃ e, o = some e ∧ base.GoesOn ts e c c' := by
  refine ensures_peekKind ?_
  have hcall (base' : Expr) (hbase' : ∀ b ∈ base'.blocks, b.Shown ts) (c' : Cursor)
      (hc' : c'.rest <:+ ts) : Ensures (do
        let e ← g.callArgs base'
        return some e) c' fun o c'' => ∃ e, o = some e ∧ base'.GoesOn ts e c' c'' :=
    (hg.callArgs hbase' hc').bind fun e c'' he => ensures_pure ⟨e, rfl, he⟩
  split
  case h_1 hhead =>
    refine ensures_advanceKind hhead rfl fun t c₁ ht => (follows_name (ht.suffix hc)).bind ?_
    rintro n c₂ ⟨-, us, hus⟩
    refine ensures_finish (ensures_pure (.inr ⟨_, rfl, ⟨trivial, hbase⟩, ?_, rfl, ?_⟩))
    · exact ⟨[t] ++ us, by simp, ht.trans hus⟩
    · simp [Expr.isWidened, Span.through]
  case h_2 hhead =>
    refine ensures_advanceKind hhead rfl fun t c₁ ht => (hg.expr 0 (ht.suffix hc)).bind ?_
    rintro i c₂ ⟨hi, us, hus⟩
    refine ensures_expect.bind ?_
    rintro closing c₃ ⟨hrest, hlast, hkind⟩
    have hclosing := took_token hrest hlast (by rw [hkind]; rfl)
    refine ensures_finish (ensures_pure (.inr ⟨_, rfl, ⟨trivial, ?_⟩, ?_, rfl, ?_⟩))
    · exact List.forall_mem_append.2 ⟨hbase, hi.blocks⟩
    · exact ⟨[t] ++ us ++ [closing], by simp, (ht.trans hus).trans hclosing⟩
    · simp [Expr.isWidened, Span.through]
  case h_3 hhead =>
    refine ensures_advanceKind hhead rfl fun t c₁ ht => (follows_name (ht.suffix hc)).bind ?_
    rintro n c₂ ⟨-, us, hus⟩
    have htook := ht.trans hus
    refine ensures_finish ((hcall (.member base .colon n _) hbase c₂ (htook.suffix hc)).mono ?_)
    -- the call goes on from the method, which starts where `base` does
    rintro _ c₃ ⟨e, rfl, hknown, ⟨vs, -, hvs⟩, hspan, hnarrow⟩
    exact .inr ⟨e, rfl, hknown, ⟨[t] ++ us ++ vs, by simp, htook.trans hvs⟩, hspan, hnarrow⟩
  case h_4 | h_5 | h_6 | h_7 => exact (hcall base hbase c hc).mono fun _ _ h => .inr h
  case h_8 => exact ensures_pure (.inl ⟨rfl, rfl⟩)

end Grammar.Shows

namespace Expr.ReadFrom

variable {ts us vs : List Token} {base e : Expr} {c c' c'' : Cursor}

/-- With a suffix behind it, an expression is not in parentheses any more. -/
theorem goesOn (hbase : base.ReadFrom ts us) (hus : Took us c c') (h : base.GoesOn ts e c' c'') :
    ∃ vs, Took vs c c'' ∧ e.ReadFrom ts vs := by
  obtain ⟨vs, hne, hvs⟩ := h.took
  obtain ⟨last, hlast⟩ := Option.isSome_iff_exists.1 (List.getLast?_isSome.2 hne)
  refine ⟨us ++ vs, hus.trans hvs, h.known, ?_, fun _ => ?_⟩
  · have hspan : e.span = base.span.through last.span := by
      rw [h.span, hvs.last, hlast]
      rfl
    rw [hspan]
    exact cover_append hbase.cover hlast
  · have hus' : us ≠ [] := by
      rintro rfl
      cases hbase.cover
    refine iff_of_false (not_enclosed_append hus.balanced hus' hne) ?_
    simp [h.narrow]

/-- An expression is in parentheses if the tokens are that it is read from. -/
theorem inParentheses_iff (hts : Measured ts) (h : e.ReadFrom ts us) (hus : Took us c c')
    (hc : c.rest <:+ ts) : InParentheses ts e.span ↔ Enclosed us := by
  obtain ⟨before, hbefore⟩ := hc
  have hsplit : ts = before ++ (us ++ c'.rest) := by rw [← hus.rest, hbefore]
  constructor
  · rintro ⟨before', us', behind, hsplit', henclosed, hcover⟩
    rwa [tokens_eq_of_cover hts.ordered hsplit hsplit' h.cover hcover]
  · exact fun henclosed => ⟨before, us, c'.rest, hsplit, henclosed, h.cover⟩

end Expr.ReadFrom

namespace Grammar.Shows

variable {ts : List Token} {g : Grammar} {c : Cursor}

theorem suffixed (hts : Measured ts) (hg : g.Shows ts) :
    Follows ts g.suffixed fun e => e.Known ts ∧
      (e.isAssignable = true ∨ e.isCall = true → e.Shown ts) := by
  intro c hc
  have hstep : ∀ e c', (∃ us, Took us c c' ∧ e.ReadFrom ts us) →
      Ensures (g.suffix? e) c' fun o c'' => ∃ us, Took us c c'' ∧ (o.getD e).ReadFrom ts us := by
    rintro e c' ⟨us, hus, he⟩
    refine (hg.suffix? he.known.blocks (hus.suffix hc)).mono ?_
    rintro _ c'' (⟨rfl, rfl⟩ | ⟨e', rfl, he'⟩)
    · exact ⟨us, hus, he⟩
    · exact he.goesOn hus he'
  refine ((hg.primary hts hc).bind fun e c₁ he => ensures_iterate hstep he).mono ?_
  rintro e c' ⟨us, hus, he⟩
  refine ⟨⟨he.known, fun hhead => ?_⟩, us, hus⟩
  rw [Expr.Shown, he.inParentheses_iff hts hus hc, he.enclosed hhead]

theorem simple (hts : Measured ts) (hg : g.Shows ts) : Follows ts g.simple (Expr.Known ts) := by
  refine follows_peek .throw fun t us c hrest hc => ensures_ofExcept fun o ho => ?_
  cases o with
  | some value =>
    refine taking_advance hrest ?_ hc (.pure ⟨trivial, by simp [Expr.blocks]⟩)
    refine not_isParen (fun hkind => ?_) fun hkind => ?_ <;> simp [literal?, hkind] at ho
  | none =>
    dsimp only
    split
    · exact hg.table hc
    next hkind =>
      refine taking_advance hrest (by rw [hkind]; rfl) hc ?_
      exact hg.functionBody.bind fun f hf => follows_finish.bind fun span _ => .pure ⟨trivial, hf⟩
    · exact ((hg.suffixed hts).mono fun e he => he.1) hc

theorem operand (hts : Measured ts) (hg : g.Shows ts) : Follows ts g.operand (Expr.Known ts) := by
  refine follows_peek .throw fun t us c hrest hc => ?_
  dsimp only
  split
  next op hop =>
    refine taking_advance hrest ?_ hc ((hg.expr _).bind fun e he => .pure ⟨trivial, he.blocks⟩)
    refine not_isParen (fun hkind => ?_) fun hkind => ?_ <;> simp [unaryOp?, hkind] at hop
  next => exact hg.simple hts hc

theorem extend? (hg : g.Shows ts) {limit : Nat} {lhs : Expr} (hlhs : lhs.Known ts) :
    Follows ts (g.extend? limit lhs) fun o => ∀ e ∈ o, e.Known ts := by
  intro c hc
  refine ensures_peekKind ?_
  split
  · exact Follows.pure (by simp) hc
  next op hop =>
    split
    · exact Follows.pure (by simp) hc
    · obtain ⟨kind, hhead, hop⟩ := Option.bind_eq_some_iff.1 hop
      have hkind : isParen kind = false := by
        refine not_isParen ?_ ?_ <;> rintro rfl <;> cases hop
      refine ensures_advanceKind hhead hkind fun t c₁ ht => Follows.behind ?_ hc ht
      refine (hg.expr _).bind fun rhs hrhs => .pure ?_
      have hshown := List.forall_mem_append.2 ⟨hlhs.blocks, hrhs.blocks⟩
      cases op <;> simpa [InfixOp.apply] using ⟨trivial, hshown⟩

theorem subexpr (hts : Measured ts) (hg : g.Shows ts) (limit : Nat) :
    Follows ts (g.subexpr limit) (Expr.Known ts) :=
  (hg.operand hts).bind fun _ he => .iterate (fun _ h => hg.extend? h) he

/-! ### Statements -/

theorem openBlock (hg : g.Shows ts) {kind : TokenKind} (hkind : isParen kind = false) :
    Follows ts (g.openBlock kind) fun b => ∀ b' ∈ b.blocks, b'.Shown ts :=
  (follows_expect hkind).bind fun _ _ => hg.block _

theorem doEnd (hg : g.Shows ts) : Follows ts g.doEnd fun b => ∀ b' ∈ b.blocks, b'.Shown ts :=
  (hg.openBlock rfl).bind fun _ hb => (follows_expect rfl).bind fun _ _ => .pure hb

theorem functionName : Follows ts functionName fun e => e.blocks = [] := by
  have hstep : ∀ e : Expr, e.blocks = [] →
      Follows ts (dotStep? e) fun o => ∀ e' ∈ o, e'.blocks = [] := by
    intro e he
    refine (follows_eat rfl).bind fun o _ => ?_
    cases o with
    | none => exact .pure (by simp)
    | some _ =>
      refine follows_name.bind fun n _ => follows_finish.bind fun span _ => .pure ?_
      simpa [Expr.blocks] using he
  refine follows_name.bind fun first _ => ?_
  refine (Follows.iterate hstep (by simp [Expr.blocks])).bind fun path hpath => ?_
  refine (follows_eat rfl).bind fun o _ => ?_
  cases o with
  | none => exact .pure hpath
  | some _ =>
    refine follows_name.bind fun n _ => follows_finish.bind fun span _ => .pure ?_
    simpa [Expr.blocks] using hpath

variable {start : Span}

theorem localStmt (hg : g.Shows ts) : Follows ts (g.localStmt start) (Stmt.Known ts) := by
  refine (follows_expect rfl).bind fun _ _ => (follows_eat rfl).bind fun o _ => ?_
  cases o with
  | some _ =>
    refine follows_name.bind fun n _ => hg.functionBody.bind fun f hf => ?_
    refine follows_finish.bind fun span _ => .pure ⟨trivial, ?_⟩
    simpa [Stmt.blocks, Expr.blocks] using hf
  | none =>
    have hnames : Follows ts (commaList name) fun ns => ∀ n ∈ ns, True := follows_name.commaList
    refine hnames.bind fun names _ => (follows_eat rfl).bind fun o _ => ?_
    cases o with
    | some _ =>
      refine hg.exprList.bind fun init hinit => follows_finish.bind fun span _ => .pure ?_
      exact ⟨trivial, shown_exprBlocks.2 fun e he => (hinit e he).blocks⟩
    | none =>
      refine Follows.bind (.pure (P := (· = [])) rfl) ?_
      rintro _ rfl
      refine follows_finish.bind fun span _ => .pure ⟨trivial, ?_⟩
      simp [Stmt.blocks, exprBlocks]

theorem functionStmt (hg : g.Shows ts) : Follows ts (g.functionStmt start) (Stmt.Known ts) := by
  refine (follows_expect rfl).bind fun _ _ => functionName.bind fun path hpath => ?_
  refine hg.functionBody.bind fun f hf => follows_finish.bind fun span _ => .pure ?_
  exact ⟨trivial, by simpa [Stmt.blocks, hpath] using hf⟩

theorem clause? (hg : g.Shows ts) :
    Follows ts g.clause? fun o => ∀ cl ∈ o, ∀ b ∈ cl.blocks, b.Shown ts := by
  refine (follows_eat rfl).bind fun o _ => ?_
  cases o with
  | none => exact .pure (by simp)
  | some _ =>
    refine (hg.expr 0).bind fun cond hcond => (hg.openBlock rfl).bind fun block hblock => .pure ?_
    rintro _ ⟨⟩
    exact List.forall_mem_append.2 ⟨hcond.blocks, hblock⟩

theorem ifStmt (hg : g.Shows ts) : Follows ts (g.ifStmt start) (Stmt.Known ts) := by
  refine (follows_expect rfl).bind fun _ _ => (hg.expr 0).bind fun cond hcond => ?_
  refine (hg.openBlock rfl).bind fun thenBlock hthen => hg.clause?.many.bind fun clauses hcs => ?_
  have hknown (elseBlock : Option Block) (helse : ∀ b ∈ elseBlocks elseBlock, b.Shown ts)
      (span : Span) : (Stmt.ifStmt cond thenBlock clauses elseBlock span).Known ts := by
    refine ⟨trivial, ?_⟩
    simp only [Stmt.blocks, List.forall_mem_append]
    exact ⟨hcond.blocks, hthen, shown_clauseBlocks.2 hcs, helse⟩
  refine (follows_eat rfl).bind fun o _ => ?_
  cases o with
  | some t =>
    refine (hg.block _).map_bind fun elseBlock helse => (follows_expect rfl).bind fun _ _ => ?_
    exact follows_finish.bind fun span _ => .pure (hknown (some elseBlock) helse span)
  | none =>
    refine Follows.bind (.pure (P := (· = none)) rfl) ?_
    rintro _ rfl
    refine (follows_expect rfl).bind fun _ _ => follows_finish.bind fun span _ => .pure ?_
    exact hknown none (by simp [elseBlocks]) span

theorem whileStmt (hg : g.Shows ts) : Follows ts (g.whileStmt start) (Stmt.Known ts) := by
  refine (follows_expect rfl).bind fun _ _ => (hg.expr 0).bind fun cond hcond => ?_
  refine hg.doEnd.bind fun block hblock => follows_finish.bind fun span _ => .pure ?_
  exact ⟨trivial, List.forall_mem_append.2 ⟨hcond.blocks, hblock⟩⟩

theorem forStmt (hg : g.Shows ts) : Follows ts (g.forStmt start) (Stmt.Known ts) := by
  refine (follows_expect rfl).bind fun _ _ => follows_name.bind fun first _ => ?_
  refine (follows_eat rfl).bind fun o _ => ?_
  cases o with
  | some _ =>
    refine (hg.expr 0).bind fun lower hlower => (follows_expect rfl).bind fun _ _ => ?_
    refine (hg.expr 0).bind fun upper hupper => (follows_eat rfl).bind fun o _ => ?_
    have hknown (step : Option Expr) (hstep : ∀ b ∈ stepBlocks step, b.Shown ts) (block : Block)
        (hblock : ∀ b ∈ block.blocks, b.Shown ts) (span : Span) :
        (Stmt.forNumeric first lower upper step block span).Known ts := by
      refine ⟨trivial, ?_⟩
      simp only [Stmt.blocks, List.forall_mem_append]
      exact ⟨hlower.blocks, hupper.blocks, hstep, hblock⟩
    cases o with
    | some _ =>
      refine (hg.expr 0).map_bind fun step hstep => hg.doEnd.bind fun block hblock => ?_
      refine follows_finish.bind fun span _ => .pure ?_
      exact hknown (some step) hstep.blocks block hblock span
    | none =>
      refine Follows.bind (.pure (P := (· = none)) rfl) ?_
      rintro _ rfl
      refine hg.doEnd.bind fun block hblock => follows_finish.bind fun span _ => .pure ?_
      exact hknown none (by simp [stepBlocks]) block hblock span
  | none =>
    have hnames : Follows ts (many (behindComma name)) fun ns => ∀ n ∈ ns, True :=
      follows_name.behindComma.many
    refine hnames.bind fun others _ => (follows_expect rfl).bind fun _ _ => ?_
    refine hg.exprList.bind fun iterators hiterators => hg.doEnd.bind fun block hblock => ?_
    refine follows_finish.bind fun span _ => .pure ⟨trivial, ?_⟩
    refine List.forall_mem_append.2 ⟨shown_exprBlocks.2 fun e he => ?_, hblock⟩
    exact (hiterators e he).blocks

theorem repeatStmt (hg : g.Shows ts) : Follows ts (g.repeatStmt start) (Stmt.Known ts) := by
  refine (hg.openBlock rfl).bind fun block hblock => (follows_expect rfl).bind fun _ _ => ?_
  refine (hg.expr 0).bind fun cond hcond => follows_finish.bind fun span _ => .pure ?_
  exact ⟨trivial, List.forall_mem_append.2 ⟨hblock, hcond.blocks⟩⟩

/-- Targets and calls are judged by their shapes alone, whether they are in parentheses or not. -/
theorem exprStmt (hts : Measured ts) (hg : g.Shows ts) :
    Follows ts (g.exprStmt start) (Stmt.Known ts) := by
  refine (hg.suffixed hts).bind fun first hfirst => follows_check.bind fun _ _ => ?_
  refine follows_check.bind fun _ _ => ?_
  split
  · refine (hg.suffixed hts).behindComma.many.bind fun others hothers => ?_
    split
    · exact .throw
    next hfind =>
      have htargets : ∀ e ∈ first :: others, e.Known ts ∧
          (e.isAssignable = true ∨ e.isCall = true → e.Shown ts) :=
        List.forall_mem_cons.2 ⟨hfirst, hothers⟩
      have hassignable : ∀ e ∈ first :: others, e.isAssignable = true := by
        simpa using List.find?_eq_none.1 hfind
      refine (follows_expect rfl).bind fun _ _ => hg.exprList.bind fun init hinit => ?_
      refine follows_finish.bind fun span _ => .pure ⟨fun e he => ⟨hassignable e he, ?_⟩, ?_⟩
      · exact (htargets e he).2 (.inl (hassignable e he))
      · exact List.forall_mem_append.2 ⟨shown_exprBlocks.2 fun e he => (htargets e he).1.blocks,
          shown_exprBlocks.2 fun e he => (hinit e he).blocks⟩
  · split
    next hcall =>
      refine follows_finish.bind fun span _ => .pure ⟨⟨hcall, ?_⟩, hfirst.1.blocks⟩
      exact hfirst.2 (.inr hcall)
    next => exact .throw

theorem stmt (hts : Measured ts) (hg : g.Shows ts) : Follows ts g.stmt (Stmt.Known ts) := by
  refine follows_peek .throw fun t us c hrest hc => ?_
  have hnone : ∀ b ∈ ([] : List Block), b.Shown ts := by simp
  dsimp only
  split
  case h_1 => exact hg.localStmt hc
  case h_2 => exact hg.functionStmt hc
  case h_3 => exact hg.ifStmt hc
  case h_4 => exact hg.whileStmt hc
  case h_5 => exact hg.forStmt hc
  case h_6 => exact hg.repeatStmt hc
  case h_7 =>
    refine Follows.bind hg.doEnd (fun block hblock => ?_) hc
    exact follows_finish.bind fun span _ => .pure ⟨trivial, hblock⟩
  case h_8 hkind =>
    refine taking_advance hrest (by rw [hkind]; rfl) hc ?_
    exact follows_finish.bind fun span _ => .pure ⟨trivial, hnone⟩
  case h_9 hkind =>
    refine taking_advance hrest (by rw [hkind]; rfl) hc (follows_name.bind fun n _ => ?_)
    exact follows_finish.bind fun span _ => .pure ⟨trivial, hnone⟩
  case h_10 hkind =>
    refine taking_advance hrest (by rw [hkind]; rfl) hc (follows_name.bind fun n _ => ?_)
    refine (follows_expect rfl).bind fun _ _ => follows_finish.bind fun span _ => ?_
    exact .pure ⟨trivial, hnone⟩
  case h_11 | h_12 => exact hg.exprStmt hts hc
  case h_13 => exact ensures_throw

theorem returnStmt (hg : g.Shows ts) : Follows ts g.returnStmt (Stmt.Known ts) := by
  refine (follows_expect rfl).bind fun t _ => follows_peekKind.bind fun kind _ => ?_
  have hknown (values : List Expr) (hvalues : ∀ e ∈ values, e.Known ts) (span : Span) :
      (Stmt.returnStmt values span).Known ts :=
    ⟨trivial, shown_exprBlocks.2 fun e he => (hvalues e he).blocks⟩
  split
  · refine Follows.bind (.pure (P := (· = [])) rfl) ?_
    rintro _ rfl
    exact follows_finish.bind fun span _ => .pure (hknown [] (by simp) span)
  · refine hg.exprList.bind fun values hvalues => follows_finish.bind fun span _ => .pure ?_
    exact hknown values hvalues span

theorem stmt? (hts : Measured ts) (hg : g.Shows ts) :
    Follows ts g.stmt? fun o => ∀ s ∈ o, s.Known ts := by
  refine (follows_skip rfl).bind fun _ _ => follows_peek (.pure (by simp)) fun t us c hrest hc => ?_
  dsimp only
  split
  · exact Follows.pure (by simp) hc
  split
  · refine Follows.bind hg.returnStmt (fun s hs => (follows_eat rfl).bind fun _ _ => ?_) hc
    have hsome : ∀ s' ∈ some s, s'.Known ts := by simpa using hs
    refine follows_peek (.pure hsome) fun next _ c' _ hc' => ?_
    dsimp only
    split
    · exact Follows.pure hsome hc'
    · exact ensures_throw
  · exact Follows.bind (hg.stmt hts) (fun s hs => .pure (by simpa using hs)) hc

theorem statements (hts : Measured ts) (hg : g.Shows ts) (start : Nat) :
    Follows ts (g.statements start) fun b => ∀ b' ∈ b.blocks, b'.Shown ts := by
  refine (hg.stmt? hts).many.bind fun ss hss => .pure ?_
  rw [Block.blocks, List.forall_mem_cons, shown_stmtBlocks]
  exact ⟨fun s hs => (hss s hs).shown, fun s hs => (hss s hs).blocks⟩

end Grammar.Shows

theorem shows_grammar {ts : List Token} (hts : Measured ts) (n : Nat) : (grammar n).Shows ts := by
  induction n with
  | zero =>
    refine ⟨places_grammar 0, fun _ => .throw, fun start => .pure ?_⟩
    simp [Block.blocks, stmtBlocks, Block.Shown, Block.stmts]
  | succ n ih => exact ⟨places_grammar (n + 1), ih.subexpr hts, ih.statements hts⟩

theorem shown_body {c : Cursor} (hc : Measured c.rest) :
    Ensures body c fun b _ => ∀ b' ∈ b.blocks, b'.Shown c.rest := by
  have hblock : Ensures (block 0) c fun b _ => ∀ b' ∈ b.blocks, b'.Shown c.rest := by
    intro b c' hb
    unfold block at hb
    exact ((shows_grammar hc (c.rest.length + 1)).block 0 (List.suffix_refl _) b c' hb).1
  refine hblock.bind fun b _ hb => ensures_peek (ensures_pure hb) fun t ts _ => ?_
  exact ensures_unexpected.bind fun _ _ (h : False) => h.elim

/-- **The span of a target or a call shows its parentheses.** In whatever can be read, at every
depth, what is assigned to can be assigned to, and what is called is a call. It is written in
parentheses exactly if it is longer than its name, or starts before the expression that it goes on
from. -/
theorem shown_of_parse {s : String} {chunk : Chunk} (h : parse s = .ok chunk) :
    ∃ ts, tokens s = .ok ts ∧
      ∀ b ∈ chunk.body.blocks, b.Shown (ts.filter fun t => !isComment t) := by
  obtain ⟨c, c', hstart, hbody⟩ := exists_of_parse h
  obtain ⟨ts, hts, hrest, -⟩ := exists_of_start hstart
  refine ⟨ts, hts, ?_⟩
  rw [← hrest]
  exact shown_body (measured_of_start hstart) _ c' hbody

/-- A member of a name in parentheses, an index in them, and inside a function a call in them. -/
def enclosedHeads : String := "(a).b, (c[1]) = function() (f(2)) end"

theorem shown_enclosedHeads :
    ∃ chunk, parse enclosedHeads = .ok chunk ∧
      (chunk.body.blocks.flatMap fun b => b.stmts.flatMap fun s => s.heads.map fun e =>
        (e.span, e.isWidened)) =
          [(⟨0, 5, ⟨1, 0⟩, ⟨1, 5⟩⟩, false), (⟨7, 13, ⟨1, 7⟩, ⟨1, 13⟩⟩, true),
            (⟨27, 33, ⟨1, 27⟩, ⟨1, 33⟩⟩, true)] ∧
      ∃ ts, tokens enclosedHeads = .ok ts ∧
        ∀ b ∈ chunk.body.blocks, b.Shown (ts.filter fun t => !isComment t) := by
  have hheads : ((parse enclosedHeads).toOption.map fun chunk =>
      chunk.body.blocks.flatMap fun b => b.stmts.flatMap fun s => s.heads.map fun e =>
        (e.span, e.isWidened)) =
          some [(⟨0, 5, ⟨1, 0⟩, ⟨1, 5⟩⟩, false), (⟨7, 13, ⟨1, 7⟩, ⟨1, 13⟩⟩, true),
            (⟨27, 33, ⟨1, 27⟩, ⟨1, 33⟩⟩, true)] := by
    decide +kernel
  cases hparse : parse enclosedHeads with
  | error e => simp [hparse, Except.toOption] at hheads
  | ok chunk =>
    rw [hparse] at hheads
    exact ⟨chunk, rfl, Option.some.inj hheads, shown_of_parse hparse⟩

/-- A source that is read to one statement of a kind, which has a head in parentheses. -/
def ReadsEnclosed (source kindName : String) : Prop :=
  ∃ chunk ts s, parse source = .ok chunk ∧ tokens source = .ok ts ∧ chunk.body.stmts = [s] ∧
    s.kindName = kindName ∧ ∃ e ∈ s.heads, InParentheses (ts.filter fun t => !isComment t) e.span

theorem readsEnclosed_of_views {source kindName : String} {us behind : List Token} {a : Span}
    (hparse : (parse source).toOption.map (fun chunk =>
      chunk.body.stmts.map fun s => (s.kindName, s.heads.map Expr.span)) = some [(kindName, [a])])
    (htokens : (tokens source).toOption.map (·.filter fun t => !isComment t) = some (us ++ behind))
    (hus : Enclosed us) (hcover : Span.cover (us.map Token.span) = some a) :
    ReadsEnclosed source kindName := by
  cases hchunk : parse source with
  | error e => simp [hchunk, Except.toOption] at hparse
  | ok chunk =>
    cases hts : tokens source with
    | error e => simp [hts, Except.toOption] at htokens
    | ok ts =>
      rw [hchunk] at hparse
      rw [hts] at htokens
      obtain ⟨s, hstmts, hs⟩ := List.map_eq_singleton_iff.1 (Option.some.inj hparse)
      obtain ⟨hkind, hheads⟩ := Prod.mk.inj hs
      obtain ⟨e, he, rfl⟩ := List.map_eq_singleton_iff.1 hheads
      exact ⟨chunk, ts, s, hchunk, hts, hstmts, hkind, e, by simp [he], [], us, behind,
        Option.some.inj htokens, hus, hcover⟩

/-- Parentheses around a target are not refused, nor are those around a call. -/
theorem readsEnclosed_target_and_call :
    ReadsEnclosed "(a) = 1" "AssignmentStatement" ∧ ReadsEnclosed "(f())" "CallStatement" := by
  have htarget : (tokens "(a) = 1").toOption.map (·.filter fun t => !isComment t) =
      some ([⟨.leftParen, "(", ⟨0, 1, ⟨1, 0⟩, ⟨1, 1⟩⟩⟩, ⟨.name, "a", ⟨1, 2, ⟨1, 1⟩, ⟨1, 2⟩⟩⟩,
          ⟨.rightParen, ")", ⟨2, 3, ⟨1, 2⟩, ⟨1, 3⟩⟩⟩] ++
        [⟨.equal, "=", ⟨4, 5, ⟨1, 4⟩, ⟨1, 5⟩⟩⟩, ⟨.number, "1", ⟨6, 7, ⟨1, 6⟩, ⟨1, 7⟩⟩⟩]) := by
    decide +kernel
  have hcall : (tokens "(f())").toOption.map (·.filter fun t => !isComment t) =
      some ([⟨.leftParen, "(", ⟨0, 1, ⟨1, 0⟩, ⟨1, 1⟩⟩⟩, ⟨.name, "f", ⟨1, 2, ⟨1, 1⟩, ⟨1, 2⟩⟩⟩,
          ⟨.leftParen, "(", ⟨2, 3, ⟨1, 2⟩, ⟨1, 3⟩⟩⟩, ⟨.rightParen, ")", ⟨3, 4, ⟨1, 3⟩, ⟨1, 4⟩⟩⟩,
          ⟨.rightParen, ")", ⟨4, 5, ⟨1, 4⟩, ⟨1, 5⟩⟩⟩] ++ []) := by
    decide +kernel
  constructor
  · refine readsEnclosed_of_views (by decide +kernel) htarget ⟨_, [_], _, rfl, rfl, ?_, rfl⟩ rfl
    exact .plain (by decide) (by decide) .nil
  · refine readsEnclosed_of_views (by decide +kernel) hcall ⟨_, [_, _, _], _, rfl, rfl, ?_, rfl⟩ rfl
    exact .plain (by decide) (by decide) (.enclosed rfl .nil rfl .nil)

end LuaTranspiler.Source
