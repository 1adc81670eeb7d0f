import LuaTranspiler.Proofs.Source.Reading

/-!
# Written expressions are read back

Which parsers take the lexemes of an expression. What it is called by, what indexes it and the
operators around it are read by loops that go on behind it, so for each there is a statement of
where the loop stands when it has come that far.

* `Closes`, `Leaves`, `Ends`: what may follow an expression
* `Opens`: how an expression starts
* `Expr.Reads`: which parsers read an expression back
* `Expr.Reads.operator`: the priorities put the parentheses where the parser needs them
* `Field.Reads`, `Function.Reads`, `Block.Reads`: the same for the other parts of a tree
-/

namespace LuaTranspiler.Source

open LuaTranspiler.Parser

/-! ### Priorities -/

theorem infixOp?_kind (op : InfixOp) : infixOp? op.kind = some op := by
  rcases op with op | op <;> cases op <;> rfl

theorem unaryOp?_kind (op : UnaryOp) : unaryOp? op.kind = some op := by cases op <;> rfl

/-- No operator binds tighter on its right. -/
theorem InfixOp.right_le_left (op : InfixOp) : op.priority.2 ≤ op.priority.1 := by
  rcases op with op | op <;> cases op <;> decide

theorem InfixOp.left_pos (op : InfixOp) : 0 < op.priority.1 := by
  rcases op with op | op <;> cases op <;> decide

/-- All operators. -/
def InfixOp.all : List InfixOp :=
  [BinaryOp.add, .sub, .mul, .div, .floorDiv, .mod, .pow, .concat, .eq, .notEq, .less, .lessEq,
    .greater, .greaterEq, .bitAnd, .bitOr, .bitXor, .shiftLeft, .shiftRight].map .binary ++
  [.logical .and, .logical .or]

theorem InfixOp.mem_all (op : InfixOp) : op ∈ InfixOp.all := by
  rcases op with op | op <;> cases op <;> decide

/-- Between the two priorities of an operator there is no other. -/
theorem InfixOp.left_le_right_of_lt {op op' : InfixOp} (h : op.priority.1 < op'.priority.1) :
    op.priority.1 ≤ op'.priority.2 := by
  have htable : ∀ a ∈ InfixOp.all, ∀ b ∈ InfixOp.all, a.priority.1 < b.priority.1 →
      a.priority.1 ≤ b.priority.2 := by decide
  exact htable op op.mem_all op' op'.mem_all h

/-- An operator that binds no tighter than another's right operand leaves unary operators alone. -/
theorem InfixOp.left_le_unaryPriority {op op' : InfixOp} (h : op.priority.1 ≤ op'.priority.2) :
    op.priority.1 ≤ unaryPriority := by
  have htable : ∀ a ∈ InfixOp.all, ∀ b ∈ InfixOp.all, a.priority.1 ≤ b.priority.2 →
      a.priority.1 ≤ unaryPriority := by decide
  exact htable op op.mem_all op' op'.mem_all h

/-! ### What may follow an expression -/

/-- Whether a token goes on with an expression that can be called or indexed. -/
def startsSuffix : TokenKind → Bool
  | .dot | .leftBracket | .colon | .leftParen | .string | .longString | .leftBrace => true
  | _ => false

/-- Whether no member, index or call follows. -/
def Unsuffixed (kind : Option TokenKind) : Prop := kind.any startsSuffix = false

/-- Whether neither a suffix nor an operator follows. -/
def Closes (kind : Option TokenKind) : Prop := Unsuffixed kind ∧ kind.bind infixOp? = none

instance (kind : Option TokenKind) : Decidable (Unsuffixed kind) :=
  inferInstanceAs (Decidable (_ = _))

instance (kind : Option TokenKind) : Decidable (Closes kind) := inferInstanceAs (Decidable (_ ∧ _))

/-- Whether what follows leaves the last operand of `e` alone. -/
def Leaves (e : Expr) (kind : Option TokenKind) : Prop :=
  Unsuffixed kind ∧ ∀ op, kind.bind infixOp? = some op → e.losesTo op = false

/-- Whether what follows does not belong to an expression `e` above a limit. -/
def Ends (limit : Nat) (e : Expr) (kind : Option TokenKind) : Prop :=
  Leaves e kind ∧ ∀ op, kind.bind infixOp? = some op → op.priority.1 ≤ limit

theorem Closes.ends {kind : Option TokenKind} (h : Closes kind) (limit : Nat) (e : Expr) :
    Ends limit e kind :=
  ⟨⟨h.1, fun op hop => by simp [h.2] at hop⟩, fun op hop => by simp [h.2] at hop⟩

/-! ### Where loops end -/

variable {g : Grammar} {n limit : Nat}

theorem reads_suffix?_none (e : Expr) : Reads n (g.suffix? e) [] Unsuffixed (· = none) := by
  refine Reads.peekKind fun kind hkind => ?_
  split
  case h_8 => exact Reads.pure rfl
  all_goals cases hkind

theorem reads_extend?_none (e e' : Expr) :
    Reads n (g.extend? limit e) [] (Ends limit e') (· = none) := by
  refine Reads.peekKind fun kind hkind => ?_
  split
  · exact Reads.pure rfl
  · rename_i op hop
    rw [if_pos (hkind.2 op hop)]
    exact Reads.pure rfl

/-! ### How expressions start -/

/-- The kinds of literals. -/
def literalKinds : List TokenKind :=
  [.number, .hexNumber, .string, .longString, .kwNil, .kwTrue, .kwFalse, .ellipsis]

theorem kind_mem_of_literal? {t : Token} {value : Literal} (h : literal? t = .ok (some value)) :
    t.kind ∈ literalKinds := by
  unfold literal? at h
  split at h <;> simp_all [literalKinds]

/-- Whether an expression may start with a token of this kind. -/
def startsExpr (kind : TokenKind) : Bool :=
  (unaryOp? kind).isSome || [.leftParen, .leftBrace, .kwFunction, .name].contains kind ||
    literalKinds.contains kind

/-- Whether an expression may start with this. -/
def Lexeme.opensExpr : Lexeme → Bool
  | .symbol kind => startsExpr kind && kind ≠ .name
  | .name _ | .literal _ => true

/-- Whether a name or an expression in parentheses starts with this. -/
def Lexeme.opensBase : Lexeme → Bool
  | .symbol kind => kind = .leftParen
  | .name _ => true
  | .literal _ => false

/-- Whether an expression may start with these: an equals sign never follows a name at the head. -/
def Opens : List Lexeme → Prop
  | [] => False
  | l :: ls => l.opensExpr ∧ ((∃ s, l = .name s) → ls.head? ≠ some (.symbol .equal))

/-- Whether a name or an expression in parentheses starts with these. -/
def OpensBase (ls : List Lexeme) : Prop := ls.head?.any Lexeme.opensBase

section Opens

variable {ls ls' : List Lexeme}

theorem Opens.ne_nil (h : Opens ls) : ls ≠ [] := by
  rintro rfl
  exact h

theorem Opens.append (h : Opens ls) (h' : ls'.head? ≠ some (.symbol .equal)) :
    Opens (ls ++ ls') := by
  rcases ls with _ | ⟨l, _ | ⟨l₂, ls⟩⟩
  · exact h.elim
  · exact ⟨h.1, fun _ => h'⟩
  · exact h

theorem opens_parenthesized {needed : Bool} (h : Opens ls) : Opens (parenthesized needed ls) := by
  cases needed with
  | false => exact h
  | true => exact ⟨rfl, fun ⟨s, hs⟩ => by cases hs⟩

theorem OpensBase.kind {l : Lexeme} (h : OpensBase (l :: ls)) {t : Token} (ht : Spells t l) :
    t.kind = .name ∨ t.kind = .leftParen := by
  cases l with
  | symbol k => exact .inr (ht.trans (of_decide_eq_true h))
  | name s => exact .inl ht.1
  | literal value => cases h

theorem OpensBase.append (h : OpensBase ls) : OpensBase (ls ++ ls') := by
  cases ls with
  | nil => cases h
  | cons l ls => exact h

end Opens

theorem Expr.opens_lexemes : ∀ e : Expr, Opens e.lexemes
  | .ident .. => ⟨rfl, fun _ => by simp⟩
  | .literal .. | .table .. | .function .. => ⟨rfl, by rintro ⟨s, ⟨⟩⟩⟩
  | .member base indexer _ _ =>
    (opens_parenthesized base.opens_lexemes).append (by cases indexer <;> simp [Indexer.kind])
  | .index base _ _ => (opens_parenthesized base.opens_lexemes).append (by simp)
  | .unary op _ _ => by
    refine ⟨?_, by rintro ⟨s, ⟨⟩⟩⟩
    cases op <;> rfl
  | .binary lhs op _ _ =>
    (opens_parenthesized lhs.opens_lexemes).append (by cases op <;> simp [InfixOp.kind])
  | .logical lhs op _ _ =>
    (opens_parenthesized lhs.opens_lexemes).append (by cases op <;> simp [InfixOp.kind])
  | .call base _ _ => (opens_parenthesized base.opens_lexemes).append (by simp)
  | .stringCall base argument _ | .tableCall base argument _ => by
    refine (opens_parenthesized base.opens_lexemes).append ?_
    have hopens := argument.opens_lexemes
    intro h
    cases hls : argument.lexemes with
    | nil => simp [hls] at h
    | cons l ls =>
      rw [hls] at h hopens
      simp only [List.head?_cons, Option.some.injEq] at h
      subst h
      cases hopens.1

theorem opensBase_parenthesized {e : Expr} (h : e.isBase → OpensBase e.lexemes) :
    OpensBase (parenthesized (!e.isBase) e.lexemes) := by
  cases hbase : e.isBase with
  | false => rfl
  | true => exact h hbase

theorem Expr.opensBase_lexemes : ∀ e : Expr, e.isBase → OpensBase e.lexemes
  | .ident .., _ => rfl
  | .member base _ _ _, _ | .index base _ _, _ | .call base _ _, _ | .stringCall base _ _, _
  | .tableCall base _ _, _ => (opensBase_parenthesized base.opensBase_lexemes).append

/-- Where an expression is read, the next token may start one. -/
theorem startsExpr_of_next {follow : Option TokenKind → Prop} {ls : List Lexeme} (h : Opens ls)
    {kind : Option TokenKind} (hnext : Next follow ls kind) :
    ∃ k, kind = some k ∧ startsExpr k := by
  cases ls with
  | nil => exact h.elim
  | cons l ls =>
    obtain ⟨t, ht, rfl⟩ := hnext
    refine ⟨t.kind, rfl, ?_⟩
    cases l with
    | symbol k =>
      have hk : startsExpr k ∧ k ≠ .name := by simpa [Lexeme.opensExpr] using h.1
      exact ht ▸ hk.1
    | name s => exact ht.1 ▸ rfl
    | literal value =>
      have hstarts : ∀ k ∈ literalKinds, startsExpr k := by decide
      exact hstarts _ (kind_mem_of_literal? ht)

/-- So it is none of the others. -/
theorem ne_of_next_opens {follow : Option TokenKind → Prop} {ls : List Lexeme} (h : Opens ls)
    {k : TokenKind} (hk : startsExpr k = false) (kind : Option TokenKind)
    (hnext : Next follow ls kind) : kind ≠ some k := by
  rintro rfl
  obtain ⟨_, hkind, hstarts⟩ := startsExpr_of_next h hnext
  cases hkind
  rw [hk] at hstarts
  cases hstarts

/-! ### Expressions by what reads them -/

/-- Whether an expression is a method, which has to be called. -/
def Expr.isMethod : Expr → Bool
  | .member _ .colon _ _ => true
  | _ => false

/-- Whether these start with what calls an expression. -/
def StartsCall : List Lexeme → Prop
  | [] => False
  | l :: _ => ∀ t, Spells t l → t.kind ∈ [TokenKind.leftParen, .string, .longString, .leftBrace]

/-- Which parsers read an expression back. -/
structure Expr.Reads (e : Expr) : Prop where
  /-- It is called by what follows. -/
  called : ∀ n ls follow post, StartsCall ls →
    (∀ base : Expr, base.unplaced = e.unplaced →
      Source.Reads n ((grammar n).callArgs base) ls follow post) →
    ReadsTo n (grammar n).suffix? (grammar n).suffixed
      (parenthesized (!e.isBase) e.lexemes ++ ls) follow post
  /-- It is indexed or called by what may follow. -/
  suffixed : e.isMethod = false → ∀ n, ReadsTo n (grammar n).suffix? (grammar n).suffixed
    (parenthesized (!e.isBase) e.lexemes) (fun _ => True) (·.unplaced = e.unplaced)
  /-- It is an operand of operators that may follow. -/
  extended : e.isMethod = false → ∀ n limit, e.reaches limit = false →
    ReadsTo n ((grammar n).extend? limit) ((grammar n).subexpr limit) e.lexemes (Leaves e)
      (·.unplaced = e.unplaced)

theorem Expr.unplaced_withSpan (span : Span) (e : Expr) :
    (e.withSpan span).unplaced = e.unplaced := by
  cases e <;> rfl

section Dispatch

variable {ls : List Lexeme} {follow : Option TokenKind → Prop} {post : Expr → Prop}

/-- What starts like a name or a parenthesis is read as such. -/
theorem reads_operand_of_suffixed (hls : OpensBase ls) (h : Reads n g.suffixed ls follow post) :
    Reads n g.operand ls follow post := by
  cases ls with
  | nil => cases hls
  | cons l ls =>
    refine Reads.peek_cons fun t ht => ?_
    have hunary : unaryOp? t.kind = none := by
      rcases hls.kind ht with h | h <;> rw [h] <;> rfl
    simp only [hunary]
    refine Reads.peek_cons fun t ht => ?_
    have hliteral : literal? t = .ok none := by
      rcases hls.kind ht with h | h <;> simp [literal?, h]
    refine Reads.ofExcept hliteral ?_
    rcases hls.kind ht with ht | ht <;> simpa [ht] using h

/-- A literal. -/
theorem reads_operand_literal (value : Literal) (h : ∀ span, post (.literal value span)) :
    Reads n g.operand [.literal value] follow post := by
  refine Reads.peek_cons fun t ht => ?_
  have hunary : ∀ k ∈ literalKinds, unaryOp? k = none := by decide
  simp only [hunary _ (kind_mem_of_literal? ht)]
  refine Reads.peek_cons fun t ht => Reads.ofExcept ht ?_
  refine Reads.advance fun _ _ => ?_
  exact Reads.pure (h t.span)

/-- A table. -/
theorem reads_operand_table (h : Reads n g.table (.symbol .leftBrace :: ls) follow post) :
    Reads n g.operand (.symbol .leftBrace :: ls) follow post := by
  refine Reads.peek_symbol fun _ _ => ?_
  refine Reads.peek_symbol fun _ _ => ?_
  exact Reads.ofExcept (a := none) rfl h

/-- A function. -/
theorem reads_operand_function {f : Function}
    (h : Reads n g.functionBody ls follow (·.unplaced = f.unplaced)) :
    Reads n g.operand (.symbol .kwFunction :: ls) follow
      (·.unplaced = .function f.unplaced .unknown) := by
  refine Reads.peek_symbol fun _ _ => ?_
  refine Reads.peek_symbol fun _ _ => ?_
  refine Reads.ofExcept (a := none) rfl ?_
  refine Reads.advance fun _ _ => ?_
  refine Reads.bind_nil h fun f' hf' => Reads.finish fun _ => Reads.pure ?_
  rw [Expr.unplaced, hf']

end Dispatch

/-! ### Whole expressions -/

namespace Expr.Reads

variable {e : Expr}

/-- An expression is read whole where nothing of it follows. -/
theorem whole (h : e.Reads) (hmethod : e.isMethod = false) (hlimit : e.reaches limit = false)
    (n : Nat) : Source.Reads n ((grammar n).subexpr limit) e.lexemes (Ends limit e)
      (·.unplaced = e.unplaced) :=
  (h.extended hmethod n limit hlimit).stop (fun _ hk => hk.1) fun _ _ => reads_extend?_none _ e

end Expr.Reads

theorem Expr.reaches_zero (e : Expr) : e.reaches 0 = false := by
  unfold Expr.reaches
  cases e.operator? with
  | none => rfl
  | some op => exact decide_eq_false (Nat.not_le.2 op.left_pos)

/-- In parentheses, an expression is read as a name is. -/
theorem reads_primary_parenthesized {e : Expr} {ls : List Lexeme}
    (h : ∀ n, Reads n ((grammar n).subexpr 0) ls Closes (·.unplaced = e.unplaced)) (n : Nat) :
    Reads n (grammar n).primary (parenthesized true ls) (fun _ => True)
      (·.unplaced = e.unplaced) := by
  cases n with
  | zero => exact Reads.zero (List.cons_ne_nil _ _)
  | succ n =>
    refine Reads.peek_symbol fun _ _ => ?_
    refine Reads.advance_succ fun _ _ => ?_
    refine Reads.bind (h n) (fun e' he' => ?_) fun k hk => ?_
    · refine Reads.expect fun _ _ => Reads.finish fun _ => Reads.pure ?_
      rw [Expr.unplaced_withSpan, he']
    · rw [next_symbol.1 hk]
      decide

theorem reads_primary_name (name : String) (span : Span) (n : Nat) :
    Reads n g.primary [.name name] (fun _ => True)
      (·.unplaced = (Expr.ident name span).unplaced) := by
  refine Reads.peek_name fun _ => ?_
  refine Reads.advance fun _ _ => ?_
  exact Reads.pure rfl

section Parenthesized

variable {e : Expr} {ls : List Lexeme}

theorem reads_operand_parenthesized
    (h : ∀ n, Reads n ((grammar n).subexpr 0) ls Closes (·.unplaced = e.unplaced)) (n : Nat) :
    Reads n (grammar n).operand (parenthesized true ls) Unsuffixed (·.unplaced = e.unplaced) := by
  refine reads_operand_of_suffixed rfl ?_
  exact (ReadsTo.start (reads_primary_parenthesized h n)).stop (fun _ _ => trivial)
    fun a _ => reads_suffix?_none a

/-- What calls an expression is read behind it. -/
theorem reads_suffix?_call {base : Expr} {follow : Option TokenKind → Prop} {post : Expr → Prop}
    (hls : StartsCall ls) (h : Reads n (g.callArgs base) ls follow post) :
    Reads n (g.suffix? base) ls follow fun o => ∃ a, o = some a ∧ post a := by
  refine Reads.peekKind fun kind hkind => ?_
  cases ls with
  | nil => exact hls.elim
  | cons l ls =>
    obtain ⟨t, ht, rfl⟩ := hkind
    have hcall := hls t ht
    simp only [List.mem_cons, List.not_mem_nil, or_false] at hcall
    have hread : Reads n (do return some (← g.callArgs base)) (l :: ls) follow
        fun o => ∃ a, o = some a ∧ post a :=
      Reads.bind_nil h fun a ha => Reads.pure ⟨a, rfl, ha⟩
    rcases hcall with hk | hk | hk | hk <;> simpa only [hk] using hread

end Parenthesized

namespace Expr.Reads

variable {e : Expr}

/-- An expression that is no base is called or indexed in parentheses. -/
theorem of_extended (hbase : e.isBase = false)
    (h : ∀ n limit, e.reaches limit = false →
      ReadsTo n ((grammar n).extend? limit) ((grammar n).subexpr limit) e.lexemes (Leaves e)
        (·.unplaced = e.unplaced)) : e.Reads := by
  have hwhole : ∀ n, Source.Reads n ((grammar n).subexpr 0) e.lexemes Closes
      (·.unplaced = e.unplaced) := fun n =>
    (h n 0 e.reaches_zero).stop (fun k hk => (hk.ends 0 e).1) fun a _ =>
      (reads_extend?_none a e).weaken (fun k hk => hk.ends 0 e) fun _ h => h
  have hsuffixed : ∀ n, ReadsTo n (grammar n).suffix? (grammar n).suffixed
      (parenthesized (!e.isBase) e.lexemes) (fun _ => True) (·.unplaced = e.unplaced) := by
    intro n
    rw [hbase]
    exact ReadsTo.start (reads_primary_parenthesized hwhole n)
  exact {
    called := fun n ls follow post hls hcall =>
      (hsuffixed n).next (by rintro rfl; exact hls)
        (fun a ha => reads_suffix?_call hls (hcall a ha)) fun _ _ => trivial
    suffixed := fun _ => hsuffixed
    extended := fun _ => h }

/-- A literal, a table or a function is an operand. -/
theorem of_operand (hbase : e.isBase = false)
    (h : ∀ n, Source.Reads n (grammar n).operand e.lexemes Unsuffixed (·.unplaced = e.unplaced)) :
    e.Reads :=
  of_extended hbase fun n _ _ =>
    ReadsTo.start ((h n).weaken (fun _ hk => hk.1) fun _ h => h)

/-- A name, a member, an index or a call is an operand where nothing more of it follows. -/
theorem of_suffixed (hbase : e.isBase) (h : ∀ n, ReadsTo n (grammar n).suffix?
      (grammar n).suffixed e.lexemes (fun _ => True) (·.unplaced = e.unplaced)) : e.Reads := by
  have hparens : parenthesized (!e.isBase) e.lexemes = e.lexemes := by rw [hbase]; rfl
  have hoperand : ∀ n, Source.Reads n (grammar n).operand e.lexemes Unsuffixed
      (·.unplaced = e.unplaced) := fun n =>
    reads_operand_of_suffixed (e.opensBase_lexemes hbase)
      ((h n).stop (fun _ _ => trivial) fun a _ => reads_suffix?_none a)
  exact {
    called := fun n ls follow post hls hcall => by
      rw [hparens]
      exact (h n).next (by rintro rfl; exact hls)
        (fun a ha => reads_suffix?_call hls (hcall a ha)) fun _ _ => trivial
    suffixed := fun _ n => by
      rw [hparens]
      exact h n
    extended := fun _ n _ _ => ReadsTo.start ((hoperand n).weaken (fun _ hk => hk.1) fun _ h => h) }

end Expr.Reads

/-! ### Operators -/

/-- Whether neither a suffix follows nor an operator that binds tighter than a limit or than a unary
operator. -/
def Within (limit : Nat) (kind : Option TokenKind) : Prop :=
  Unsuffixed kind ∧ ∀ op, kind.bind infixOp? = some op →
    op.priority.1 ≤ limit ∧ op.priority.1 ≤ unaryPriority

/-- Such operators leave the last operand of an expression that is read above the limit alone. -/
theorem Within.ends {kind : Option TokenKind} {e : Expr} (h : Within limit kind)
    (he : e.reaches limit = false) : Ends limit e kind := by
  refine ⟨⟨h.1, fun op hop => ?_⟩, fun op hop => (h.2 op hop).1⟩
  obtain ⟨hlimit, hunary⟩ := h.2 op hop
  have hbetween : ∀ op' : InfixOp, e.operator? = some op' → ¬op'.priority.2 < op.priority.1 := by
    intro op' hop'
    have hlt : limit < op'.priority.1 := by simpa [Expr.reaches, hop'] using he
    exact Nat.not_lt.2 (InfixOp.left_le_right_of_lt (Nat.lt_of_le_of_lt hlimit hlt))
  unfold Expr.losesTo
  cases e with
  | unary => exact decide_eq_false (Nat.not_lt.2 hunary)
  | binary _ op' _ _ => exact decide_eq_false (hbetween _ rfl)
  | logical _ op' _ _ => exact decide_eq_false (hbetween _ rfl)
  | _ => rfl

namespace Expr.Reads

variable {e lhs rhs : Expr}

theorem closed (h : e.Reads) (hmethod : e.isMethod = false) (n : Nat) :
    Source.Reads n ((grammar n).subexpr 0) e.lexemes Closes (·.unplaced = e.unplaced) :=
  (h.whole hmethod e.reaches_zero n).weaken (fun _ hk => hk.ends 0 e) fun _ h => h

/-- An operand to the right of an operator, or of a unary operator. -/
theorem right (h : e.Reads) (hmethod : e.isMethod = false) (n limit : Nat) :
    Source.Reads n ((grammar n).subexpr limit) (parenthesized (e.reaches limit) e.lexemes)
      (Within limit) (·.unplaced = e.unplaced) := by
  cases hreaches : e.reaches limit with
  | false =>
    exact (h.whole hmethod hreaches n).weaken (fun _ hk => hk.ends hreaches) fun _ h => h
  | true =>
    have hoperand := reads_operand_parenthesized (h.closed hmethod) n
    refine (ReadsTo.start hoperand).stop (fun _ hk => hk.1) fun a _ => ?_
    exact (reads_extend?_none a (.ident "" .unknown)).weaken (fun _ hk => hk.ends rfl) fun _ h => h

theorem unsuffixed_operator (op : InfixOp) : Unsuffixed (some op.kind) := by
  rcases op with op | op <;> cases op <;> rfl

/-- An operand to the left of an operator above the limit. -/
theorem left (h : e.Reads) (hmethod : e.isMethod = false) {op : InfixOp}
    (hlimit : limit < op.priority.1) (n : Nat) :
    ReadsTo n ((grammar n).extend? limit) ((grammar n).subexpr limit)
      (parenthesized (e.losesTo op) e.lexemes) (· = some op.kind) (·.unplaced = e.unplaced) := by
  cases hloses : e.losesTo op with
  | true =>
    refine ReadsTo.start ((reads_operand_parenthesized (h.closed hmethod) n).weaken ?_ fun _ h => h)
    rintro _ rfl
    exact unsuffixed_operator op
  | false =>
    have hreaches : e.reaches limit = false := by
      unfold Expr.reaches
      cases hop : e.operator? with
      | none => rfl
      | some op' =>
        have hright : e.rightPriority? = some op'.priority.2 := by
          cases e <;> cases hop <;> rfl
        have hle : op.priority.1 ≤ op'.priority.2 := by
          simpa [Expr.losesTo, hright] using hloses
        have hle' := op'.right_le_left
        exact decide_eq_false (by omega)
    refine (h.extended hmethod n limit hreaches).follow_mono ?_
    rintro _ rfl
    refine ⟨unsuffixed_operator op, fun op' hop' => ?_⟩
    obtain rfl : op = op' := by simpa [infixOp?_kind] using hop'
    exact hloses

/-- An operator between two operands. -/
theorem operator (op : InfixOp) (hl : lhs.Reads) (hlm : lhs.isMethod = false) (hr : rhs.Reads)
    (hrm : rhs.isMethod = false) (hop : e.operator? = some op)
    (hlexemes : e.lexemes = parenthesized (lhs.losesTo op) lhs.lexemes ++ .symbol op.kind ::
      parenthesized (rhs.reaches op.priority.2) rhs.lexemes)
    (hunplaced : ∀ l r : Expr, l.unplaced = lhs.unplaced → r.unplaced = rhs.unplaced →
      (op.apply l r).unplaced = e.unplaced) : e.Reads := by
  have hbase : e.isBase = false := by cases e <;> cases hop <;> rfl
  have hright : e.rightPriority? = some op.priority.2 := by cases e <;> cases hop <;> rfl
  refine of_extended hbase fun n limit hlimit => ?_
  have hlt : limit < op.priority.1 := by simpa [Expr.reaches, hop] using hlimit
  rw [hlexemes]
  refine (hl.left hlm hlt n).next (List.cons_ne_nil _ _) (fun l hl' => ?_) fun _ hk =>
    next_symbol.1 hk
  cases n with
  | zero => exact Source.Reads.zero (List.cons_ne_nil _ _)
  | succ n =>
    refine Source.Reads.peekKind fun kind hkind => ?_
    simp only [next_symbol.1 hkind, Option.bind_some, infixOp?_kind, Nat.not_le.2 hlt, if_false]
    refine Source.Reads.advance_succ fun _ _ => ?_
    refine Source.Reads.bind_nil ((hr.right hrm n _).weaken (fun k hk => ⟨hk.1, fun op' hop' => ?_⟩)
      fun _ h => h) fun r hr' => Source.Reads.pure ⟨_, rfl, hunplaced l r hl' hr'⟩
    have hle : op'.priority.1 ≤ op.priority.2 := by
      simpa [Expr.losesTo, hright] using hk.2 op' hop'
    exact ⟨hle, InfixOp.left_le_unaryPriority hle⟩

/-- A unary operator before its operand. -/
theorem prefixed (op : UnaryOp) (span : Span) (h : e.Reads) (hmethod : e.isMethod = false) :
    (Expr.unary op e span).Reads := by
  refine of_extended rfl fun n limit _ => ReadsTo.start ?_
  cases n with
  | zero => exact Source.Reads.zero (List.cons_ne_nil _ _)
  | succ n =>
    refine Source.Reads.peek_cons fun t (ht : t.kind = _) => ?_
    simp only [ht, unaryOp?_kind]
    refine Source.Reads.advance_succ fun _ _ => ?_
    refine Source.Reads.bind_nil ((h.right hmethod n unaryPriority).weaken
      (fun k hk => ⟨hk.1, fun op' hop' => ?_⟩) fun _ h => h) fun e' he' => Source.Reads.pure ?_
    · have hle : op'.priority.1 ≤ unaryPriority := by
        simpa [Expr.losesTo, Expr.rightPriority?] using hk.2 op' hop'
      exact ⟨hle, hle⟩
    · simp only [Expr.unplaced, he']

end Expr.Reads

/-! ### Lists of trees -/

@[simp] theorem exprLexemes_eq_map (es : List Expr) : exprLexemes es = es.map Expr.lexemes := by
  induction es with
  | nil => rfl
  | cons e es ih => rw [exprLexemes, ih, List.map_cons]

@[simp] theorem fieldLexemes_eq_map (fs : List Field) : fieldLexemes fs = fs.map Field.lexemes := by
  induction fs with
  | nil => rfl
  | cons f fs ih => rw [fieldLexemes, ih, List.map_cons]

@[simp] theorem unplacedExprs_eq_map (es : List Expr) :
    unplacedExprs es = es.map Expr.unplaced := by
  induction es with
  | nil => rfl
  | cons e es ih => rw [unplacedExprs, ih, List.map_cons]

@[simp] theorem unplacedFields_eq_map (fs : List Field) :
    unplacedFields fs = fs.map Field.unplaced := by
  induction fs with
  | nil => rfl
  | cons f fs ih => rw [unplacedFields, ih, List.map_cons]

theorem map_eq_map_of_forall₂ {α β : Type} {f : α → β} {as bs : List α}
    (h : List.Forall₂ (fun a b => f a = f b) as bs) : as.map f = bs.map f := by
  induction h with
  | nil => rfl
  | cons hab _ ih => rw [List.map_cons, List.map_cons, hab, ih]

/-- Whether an expression is read back wherever one may stand. -/
def Expr.ReadsBack (e : Expr) : Prop := e.Reads ∧ e.isMethod = false

/-- Whether a list of expressions ends. -/
def ClosesList (kind : Option TokenKind) : Prop := Closes kind ∧ kind ≠ some .comma

instance (kind : Option TokenKind) : Decidable (ClosesList kind) :=
  inferInstanceAs (Decidable (_ ∧ _))

theorem reads_exprList {es : List Expr} (hne : es ≠ []) (h : ∀ e ∈ es, e.ReadsBack) (n : Nat) :
    Reads n (grammar (n + 1)).exprList (commas (es.map Expr.lexemes)) ClosesList
      (·.map Expr.unplaced = es.map Expr.unplaced) := by
  obtain ⟨e, es, rfl⟩ := List.exists_cons_of_ne_nil hne
  refine (reads_commaList (fun e he => (h e he).1.closed (h e he).2 n) (by decide)
    fun _ hk => hk).weaken (fun _ hk => hk) fun _ => map_eq_map_of_forall₂

theorem opens_commas {es : List Expr} (hne : es ≠ []) : Opens (commas (es.map Expr.lexemes)) := by
  obtain ⟨e, es, rfl⟩ := List.exists_cons_of_ne_nil hne
  rw [commas_map_cons]
  refine e.opens_lexemes.append ?_
  cases es <;> simp

/-! ### Calls -/

section Calls

variable {base : Expr} {post : Expr → Prop}

theorem reads_callArgs_parens {args : List Expr} (h : ∀ e ∈ args, e.ReadsBack)
    (hpost : ∀ args' span, args'.map Expr.unplaced = args.map Expr.unplaced →
      post (.call base args' span)) (n : Nat) :
    Reads n ((grammar n).callArgs base)
      (.symbol .leftParen :: (commas (args.map Expr.lexemes) ++ [.symbol .rightParen]))
      (fun _ => True) post := by
  cases n with
  | zero => exact Reads.zero (List.cons_ne_nil _ _)
  | succ n =>
    refine Reads.peek_symbol fun _ _ => ?_
    refine Reads.advance_succ fun _ _ => ?_
    have hclose : ∀ args' : List Expr, args'.map Expr.unplaced = args.map Expr.unplaced →
        Reads n (do
          let _ ← expect .rightParen
          return Expr.call base args' (← finish base.span)) [.symbol .rightParen] (fun _ => True)
          post := fun args' hargs =>
      Reads.expect fun _ _ => Reads.finish fun span => Reads.pure (hpost args' span hargs)
    cases args with
    | nil =>
      refine Reads.check_true (fun k hk => next_symbol.1 hk) ?_
      exact hclose [] rfl
    | cons e es =>
      have hopens : Opens (commas ((e :: es).map Expr.lexemes) ++ [.symbol .rightParen]) :=
        (opens_commas (List.cons_ne_nil _ _)).append (by simp)
      refine Reads.check_false (ne_of_next_opens hopens rfl) ?_
      refine Reads.bind (reads_exprList (List.cons_ne_nil _ _) h n) hclose fun k hk => ?_
      rw [next_symbol.1 hk]
      decide

theorem stringValue_of_literal? {t : Token} {s : String}
    (h : literal? t = .ok (some (.string s))) :
    (t.kind = .string ∨ t.kind = .longString) ∧ stringValue t = .ok s := by
  unfold literal? at h
  split at h
  case h_3 | h_4 =>
    cases hs : stringValue t <;> simp_all
  all_goals grind

theorem reads_callArgs_string {s : String}
    (hpost : ∀ span span', post (.stringCall base (.literal (.string s) span) span')) (n : Nat) :
    Reads n (g.callArgs base) [.literal (.string s)] (fun _ => True) post := by
  refine Reads.peek_cons fun t ht => ?_
  obtain ⟨hkind, hvalue⟩ := stringValue_of_literal? ht
  have hread : Reads n (do
      let s ← ofExcept (stringValue t)
      let _ ← advance
      return Expr.stringCall base (.literal (.string s) t.span) (← finish base.span))
      [.literal (.string s)] (fun _ => True) post := by
    refine Reads.ofExcept hvalue ?_
    refine Reads.advance fun _ _ => ?_
    exact Reads.finish fun span => Reads.pure (hpost t.span span)
  rcases hkind with hkind | hkind <;> simpa only [hkind] using hread

theorem reads_callArgs_table {argument : Expr} {ls : List Lexeme}
    (h : Reads n g.table (.symbol .leftBrace :: ls) (fun _ => True)
      (·.unplaced = argument.unplaced))
    (hpost : ∀ argument' span, argument'.unplaced = argument.unplaced →
      post (.tableCall base argument' span)) :
    Reads n (g.callArgs base) (.symbol .leftBrace :: ls) (fun _ => True) post := by
  refine Reads.peek_symbol fun _ _ => ?_
  refine Reads.bind_nil h fun argument' hargument => ?_
  exact Reads.finish fun span => Reads.pure (hpost argument' span hargument)

end Calls

/-! ### Suffixes -/

theorem reads_suffix?_member {base : Expr} (name : Name) (e : Expr)
    (he : base.unplaced = e.unplaced)
    (span : Span) (n : Nat) :
    Reads n (g.suffix? base) [.symbol .dot, .name name.text] (fun _ => True)
      fun o => ∃ a, o = some a ∧ a.unplaced = (Expr.member e .dot name span).unplaced := by
  refine Reads.peekKind_symbol ?_
  refine Reads.advance fun _ _ => ?_
  refine Reads.name fun name' hname => Reads.finish fun _ => Reads.pure ⟨_, rfl, ?_⟩
  simp only [Expr.unplaced, he, Name.unplaced, hname]

theorem reads_suffix?_index {base e i : Expr} (he : base.unplaced = e.unplaced)
    (hi : i.ReadsBack) (span : Span) (n : Nat) :
    Reads n ((grammar n).suffix? base)
      (.symbol .leftBracket :: (i.lexemes ++ [.symbol .rightBracket])) (fun _ => True)
      fun o => ∃ a, o = some a ∧ a.unplaced = (Expr.index e i span).unplaced := by
  cases n with
  | zero => exact Reads.zero (List.cons_ne_nil _ _)
  | succ n =>
    refine Reads.peekKind_symbol ?_
    refine Reads.advance_succ fun _ _ => ?_
    refine Reads.bind (hi.1.closed hi.2 n) (fun i' hi' => ?_) fun k hk => ?_
    · refine Reads.expect fun _ _ => Reads.finish fun _ => Reads.pure ⟨_, rfl, ?_⟩
      simp only [Expr.unplaced, he, hi']
    · rw [next_symbol.1 hk]
      decide

/-- A method is called at once. -/
theorem reads_suffix?_method {base e : Expr} {name : Name} {span : Span} {ls : List Lexeme}
    {follow : Option TokenKind → Prop} {post : Expr → Prop} (he : base.unplaced = e.unplaced)
    (h : ∀ callee : Expr, callee.unplaced = (Expr.member e .colon name span).unplaced →
      Reads n (g.callArgs callee) ls follow post) :
    Reads n (g.suffix? base) (.symbol .colon :: .name name.text :: ls) follow
      fun o => ∃ a, o = some a ∧ post a := by
  refine Reads.peekKind_symbol ?_
  refine Reads.advance fun _ _ => ?_
  refine Reads.name fun name' hname => Reads.finish fun _ => ?_
  refine Reads.bind_nil (h _ ?_) fun a ha => Reads.pure ⟨a, rfl, ha⟩
  simp only [Expr.unplaced, he, Name.unplaced, hname]

namespace Expr.Reads

variable {base : Expr} (span : Span)

/-- A method is read with what calls it. -/
theorem method (name : Name) (h : base.Reads) (hmethod : base.isMethod = false) :
    (Expr.member base .colon name span).Reads where
  called n ls follow post hls hcall := by
    have hlexemes : parenthesized (!(Expr.member base .colon name span).isBase)
        (Expr.member base .colon name span).lexemes ++ ls =
        parenthesized (!base.isBase) base.lexemes ++ .symbol .colon :: .name name.text :: ls := by
      simp [Expr.isBase, parenthesized, Expr.lexemes, Indexer.kind]
    rw [hlexemes]
    exact (h.suffixed hmethod n).next (List.cons_ne_nil _ _)
      (fun _ ha => reads_suffix?_method ha hcall) fun _ _ => trivial
  suffixed h := by cases h
  extended h := by cases h

theorem member (name : Name) (h : base.Reads) (hmethod : base.isMethod = false) :
    (Expr.member base .dot name span).Reads :=
  of_suffixed rfl fun n => (h.suffixed hmethod n).next (List.cons_ne_nil _ _)
    (fun _ ha => reads_suffix?_member name base ha span n) fun _ _ => trivial

theorem index {i : Expr} (h : base.Reads) (hmethod : base.isMethod = false) (hi : i.ReadsBack) :
    (Expr.index base i span).Reads :=
  of_suffixed rfl fun n => (h.suffixed hmethod n).next (List.cons_ne_nil _ _)
    (fun _ ha => reads_suffix?_index ha hi span n) fun _ _ => trivial

theorem call {args : List Expr} (h : base.Reads) (hargs : ∀ e ∈ args, e.ReadsBack) :
    (Expr.call base args span).Reads := by
  refine of_suffixed rfl fun n => ?_
  rw [Expr.lexemes, exprLexemes_eq_map]
  refine h.called n _ _ _ (fun t ht => by simp [show t.kind = _ from ht]) fun callee hcallee => ?_
  refine reads_callArgs_parens hargs (fun args' _ hargs' => ?_) n
  simp only [Expr.unplaced, unplacedExprs_eq_map, hcallee, hargs']

theorem stringCall {s : String} {span' : Span} (h : base.Reads) :
    (Expr.stringCall base (.literal (.string s) span') span).Reads := by
  refine of_suffixed rfl fun n => ?_
  refine h.called n _ _ _ (fun t ht => ?_) fun callee hcallee => ?_
  · rcases (stringValue_of_literal? ht).1 with hk | hk <;> simp [hk]
  · refine reads_callArgs_string (fun _ _ => ?_) n
    simp only [Expr.unplaced, hcallee]

theorem tableCall {fields : List Field} {span' : Span} (h : base.Reads)
    (htable : ∀ n, Source.Reads n (grammar n).table (Expr.table fields span').lexemes
      (fun _ => True) (·.unplaced = (Expr.table fields span').unplaced)) :
    (Expr.tableCall base (.table fields span') span).Reads := by
  refine of_suffixed rfl fun n => ?_
  refine h.called n _ _ _ (fun t ht => by simp [show t.kind = _ from ht]) fun callee hcallee => ?_
  refine reads_callArgs_table (htable n) fun argument' _ hargument => ?_
  simp only [Expr.unplaced, hcallee, hargument]

end Expr.Reads

/-! ### Tables -/

/-- What may follow a field of a table. -/
def ClosesField (kind : Option TokenKind) : Prop := kind = some .comma ∨ kind = some .rightBrace

theorem ClosesField.closes {kind : Option TokenKind} (h : ClosesField kind) : Closes kind := by
  rcases h with rfl | rfl <;> decide

/-- What opens an expression with a name is a name. -/
theorem eq_name_of_spells {l : Lexeme} (hl : l.opensExpr) {t : Token} (ht : Spells t l)
    (hname : t.kind = .name) : ∃ s, l = .name s := by
  cases l with
  | symbol k =>
    obtain rfl : t.kind = k := ht
    rw [hname] at hl
    cases hl
  | name s => exact ⟨s, rfl⟩
  | literal value =>
    have hkind := kind_mem_of_literal? ht
    rw [hname] at hkind
    exact absurd hkind (by decide)

/-- An equals sign that comes next is read, or follows. -/
theorem next_equal {follow : Option TokenKind → Prop} {ls : List Lexeme}
    (h : Next follow ls (some .equal)) :
    (ls = [] ∧ follow (some .equal)) ∨ ls.head? = some (.symbol .equal) := by
  cases ls with
  | nil => exact .inl ⟨rfl, h⟩
  | cons l ls =>
    obtain ⟨t, ht, hkind⟩ := h
    rw [Option.some.injEq] at hkind
    right
    cases l with
    | symbol k =>
      obtain rfl : t.kind = k := ht
      rw [List.head?_cons, hkind]
    | name s => simp [ht.1] at hkind
    | literal value =>
      have hmem := kind_mem_of_literal? ht
      rw [← hkind] at hmem
      exact absurd hmem (by decide)

/-- A field is read back behind the brace that opens its table. -/
def Field.Reads (f : Field) : Prop :=
  ∀ n, Source.Reads n (grammar (n + 1)).field f.lexemes ClosesField (·.unplaced = f.unplaced)

namespace Field.Reads

variable {key value : Expr} (span : Span)

theorem keyed (hkey : key.ReadsBack) (hvalue : value.ReadsBack) :
    (Field.keyed key value span).Reads := by
  intro n
  refine Source.Reads.peekNth_one fun _ _ => ?_
  refine Source.Reads.peek_symbol fun _ _ => ?_
  refine Source.Reads.advance fun _ _ => ?_
  refine Source.Reads.bind (hkey.1.closed hkey.2 n) (fun key' hkey' => ?_) fun k hk => ?_
  · refine Source.Reads.expect fun _ _ => Source.Reads.expect fun _ _ => ?_
    refine Source.Reads.bind_nil ((hvalue.1.closed hvalue.2 n).weaken (fun _ hk => hk.closes)
      fun _ h => h) fun value' hvalue' => Source.Reads.finish fun _ => Source.Reads.pure ?_
    simp only [Field.unplaced, hkey', hvalue']
  · rw [next_symbol.1 hk]
    decide

theorem named (key : Name) (hvalue : value.ReadsBack) : (Field.named key value span).Reads := by
  intro n
  refine Source.Reads.peekNth_one fun k hk => ?_
  rw [next_symbol.1 hk]
  refine Source.Reads.peek_name fun _ => ?_
  refine Source.Reads.name fun key' hkey' => Source.Reads.expect fun _ _ => ?_
  refine Source.Reads.bind_nil ((hvalue.1.closed hvalue.2 n).weaken (fun _ hk => hk.closes)
    fun _ h => h) fun value' hvalue' => Source.Reads.finish fun _ => Source.Reads.pure ?_
  simp only [Field.unplaced, hvalue', Name.unplaced, hkey']

theorem positional (hvalue : value.ReadsBack) : (Field.positional value span).Reads := by
  intro n
  have hopens := value.opens_lexemes
  have hread : Source.Reads n ((grammar n).subexpr 0) value.lexemes ClosesField
      (·.unplaced = value.unplaced) :=
    (hvalue.1.closed hvalue.2 n).weaken (fun _ hk => hk.closes) fun _ h => h
  unfold Field.lexemes
  cases hls : value.lexemes with
  | nil => exact (hopens.ne_nil hls).elim
  | cons l ls =>
    rw [hls] at hopens hread
    refine Source.Reads.peekNth_one fun k hk => ?_
    refine Source.Reads.peek_cons fun t ht => ?_
    have hbracket : t.kind ≠ .leftBracket := by
      have hnext : Next ClosesField (l :: ls) (some t.kind) := ⟨t, ht, rfl⟩
      exact fun h => ne_of_next_opens hopens rfl _ hnext (congrArg some h)
    have hname : ¬(t.kind = .name ∧ k = some .equal) := by
      rintro ⟨hname, rfl⟩
      have hhead := hopens.2 (eq_name_of_spells hopens.1 ht hname)
      rcases next_equal hk with ⟨-, h | h⟩ | h
      · cases h
      · cases h
      · exact hhead h
    simp only [hbracket, if_false, hname]
    refine Source.Reads.bind_nil hread fun value' hvalue' => Source.Reads.finish fun _ =>
      Source.Reads.pure ?_
    simp only [Field.unplaced, hvalue']

end Field.Reads

theorem Field.lexemes_ne_nil (f : Field) : f.lexemes ≠ [] := by
  cases f with
  | positional value => exact value.opens_lexemes.ne_nil
  | _ => exact List.cons_ne_nil _ _

theorem Field.ne_rightBrace (f : Field) (ls : List Lexeme) {follow : Option TokenKind → Prop}
    (kind : Option TokenKind) (h : Next follow (f.lexemes ++ ls) kind) :
    kind ≠ some .rightBrace := by
  cases f with
  | keyed => simp [next_symbol.1 h]
  | named => simp [next_name.1 h]
  | positional value =>
    obtain ⟨l, ls', hls⟩ := List.exists_cons_of_ne_nil value.opens_lexemes.ne_nil
    have hnext : Next follow value.lexemes kind := by
      rw [Field.lexemes, hls] at h
      rw [hls]
      exact h
    exact ne_of_next_opens value.opens_lexemes rfl kind hnext

/-- A field without a separator is the last one. -/
theorem reads_field?_last {f : Field} (h : f.Reads) (n : Nat) :
    Reads n (grammar (n + 1)).field? f.lexemes (· = some .rightBrace)
      fun o => ∃ a, o = some a ∧ a.unplaced = f.unplaced := by
  refine Reads.check_false (fun kind hk => f.ne_rightBrace [] kind (by simpa using hk)) ?_
  refine Reads.bind_nil ((h n).weaken (fun _ hk => .inr hk) fun _ h => h) fun a ha => ?_
  refine Reads.eat_none (fun _ hk => by simp [show _ = _ from hk]) ?_
  refine Reads.eat_none (fun _ hk => by simp [show _ = _ from hk]) ?_
  refine Reads.require (fun _ hk => hk) ?_
  exact Reads.pure ⟨a, rfl, ha⟩

theorem reads_field?_more {f : Field} (h : f.Reads) (n : Nat) :
    Reads n (grammar (n + 1)).field? (f.lexemes ++ [.symbol .comma]) (fun _ => True)
      fun o => ∃ a, o = some a ∧ a.unplaced = f.unplaced := by
  refine Reads.check_false (f.ne_rightBrace _) ?_
  refine Reads.bind (h n) (fun a ha => ?_) fun _ hk => .inl (next_symbol.1 hk)
  refine Reads.eat_some fun _ _ => ?_
  exact Reads.pure ⟨a, rfl, ha⟩

theorem reads_table {fields : List Field} (span : Span) (h : ∀ f ∈ fields, f.Reads) (n : Nat) :
    Reads n (grammar n).table (Expr.table fields span).lexemes (fun _ => True)
      (·.unplaced = (Expr.table fields span).unplaced) := by
  cases n with
  | zero => exact Reads.zero (List.cons_ne_nil _ _)
  | succ n =>
    rw [Expr.lexemes, fieldLexemes_eq_map]
    have hfields : Reads n (many (grammar (n + 1)).field?) (commas (fields.map Field.lexemes))
        (· = some .rightBrace)
        (List.Forall₂ (fun a f : Field => a.unplaced = f.unplaced) · fields) := by
      refine reads_many_separated (fun f _ => f.lexemes_ne_nil) ?_
        (fun f hf => reads_field?_last (h f hf) n)
        fun f hf => reads_field?_more (h f (List.dropLast_subset fields hf)) n
      refine Reads.check_true (fun _ hk => hk) ?_
      exact Reads.pure rfl
    refine Reads.expect_succ fun _ _ => ?_
    refine Reads.bind hfields (fun fields' hfields' => ?_) fun k hk => next_symbol.1 hk
    refine Reads.expect fun _ _ => Reads.finish fun _ => Reads.pure ?_
    simp only [Expr.unplaced, unplacedFields_eq_map, map_eq_map_of_forall₂ hfields']

/-! ### Functions -/

/-- What may follow a block. -/
def EndsBlock (kind : Option TokenKind) : Prop := kind.all TokenKind.endsBlock

/-- A block is read back up to what ends it. -/
def Block.Reads (b : Block) : Prop :=
  ∀ n start, Source.Reads n ((grammar n).statements start) b.lexemes EndsBlock
    (·.unplaced = b.unplaced)

/-- A function is read back behind its keyword or its name. -/
def Function.Reads (f : Function) : Prop :=
  ∀ n, Source.Reads n (grammar n).functionBody f.lexemes (fun _ => True) (·.unplaced = f.unplaced)

/-- A parameter without a comma is the last one. -/
theorem reads_param?_last (p : Param) (n : Nat) :
    Reads n param? [p.lexeme] (· = some .rightParen)
      fun o => ∃ a, o = some a ∧ a.unplaced = p.unplaced := by
  cases p with
  | named name span =>
    refine Reads.check_false (fun _ hk => by simp [next_name.1 hk]) ?_
    refine Reads.eat_none (fun _ hk => by simp [next_name.1 hk]) ?_
    refine Reads.name fun a ha => ?_
    refine Reads.eat_none (fun _ hk => by simp [show _ = _ from hk]) ?_
    refine Reads.require (fun _ hk => hk) ?_
    refine Reads.pure ⟨_, rfl, ?_⟩
    simp only [Param.unplaced, ha]
  | vararg span =>
    refine Reads.check_false (fun _ hk => by simp [next_symbol.1 hk]) ?_
    refine Reads.eat_some fun _ _ => Reads.require (fun _ hk => hk) ?_
    exact Reads.pure ⟨_, rfl, rfl⟩

theorem reads_param?_more {p : Param} (hp : p.isVararg = false) (n : Nat) :
    Reads n param? ([p.lexeme] ++ [.symbol .comma]) (fun _ => True)
      fun o => ∃ a, o = some a ∧ a.unplaced = p.unplaced := by
  cases p with
  | named name span =>
    refine Reads.check_false (fun _ hk => by simp [next_name.1 hk]) ?_
    refine Reads.eat_none (fun _ hk => by simp [next_name.1 hk]) ?_
    refine Reads.name fun a ha => Reads.eat_some fun _ _ => ?_
    refine Reads.pure ⟨_, rfl, ?_⟩
    simp only [Param.unplaced, ha]
  | vararg span => cases hp

theorem Function.reads {params : List Param} {body : Block}
    (hparams : ∀ p ∈ params.dropLast, p.isVararg = false) (hbody : body.Reads) :
    (Function.mk params body).Reads := by
  intro n
  cases n with
  | zero => exact Source.Reads.zero (List.cons_ne_nil _ _)
  | succ n =>
    have hread : Source.Reads n (many param?) (commas (params.map fun p => [p.lexeme]))
        (· = some .rightParen)
        (List.Forall₂ (fun a p : Param => a.unplaced = p.unplaced) · params) := by
      refine reads_many_separated (fun p _ => List.cons_ne_nil _ _) ?_
        (fun p _ => reads_param?_last p n) fun p hp => reads_param?_more (hparams p hp) n
      refine Source.Reads.check_true (fun _ hk => hk) ?_
      exact Source.Reads.pure rfl
    refine Source.Reads.expect_succ fun _ _ => ?_
    refine Source.Reads.bind hread (fun params' hparams' => ?_) fun k hk => next_symbol.1 hk
    refine Source.Reads.expect fun _ _ => ?_
    refine Source.Reads.bind (hbody n _) (fun body' hbody' => ?_) fun k hk => ?_
    · refine Source.Reads.expect fun _ _ => Source.Reads.pure ?_
      simp only [Function.unplaced, map_eq_map_of_forall₂ hparams', hbody']
    · rw [next_symbol.1 hk]
      rfl

end LuaTranspiler.Source
