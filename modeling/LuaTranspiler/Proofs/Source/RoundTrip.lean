import LuaTranspiler.Proofs.Source.Expressions

/-!
# Written blocks are read back

Each kind of statement is read back from what it is written as, before the semicolon that stands
behind it; from the statements come the blocks, and by induction on trees all of them.

* `Stmt.Reads`, `Clause.Reads`: a statement or a clause is read back
* `readsMany_stmt?`: the statements of a block are read one by one
* `exists_body_eq_ok`: a well-formed block is read back
-/

namespace LuaTranspiler.Source

open LuaTranspiler.Parser

variable {g : Grammar} {n : Nat}

/-! ### Blocks inside statements -/

theorem EndsBlock.of_symbol {kind : TokenKind} (h : kind.endsBlock)
    {follow : Option TokenKind → Prop} {ls : List Lexeme} (k : Option TokenKind)
    (hk : Next follow (.symbol kind :: ls) k) : EndsBlock k := by
  rw [next_symbol.1 hk]
  exact h

theorem reads_openBlock {b : Block} (hb : b.Reads) (kind : TokenKind) (n : Nat) :
    Reads n ((grammar n).openBlock kind) (.symbol kind :: b.lexemes) EndsBlock
      (·.unplaced = b.unplaced) := by
  cases n with
  | zero => exact Reads.zero (List.cons_ne_nil _ _)
  | succ n => exact Reads.expect_succ fun t _ => hb n t.span.stop

theorem reads_doEnd {b : Block} (hb : b.Reads) (n : Nat) :
    Reads n (grammar n).doEnd (.symbol .kwDo :: (b.lexemes ++ [.symbol .kwEnd])) (fun _ => True)
      (·.unplaced = b.unplaced) := by
  refine Reads.bind (reads_openBlock hb .kwDo n) (fun b' hb' => ?_) (EndsBlock.of_symbol rfl)
  exact Reads.expect fun _ _ => Reads.pure hb'

/-- An expression behind a keyword. -/
theorem Expr.ReadsBack.inner {e : Expr} (he : e.ReadsBack) (n : Nat) :
    Source.Reads n ((grammar (n + 1)).expr 0) e.lexemes Closes (·.unplaced = e.unplaced) :=
  he.1.closed he.2 n

/-- What may follow a statement. -/
abbrev BeforeSemicolon (kind : Option TokenKind) : Prop := kind = some .semicolon

theorem BeforeSemicolon.closes {kind : Option TokenKind} (h : BeforeSemicolon kind) :
    Closes kind := by
  subst h
  decide

/-! ### Names -/

theorem reads_name (x : Name) (n : Nat) :
    Reads n name [.name x.text] (fun _ => True) (·.unplaced = x.unplaced) := by
  rw [← bind_pure name]
  refine Reads.name fun a ha => Reads.pure ?_
  rw [Name.unplaced, ha, Name.unplaced]

theorem reads_names {names : List Name} (hne : names ≠ []) (n : Nat) :
    Reads n (commaList name) (nameLexemes names) (· ≠ some .comma)
      (·.map Name.unplaced = names.map Name.unplaced) := by
  obtain ⟨x, xs, rfl⟩ := List.exists_cons_of_ne_nil hne
  exact (reads_commaList (fun x _ => reads_name x n) trivial fun _ hk => ⟨trivial, hk⟩).weaken
    (fun _ hk => hk) fun _ => map_eq_map_of_forall₂

/-! ### Statements that start with a keyword -/

/-- A statement is read back before a semicolon. -/
def Stmt.Reads (s : Stmt) : Prop :=
  ∀ n, Source.Reads n (if s.isReturn then (grammar n).returnStmt else (grammar n).stmt) s.lexemes
    BeforeSemicolon (·.unplaced = s.unplaced)

theorem Stmt.reads_of_succ {s : Stmt} (hne : s.lexemes ≠ [])
    (h : ∀ n, Source.Reads (n + 1)
      (if s.isReturn then (grammar (n + 1)).returnStmt else (grammar (n + 1)).stmt) s.lexemes
      BeforeSemicolon (·.unplaced = s.unplaced)) : s.Reads := by
  intro n
  cases n with
  | zero => exact Source.Reads.zero hne
  | succ n => exact h n

theorem next_nameLexemes {names : List Name} (hne : names ≠ []) {ls : List Lexeme}
    {follow : Option TokenKind → Prop} {k : Option TokenKind}
    (h : Next follow (nameLexemes names ++ ls) k) : k = some .name := by
  obtain ⟨x, xs, rfl⟩ := List.exists_cons_of_ne_nil hne
  exact next_name.1 h

/-- Expressions up to the end of a statement. -/
theorem reads_exprList_stmt {es : List Expr} (hne : es ≠ []) (h : ∀ e ∈ es, e.ReadsBack) (n : Nat) :
    Reads n (grammar (n + 1)).exprList (commas (es.map Expr.lexemes)) BeforeSemicolon
      (·.map Expr.unplaced = es.map Expr.unplaced) := by
  refine (reads_exprList hne h n).weaken ?_ fun _ h => h
  rintro _ rfl
  decide

namespace Stmt.Reads

variable {names : List Name} {init : List Expr} {cond : Expr} {block : Block} {func : Function}
  (span : Span)

theorem localDecl (hnames : names ≠ []) (hinit : ∀ e ∈ init, e.ReadsBack) :
    (Stmt.localDecl names init span).Reads := by
  refine reads_of_succ (by cases init <;> exact List.cons_ne_nil _ _) fun n => ?_
  cases init with
  | nil =>
    refine Source.Reads.peek_symbol fun _ place => ?_
    refine Source.Reads.expect_succ fun _ _ => ?_
    rw [← List.append_nil (nameLexemes names)]
    refine Source.Reads.eat_none (fun _ hk => by simp [next_nameLexemes hnames hk]) ?_
    refine Source.Reads.bind (reads_names hnames n) (fun names' hnames' => ?_) fun _ hk => ?_
    · refine Source.Reads.eat_none (fun _ hk => by simp [show _ = _ from hk]) ?_
      refine Source.Reads.finish fun _ => Source.Reads.pure ?_
      simp only [Stmt.unplaced, hnames', unplacedExprs]
    · simp [show _ = _ from hk]
  | cons e es =>
    rw [Stmt.lexemes, exprLexemes_eq_map]
    refine Source.Reads.peek_symbol fun _ place => ?_
    refine Source.Reads.expect_succ fun _ _ => ?_
    refine Source.Reads.eat_none (fun _ hk => by simp [next_nameLexemes hnames hk]) ?_
    refine Source.Reads.bind (reads_names hnames n) (fun names' hnames' => ?_) fun _ hk => ?_
    · refine Source.Reads.eat_some fun _ _ => ?_
      refine Source.Reads.bind_nil (reads_exprList_stmt (List.cons_ne_nil _ _) hinit n)
        fun init' hinit' => ?_
      refine Source.Reads.finish fun _ => Source.Reads.pure ?_
      simp only [Stmt.unplaced, hnames', unplacedExprs_eq_map, hinit']
    · simp [next_symbol.1 hk]

theorem localFunction {name : String} {span' : Span} (hfunc : func.Reads) :
    (Stmt.functionDecl (.ident name span') true func span).Reads := by
  refine reads_of_succ (List.cons_ne_nil _ _) fun n => ?_
  refine Source.Reads.peek_symbol fun _ place => ?_
  refine Source.Reads.expect fun _ _ => Source.Reads.eat_some fun _ _ => ?_
  refine Source.Reads.name fun name' hname' => ?_
  refine Source.Reads.bind_nil ((hfunc _).weaken (fun _ _ => trivial) fun _ h => h)
    fun func' hfunc' => Source.Reads.finish fun _ => Source.Reads.pure ?_
  simp only [Stmt.unplaced, Expr.unplaced, hname', hfunc']

theorem whileLoop (hcond : cond.ReadsBack) (hblock : block.Reads) :
    (Stmt.whileLoop cond block span).Reads := by
  refine reads_of_succ (List.cons_ne_nil _ _) fun n => ?_
  refine Source.Reads.peek_symbol fun _ place => ?_
  refine Source.Reads.expect_succ fun _ _ => ?_
  refine Source.Reads.bind (hcond.inner n) (fun cond' hcond' => ?_) fun _ hk => ?_
  · refine Source.Reads.bind_nil (((reads_doEnd hblock (n + 1)).mono n.le_succ).weaken
      (fun _ _ => trivial) fun _ h => h) fun block' hblock' => ?_
    refine Source.Reads.finish fun _ => Source.Reads.pure ?_
    simp only [Stmt.unplaced, hcond', hblock']
  · rw [next_symbol.1 hk]
    decide

theorem repeatLoop (hblock : block.Reads) (hcond : cond.ReadsBack) :
    (Stmt.repeatLoop block cond span).Reads := by
  refine reads_of_succ (List.cons_ne_nil _ _) fun n => ?_
  refine Source.Reads.peek_symbol fun _ place => ?_
  refine Source.Reads.bind (reads_openBlock hblock .kwRepeat (n + 1)) (fun block' hblock' => ?_)
    (EndsBlock.of_symbol rfl)
  refine Source.Reads.expect_succ fun _ _ => ?_
  refine Source.Reads.bind_nil ((hcond.inner n).weaken (fun _ hk => hk.closes) fun _ h => h)
    fun cond' hcond' => Source.Reads.finish fun _ => Source.Reads.pure ?_
  simp only [Stmt.unplaced, hcond', hblock']

theorem doBlock (hblock : block.Reads) : (Stmt.doBlock block span).Reads := by
  intro n
  refine Source.Reads.peek_symbol fun _ place => ?_
  refine Source.Reads.bind_nil ((reads_doEnd hblock n).weaken (fun _ _ => trivial) fun _ h => h)
    fun block' hblock' => Source.Reads.finish fun _ => Source.Reads.pure ?_
  simp only [Stmt.unplaced, hblock']

theorem breakStmt : (Stmt.breakStmt span).Reads := by
  intro n
  refine Source.Reads.peek_symbol fun _ place => ?_
  refine Source.Reads.advance fun _ _ => ?_
  exact Source.Reads.finish fun _ => Source.Reads.pure rfl

theorem goto (label : String) : (Stmt.goto label span).Reads := by
  intro n
  refine Source.Reads.peek_symbol fun _ place => ?_
  refine Source.Reads.advance fun _ _ => ?_
  refine Source.Reads.name fun a ha => Source.Reads.finish fun _ => Source.Reads.pure ?_
  simp only [Stmt.unplaced, ha]

theorem label (name : String) : (Stmt.label name span).Reads := by
  intro n
  refine Source.Reads.peek_symbol fun _ place => ?_
  refine Source.Reads.advance fun _ _ => ?_
  refine Source.Reads.name fun a ha => Source.Reads.expect fun _ _ =>
    Source.Reads.finish fun _ => Source.Reads.pure ?_
  simp only [Stmt.unplaced, ha]

theorem returnStmt {values : List Expr} (hvalues : ∀ e ∈ values, e.ReadsBack) :
    (Stmt.returnStmt values span).Reads := by
  refine reads_of_succ (List.cons_ne_nil _ _) fun n => ?_
  rw [Stmt.lexemes, exprLexemes_eq_map]
  refine Source.Reads.expect_succ fun t _ => ?_
  refine Source.Reads.peekKind fun kind hkind => ?_
  cases values with
  | nil =>
    obtain rfl : kind = some .semicolon := hkind
    refine Source.Reads.finish fun _ => Source.Reads.pure ?_
    simp only [Stmt.unplaced, unplacedExprs]
  | cons e es =>
    have hopens : Opens (commas ((e :: es).map Expr.lexemes)) := opens_commas (List.cons_ne_nil _ _)
    have hends : Grammar.endsReturn kind = false := by
      obtain ⟨k, rfl, hk⟩ := startsExpr_of_next hopens hkind
      revert hk
      cases k <;> decide
    simp only [hends]
    refine Source.Reads.bind_nil (reads_exprList_stmt (List.cons_ne_nil _ _) hvalues n)
      fun values' hvalues' => Source.Reads.finish fun _ => Source.Reads.pure ?_
    simp only [Stmt.unplaced, unplacedExprs_eq_map, hvalues']

theorem forNumeric {start stop : Expr} {step : Option Expr} (var : Name) (hstart : start.ReadsBack)
    (hstop : stop.ReadsBack) (hstep : ∀ e ∈ step, e.ReadsBack) (hblock : block.Reads) :
    (Stmt.forNumeric var start stop step block span).Reads := by
  refine reads_of_succ (List.cons_ne_nil _ _) fun n => ?_
  refine Source.Reads.peek_symbol fun _ place => ?_
  refine Source.Reads.expect_succ fun _ _ => ?_
  refine Source.Reads.name fun var' hvar' => Source.Reads.eat_some fun _ _ => ?_
  refine Source.Reads.bind (hstart.inner n) (fun start' hstart' => ?_) fun _ hk => ?_
  swap
  · rw [next_symbol.1 hk]
    decide
  refine Source.Reads.expect fun _ _ => ?_
  have hloop : ∀ stop' step',
      stop'.unplaced = stop.unplaced → unplacedStep step' = unplacedStep step →
      Source.Reads n (do
        let block' ← (grammar (n + 1)).doEnd
        return Stmt.forNumeric var' start' stop' step' block' (← finish place))
        (.symbol .kwDo :: (block.lexemes ++ [.symbol .kwEnd])) BeforeSemicolon
        (·.unplaced = (Stmt.forNumeric var start stop step block span).unplaced) := by
    intro stop' step' hstop' hstep'
    refine Source.Reads.bind_nil (((reads_doEnd hblock (n + 1)).mono n.le_succ).weaken
      (fun _ _ => trivial) fun _ h => h) fun block' hblock' => ?_
    refine Source.Reads.finish fun _ => Source.Reads.pure ?_
    simp only [Stmt.unplaced, Name.unplaced, hvar', hstart', hstop', hstep', hblock']
  cases step with
  | none =>
    refine Source.Reads.bind (hstop.inner n) (fun stop' hstop' => ?_) fun _ hk => ?_
    · refine Source.Reads.eat_none (fun _ hk => by simp [next_symbol.1 hk]) ?_
      exact Source.Reads.pure_bind (hloop stop' none hstop' rfl)
    · rw [next_symbol.1 hk]
      decide
  | some step =>
    have hstep' : Source.Reads n (some <$> (grammar (n + 1)).expr 0) step.lexemes Closes
        fun o => unplacedStep o = unplacedStep (some step) :=
      Source.Reads.map (((hstep step rfl).inner n).weaken (fun _ hk => hk)
        fun _ ha => congrArg some ha)
    refine Source.Reads.bind (hstop.inner n) (fun stop' hstop' => ?_) fun _ hk => ?_
    · refine Source.Reads.eat_some fun _ _ => ?_
      refine Source.Reads.bind hstep' (fun step' hstep' => hloop stop' step' hstop' hstep')
        fun _ hk => ?_
      rw [next_symbol.1 hk]
      decide
    · rw [next_symbol.1 hk]
      decide

theorem forGeneric {vars : List Name} {iterators : List Expr} (hvars : vars ≠ [])
    (hne : iterators ≠ []) (hiterators : ∀ e ∈ iterators, e.ReadsBack) (hblock : block.Reads) :
    (Stmt.forGeneric vars iterators block span).Reads := by
  refine reads_of_succ (List.cons_ne_nil _ _) fun n => ?_
  obtain ⟨var, vars, rfl⟩ := List.exists_cons_of_ne_nil hvars
  rw [Stmt.lexemes, exprLexemes_eq_map, nameLexemes, commas_map_cons, List.append_assoc,
    List.singleton_append]
  refine Source.Reads.peek_symbol fun _ place => ?_
  refine Source.Reads.expect_succ fun _ _ => ?_
  refine Source.Reads.name fun var' hvar' => ?_
  refine Source.Reads.eat_none (fun k hk => ?_) ?_
  · cases vars <;> simp [next_symbol.1 hk]
  refine Source.Reads.bind (reads_many_behindComma (fun x _ => reads_name x n) trivial
    fun k hk => ⟨trivial, hk⟩) (fun others hothers => ?_) fun k hk => by simp [next_symbol.1 hk]
  refine Source.Reads.expect fun _ _ => ?_
  refine Source.Reads.bind (reads_exprList hne hiterators n) (fun iterators' hiterators' => ?_)
    fun k hk => ?_
  · refine Source.Reads.bind_nil (((reads_doEnd hblock (n + 1)).mono n.le_succ).weaken
      (fun _ _ => trivial) fun _ h => h) fun block' hblock' => ?_
    refine Source.Reads.finish fun _ => Source.Reads.pure ?_
    simp only [Stmt.unplaced, List.map_cons, Name.unplaced, hvar', hblock', unplacedExprs_eq_map,
      hiterators', map_eq_map_of_forall₂ hothers]
  · rw [next_symbol.1 hk]
    decide

end Stmt.Reads

/-! ### Conditionals -/

/-- A clause is read back before the next one, `else` or `end`. -/
def Clause.Reads (c : Clause) : Prop :=
  ∀ n, Source.Reads n (grammar n).clause? c.lexemes EndsBlock
    fun o => ∃ a, o = some a ∧ a.unplaced = c.unplaced

theorem Clause.reads {cond : Expr} {block : Block} (hcond : cond.ReadsBack) (hblock : block.Reads) :
    (Clause.mk cond block).Reads := by
  intro n
  cases n with
  | zero => exact Source.Reads.zero (List.cons_ne_nil _ _)
  | succ n =>
    refine Source.Reads.eat_some_succ fun _ _ => ?_
    refine Source.Reads.bind (hcond.inner n) (fun cond' hcond' => ?_) fun k hk => ?_
    · refine Source.Reads.bind_nil ((reads_openBlock hblock .kwThen (n + 1)).mono n.le_succ)
        fun block' hblock' => Source.Reads.pure ⟨_, rfl, ?_⟩
      simp only [Clause.unplaced, hcond', hblock']
    · rw [next_symbol.1 hk]
      decide

/-- What stands behind the clauses. -/
def EndsClauses (kind : Option TokenKind) : Prop := kind = some .kwElse ∨ kind = some .kwEnd

theorem EndsClauses.endsBlock {kind : Option TokenKind} (h : EndsClauses kind) :
    EndsBlock kind := by
  rcases h with rfl | rfl <;> rfl

theorem reads_many_clause? {clauses : List Clause} (h : ∀ c ∈ clauses, c.Reads) (n : Nat) :
    Reads n (many (grammar n).clause?) (clauseLexemes clauses) EndsClauses
      (unplacedClauses · = unplacedClauses clauses) := by
  refine ReadsMany.many ?_
  suffices hmany : ∀ post : List Clause → Prop,
      (∀ cs, unplacedClauses cs = unplacedClauses clauses → post cs) →
      ReadsMany n (grammar n).clause? (clauseLexemes clauses) EndsClauses post from
    hmany _ fun _ h => h
  induction clauses with
  | nil =>
    intro post hpost
    refine ReadsMany.nil (Reads.eat_none (fun k hk => ?_) ?_) (hpost [] rfl)
    · rcases hk with rfl | rfl <;> decide
    · exact Reads.pure rfl
  | cons c cs ih =>
    intro post hpost
    refine ReadsMany.cons (by cases c; exact List.cons_ne_nil _ _) (h c List.mem_cons_self n)
      (fun a ha => ?_) fun k hk => ?_
    · refine ih (fun c' hc' => h c' (List.mem_cons_of_mem c hc')) _ fun as has => hpost _ ?_
      rw [unplacedClauses, unplacedClauses, ha, has]
    · cases cs with
      | nil => exact EndsClauses.endsBlock hk
      | cons c' cs =>
        cases c'
        rw [next_symbol.1 hk]
        rfl

namespace Stmt.Reads

theorem ifStmt {cond : Expr} {thenBlock : Block} {clauses : List Clause} {elseBlock : Option Block}
    (span : Span) (hcond : cond.ReadsBack) (hthen : thenBlock.Reads)
    (hclauses : ∀ c ∈ clauses, c.Reads) (helse : ∀ b ∈ elseBlock, b.Reads) :
    (Stmt.ifStmt cond thenBlock clauses elseBlock span).Reads := by
  refine reads_of_succ (List.cons_ne_nil _ _) fun n => ?_
  refine Source.Reads.peek_symbol fun _ place => ?_
  refine Source.Reads.expect_succ fun _ _ => ?_
  refine Source.Reads.bind (hcond.inner n) (fun cond' hcond' => ?_) fun k hk => ?_
  swap
  · rw [next_symbol.1 hk]
    decide
  have hnext : ∀ k, Next BeforeSemicolon (elseLexemes elseBlock ++ [.symbol .kwEnd]) k →
      EndsClauses k := by
    intro k hk
    cases elseBlock with
    | none => exact .inr (next_symbol.1 hk)
    | some b => exact .inl (next_symbol.1 hk)
  refine Source.Reads.bind ((reads_openBlock hthen .kwThen (n + 1)).mono n.le_succ)
    (fun then' hthen' => ?_) fun k hk => ?_
  swap
  · cases clauses with
    | nil => exact (hnext k hk).endsBlock
    | cons c cs =>
      cases c
      rw [next_symbol.1 hk]
      rfl
  refine Source.Reads.bind ((reads_many_clause? hclauses (n + 1)).mono n.le_succ)
    (fun clauses' hclauses' => ?_) hnext
  have hend : ∀ else', unplacedElse else' = unplacedElse elseBlock →
      Source.Reads n (do
        let _ ← expect .kwEnd
        return Stmt.ifStmt cond' then' clauses' else' (← finish place)) [.symbol .kwEnd]
        BeforeSemicolon
        (·.unplaced = (Stmt.ifStmt cond thenBlock clauses elseBlock span).unplaced) := by
    intro else' helse'
    refine Source.Reads.expect fun _ _ => Source.Reads.finish fun _ => Source.Reads.pure ?_
    simp only [Stmt.unplaced, hcond', hthen', hclauses', helse']
  cases elseBlock with
  | none =>
    refine Source.Reads.eat_none (fun k hk => by simp [next_symbol.1 hk]) ?_
    exact Source.Reads.pure_bind (hend none rfl)
  | some b =>
    refine Source.Reads.eat_some fun t' _ => ?_
    have hblock : Source.Reads n (some <$> (grammar (n + 1)).block t'.span.stop) b.lexemes
        EndsBlock fun o => unplacedElse o = unplacedElse (some b) :=
      Source.Reads.map ((helse b rfl n t'.span.stop).weaken (fun _ hk => hk)
        fun _ hb' => congrArg some hb')
    exact Source.Reads.bind hblock hend (EndsBlock.of_symbol rfl)

end Stmt.Reads

/-! ### Bases -/

namespace Expr

variable {e : Expr}

theorem isBase_of_isPath (h : e.isPath) : e.isBase := by
  cases e <;> first | rfl | cases h

theorem isBase_of_isCall (h : e.isCall) : e.isBase := by
  cases e <;> first | rfl | cases h

theorem isBase_of_isAssignable (h : e.isAssignable) : e.isBase := by
  cases e <;> first | rfl | cases h

end Expr

/-! ### Declared functions -/

/-- A path is a name and steps behind it. -/
theorem Expr.exists_reads_of_isPath : ∀ path : Expr, path.isPath →
    ∃ s ls, path.lexemes = .name s :: ls ∧ ∀ n (first : Expr), first.unplaced = .ident s .unknown →
      ReadsTo n dotStep? (iterate dotStep? first) ls (fun _ => True) (·.unplaced = path.unplaced)
  | .ident s span, _ => ⟨s, [], rfl, fun _ _ hfirst => ReadsTo.iterate hfirst⟩
  | .member base .dot name span, h => by
    obtain ⟨s, ls, hls, hread⟩ := base.exists_reads_of_isPath h
    have hbase : base.isBase := Expr.isBase_of_isPath h
    refine ⟨s, ls ++ [.symbol .dot, .name name.text], ?_, fun n first hfirst => ?_⟩
    · simp [Expr.lexemes, hbase, parenthesized, hls, Indexer.kind]
    · refine (hread n first hfirst).next (List.cons_ne_nil _ _) (fun path hpath => ?_)
        fun _ _ => trivial
      refine Reads.eat_some fun _ _ => ?_
      refine Reads.name fun name' hname' => Reads.finish fun _ => Reads.pure ⟨_, rfl, ?_⟩
      simp only [Expr.unplaced, hpath, Name.unplaced, hname']

theorem reads_functionName {e : Expr} (h : e.isFunctionName) (n : Nat) :
    Reads n functionName e.lexemes (· = some .leftParen) (·.unplaced = e.unplaced) := by
  have hpath : ∀ path : Expr, path.isPath → ∃ s ls, path.lexemes = .name s :: ls ∧
      ∀ n (first : Expr), first.unplaced = .ident s .unknown →
        Reads n (iterate dotStep? first) ls (· ≠ some .dot) (·.unplaced = path.unplaced) := by
    intro path hpath
    obtain ⟨s, ls, hls, hread⟩ := path.exists_reads_of_isPath hpath
    refine ⟨s, ls, hls, fun n first hfirst => ?_⟩
    refine (hread n first hfirst).stop (fun _ _ => trivial) fun a _ => ?_
    refine Reads.eat_none (fun _ hk => hk) ?_
    exact Reads.pure rfl
  by_cases hmethod : e.isMethod
  · obtain ⟨base, name, span, rfl⟩ : ∃ base name span, e = .member base .colon name span := by
      cases e with
      | member base indexer name span =>
        cases indexer with
        | dot => cases hmethod
        | colon => exact ⟨base, name, span, rfl⟩
      | _ => cases hmethod
    obtain ⟨s, ls, hls, hread⟩ := hpath base h
    have hbase : base.isBase := Expr.isBase_of_isPath h
    have hlexemes : (Expr.member base .colon name span).lexemes =
        .name s :: (ls ++ [.symbol .colon, .name name.text]) := by
      simp [Expr.lexemes, hbase, parenthesized, hls, Indexer.kind]
    rw [hlexemes]
    refine Reads.name fun first hfirst => ?_
    refine Reads.bind (hread n _ (by rw [Expr.unplaced, hfirst])) (fun path hpath => ?_)
      fun _ hk => by simp [next_symbol.1 hk]
    refine Reads.eat_some fun _ _ => ?_
    refine Reads.name fun name' hname' => Reads.finish fun _ => Reads.pure ?_
    simp only [Expr.unplaced, hpath, Name.unplaced, hname']
  · have hisPath : e.isPath := by
      cases e with
      | member base indexer name span =>
        cases indexer with
        | dot => exact h
        | colon => exact absurd rfl hmethod
      | _ => exact h
    obtain ⟨s, ls, hls, hread⟩ := hpath e hisPath
    rw [hls]
    refine Reads.name fun first hfirst => ?_
    refine Reads.bind_nil ((hread n _ (by rw [Expr.unplaced, hfirst])).weaken
      (fun _ hk => by simp [show _ = _ from hk]) fun _ h => h) fun path hpath => ?_
    refine Reads.eat_none (fun _ hk => by simp [show _ = _ from hk]) ?_
    exact Reads.pure hpath

theorem next_functionLexemes (f : Function) (ls : List Lexeme) {follow : Option TokenKind → Prop}
    {k : Option TokenKind} (h : Next follow (f.lexemes ++ ls) k) : k = some .leftParen := by
  cases f
  exact next_symbol.1 h

namespace Stmt.Reads

theorem functionDecl {name : Expr} {func : Function} (span : Span) (hname : name.isFunctionName)
    (hfunc : func.Reads) : (Stmt.functionDecl name false func span).Reads := by
  intro n
  refine Source.Reads.peek_symbol fun _ place => ?_
  refine Source.Reads.expect fun _ _ => ?_
  refine Source.Reads.bind (reads_functionName hname n) (fun name' hname' => ?_) fun k hk => ?_
  · refine Source.Reads.bind_nil ((hfunc n).weaken (fun _ _ => trivial) fun _ h => h)
      fun func' hfunc' => Source.Reads.finish fun _ => Source.Reads.pure ?_
    simp only [Stmt.unplaced, hname', hfunc']
  · exact next_functionLexemes func [] (by simpa using hk)

/-! ### Statements that start with an expression -/

theorem isAssignable_of_unplaced {e e' : Expr} (h : e'.unplaced = e.unplaced) :
    e'.isAssignable = e.isAssignable := by
  cases e <;> cases e' <;> first | rfl | cases h

theorem isCall_of_unplaced {e e' : Expr} (h : e'.unplaced = e.unplaced) : e'.isCall = e.isCall := by
  cases e <;> cases e' <;> first | rfl | cases h

/-- A base is read back up to what is none of its suffixes. -/
theorem reads_suffixed {e : Expr} (he : e.ReadsBack) (hbase : e.isBase) (n : Nat) :
    Source.Reads n (grammar n).suffixed e.lexemes Unsuffixed (·.unplaced = e.unplaced) := by
  have hread := he.1.suffixed he.2 n
  rw [hbase] at hread
  exact hread.stop (fun _ _ => trivial) fun a _ => reads_suffix?_none a

/-- What starts like a name or a parenthesis is an assignment or a call. -/
theorem reads_stmt_of_exprStmt {ls : List Lexeme} {follow : Option TokenKind → Prop}
    {post : Stmt → Prop} {g : Grammar} {n : Nat} (hls : OpensBase ls)
    (h : ∀ span, Source.Reads n (g.exprStmt span) ls follow post) :
    Source.Reads n g.stmt ls follow post := by
  cases ls with
  | nil => cases hls
  | cons l ls =>
    refine Source.Reads.peek_cons fun t ht => ?_
    rcases hls.kind ht with hkind | hkind <;> simpa only [hkind] using h t.span

theorem call {call : Expr} (span : Span) (hcall : call.isCall) (h : call.ReadsBack) :
    (Stmt.call call span).Reads := by
  intro n
  have hbase : call.isBase := Expr.isBase_of_isCall hcall
  refine reads_stmt_of_exprStmt (call.opensBase_lexemes hbase) fun start => ?_
  refine Source.Reads.bind_nil ((reads_suffixed h hbase n).weaken (fun _ hk => hk.closes.1)
    fun _ h => h) fun call' hcall' => ?_
  refine Source.Reads.check_false (fun _ hk => by simp [show _ = _ from hk]) ?_
  refine Source.Reads.check_false (fun _ hk => by simp [show _ = _ from hk]) ?_
  simp only [Bool.or_self, Bool.false_eq_true, if_false, isCall_of_unplaced hcall', hcall, if_true]
  refine Source.Reads.finish fun _ => Source.Reads.pure ?_
  simp only [Stmt.unplaced, hcall']

/-- The other targets and the values of an assignment. -/
theorem reads_assign_others {target target' : Expr} {targets init : List Expr} (span start : Span)
    (htarget' : target'.unplaced = target.unplaced)
    (hassign : ∀ e ∈ target :: targets, e.isAssignable)
    (hsuffixed : ∀ n, ∀ e ∈ targets, Source.Reads n (grammar n).suffixed e.lexemes Unsuffixed
      (·.unplaced = e.unplaced))
    (hne : init ≠ []) (hinit : ∀ e ∈ init, e.ReadsBack) (n : Nat) :
    Source.Reads (n + 1) (do
        let others ← many (behindComma (grammar (n + 1)).suffixed)
        match (target' :: others).find? fun e => !e.isAssignable with
        | some e => throw (.invalidTarget e.span)
        | none =>
          let _ ← expect .equal
          let init ← (grammar (n + 1)).exprList
          return Stmt.assign (target' :: others) init (← finish start))
      ((targets.flatMap fun e => .symbol .comma :: e.lexemes) ++
        .symbol .equal :: commas (init.map Expr.lexemes)) BeforeSemicolon
      (·.unplaced = (Stmt.assign (target :: targets) init span).unplaced) := by
  have hothers : Source.Reads (n + 1) (many (behindComma (grammar (n + 1)).suffixed))
      (targets.flatMap fun e => .symbol .comma :: e.lexemes) (· = some .equal)
      (List.Forall₂ (fun a e : Expr => a.unplaced = e.unplaced) · targets) := by
    refine reads_many_behindComma (hsuffixed (n + 1)) rfl ?_
    rintro _ rfl
    exact ⟨rfl, by decide⟩
  refine Source.Reads.bind hothers (fun others hothers' => ?_) fun k hk => next_symbol.1 hk
  have hall : (target' :: others).map Expr.unplaced = (target :: targets).map Expr.unplaced :=
    map_eq_map_of_forall₂ (.cons htarget' hothers')
  have hfind : (target' :: others).find? (fun e => !e.isAssignable) = none := by
    rw [List.find?_eq_none]
    intro e' he'
    have hmem : e'.unplaced ∈ (target :: targets).map Expr.unplaced :=
      hall ▸ List.mem_map_of_mem he'
    obtain ⟨e, he, hee'⟩ := List.mem_map.1 hmem
    simp [isAssignable_of_unplaced hee'.symm, hassign e he]
  rw [hfind]
  refine Source.Reads.expect_succ fun _ _ => ?_
  refine Source.Reads.bind_nil (reads_exprList_stmt hne hinit n) fun init' hinit' => ?_
  refine Source.Reads.finish fun _ => Source.Reads.pure ?_
  simp only [Stmt.unplaced, unplacedExprs_eq_map, hall, hinit']

theorem assign {targets init : List Expr} (span : Span) (htargets : targets ≠ [])
    (hassign : ∀ e ∈ targets, e.isAssignable) (hread : ∀ e ∈ targets, e.ReadsBack)
    (hne : init ≠ []) (hinit : ∀ e ∈ init, e.ReadsBack) :
    (Stmt.assign targets init span).Reads := by
  have hbase : ∀ e ∈ targets, e.isBase := fun e he => Expr.isBase_of_isAssignable (hassign e he)
  have hsuffixed : ∀ n, ∀ e ∈ targets, Source.Reads n (grammar n).suffixed e.lexemes Unsuffixed
      (·.unplaced = e.unplaced) := fun n e he => reads_suffixed (hread e he) (hbase e he) n
  obtain ⟨target, targets, rfl⟩ := List.exists_cons_of_ne_nil htargets
  have hopens : OpensBase target.lexemes :=
    target.opensBase_lexemes (hbase target List.mem_cons_self)
  have hlexemes : (Stmt.assign (target :: targets) init span).lexemes = target.lexemes ++
      ((targets.flatMap fun e => .symbol .comma :: e.lexemes) ++
        .symbol .equal :: commas (init.map Expr.lexemes)) := by
    rw [Stmt.lexemes, exprLexemes_eq_map, exprLexemes_eq_map, commas_map_cons, List.append_assoc]
  refine reads_of_succ (by rw [hlexemes]; simp [(target.opens_lexemes).ne_nil]) fun n => ?_
  rw [hlexemes]
  refine reads_stmt_of_exprStmt hopens.append fun start => ?_
  -- The tokens behind the first target tell that it is one.
  refine Source.Reads.bind (hsuffixed (n + 1) target List.mem_cons_self)
    (fun target' htarget' => ?_)
    fun k hk => ?_
  swap
  · cases targets <;> rw [next_symbol.1 hk] <;> rfl
  have hrest := reads_assign_others span start htarget' hassign
    (fun m e he => hsuffixed m e (List.mem_cons_of_mem target he)) hne hinit n
  cases targets with
  | nil =>
    refine Source.Reads.check_true (fun k hk => next_symbol.1 hk) ?_
    refine Source.Reads.check_false (fun k hk => by simp [next_symbol.1 hk]) ?_
    exact hrest
  | cons e es =>
    refine Source.Reads.check_false (fun k hk => by simp [next_symbol.1 hk]) ?_
    refine Source.Reads.check_true (fun k hk => next_symbol.1 hk) ?_
    exact hrest

end Stmt.Reads

/-! ### Blocks -/

/-- How statements start. -/
def startsStmt (kind : TokenKind) : Bool :=
  [.kwLocal, .kwFunction, .kwIf, .kwWhile, .kwFor, .kwRepeat, .kwDo, .kwBreak, .kwGoto,
    .doubleColon, .name, .leftParen].contains kind

theorem startsStmt_of_opensBase {ls : List Lexeme} (h : OpensBase ls)
    {follow : Option TokenKind → Prop} {k : Option TokenKind} (hk : Next follow ls k) :
    ∃ kind, k = some kind ∧ startsStmt kind := by
  cases ls with
  | nil => cases h
  | cons l ls =>
    obtain ⟨t, ht, rfl⟩ := hk
    refine ⟨t.kind, rfl, ?_⟩
    rcases h.kind ht with hkind | hkind <;> rw [hkind] <;> rfl

/-- The first token of a statement tells whether it is `return`. -/
theorem Stmt.kind_of_next {s : Stmt} (hs : s.WellFormed) (ls : List Lexeme)
    {follow : Option TokenKind → Prop} {k : Option TokenKind}
    (hk : Next follow (s.lexemes ++ ls) k) :
    ∃ kind, k = some kind ∧ if s.isReturn then kind = .kwReturn else startsStmt kind := by
  cases s with
  | assign targets init =>
    obtain ⟨hne, hassign, -⟩ := hs
    obtain ⟨e, es, rfl⟩ := List.exists_cons_of_ne_nil hne
    have hbase : e.isBase := Expr.isBase_of_isAssignable (hassign e List.mem_cons_self)
    have hopens : OpensBase ((Stmt.assign (e :: es) init ‹_›).lexemes ++ ls) := by
      rw [Stmt.lexemes, exprLexemes_eq_map, commas_map_cons]
      exact (e.opensBase_lexemes hbase).append.append.append
    exact startsStmt_of_opensBase hopens hk
  | call call =>
    have hbase : call.isBase := Expr.isBase_of_isCall hs.1
    exact startsStmt_of_opensBase (call.opensBase_lexemes hbase).append hk
  | localDecl names init =>
    refine ⟨.kwLocal, ?_, rfl⟩
    cases init <;> exact next_symbol.1 hk
  | functionDecl name isLocal =>
    cases isLocal with
    | true => exact ⟨_, next_symbol.1 hk, rfl⟩
    | false => exact ⟨_, next_symbol.1 hk, rfl⟩
  | _ => exact ⟨_, next_symbol.1 hk, rfl⟩

theorem Stmt.lexemes_ne_nil {s : Stmt} (hs : s.WellFormed) : s.lexemes ≠ [] := by
  intro h
  have hnext : Next (· = none) (s.lexemes ++ []) none := by
    rw [h]
    rfl
  obtain ⟨_, hkind, -⟩ := s.kind_of_next hs [] hnext
  cases hkind

/-- Semicolons before what is read. -/
theorem reads_skip {kind : TokenKind} {α : Type} {f : Unit → Parser α} {before ls : List Lexeme}
    {follow : Option TokenKind → Prop} {post : α → Prop}
    (hbefore : before = [] ∨ before = [.symbol kind])
    (hne : ∀ k, Next follow ls k → k ≠ some kind) (h : Reads n (f ()) ls follow post) :
    Reads n (skip kind >>= f) (before ++ ls) follow post := by
  rcases hbefore with rfl | rfl
  · exact Reads.skip_nil hne h
  · exact Reads.skip_cons hne h

section Statements

variable {before : List Lexeme} (hbefore : before = [] ∨ before = [.symbol .semicolon])

include hbefore

/-- A block ends where no statement starts. -/
theorem reads_stmt?_none : Reads n g.stmt? before EndsBlock (· = none) := by
  rw [← List.append_nil before]
  refine reads_skip hbefore (fun k hk => ?_) ?_
  · rintro rfl
    cases hk
  · refine Reads.peek_nil fun o ho => ?_
    cases o with
    | none => exact Reads.pure rfl
    | some t =>
      simp only [show t.kind.endsBlock = true from ho, if_true]
      exact Reads.pure rfl

theorem reads_stmt?_some {s : Stmt} (hs : s.WellFormed) (hreturn : s.isReturn = false)
    (h : s.Reads) (n : Nat) :
    Reads n (grammar n).stmt? (before ++ s.lexemes) BeforeSemicolon
      fun o => ∃ a, o = some a ∧ a.unplaced = s.unplaced := by
  have hkind : ∀ k, Next BeforeSemicolon s.lexemes k → ∃ kind, k = some kind ∧ startsStmt kind := by
    intro k hk
    rw [← List.append_nil s.lexemes] at hk
    simpa [hreturn] using s.kind_of_next hs [] hk
  have hread := h n
  simp only [hreturn, Bool.false_eq_true, if_false] at hread
  refine reads_skip hbefore (fun k hk => ?_) ?_
  · obtain ⟨kind, rfl, hstarts⟩ := hkind k hk
    rintro ⟨⟩
    cases hstarts
  · obtain ⟨l, ls, hls⟩ := List.exists_cons_of_ne_nil (Stmt.lexemes_ne_nil hs)
    rw [hls] at hread hkind ⊢
    refine Reads.peek_cons fun t ht => ?_
    obtain ⟨_, ⟨⟩, hstarts⟩ := hkind (some t.kind) ⟨t, ht, rfl⟩
    have hends : t.kind.endsBlock = false := by
      revert hstarts
      cases t.kind <;> decide
    have hkw : t.kind ≠ .kwReturn := by
      intro hkw
      rw [hkw] at hstarts
      cases hstarts
    simp only [hends, Bool.false_eq_true, if_false, hkw]
    exact Reads.bind_nil hread fun a ha => Reads.pure ⟨a, rfl, ha⟩

/-- `return` takes its semicolon, and the block ends behind it. -/
theorem reads_stmt?_return {s : Stmt} (hs : s.WellFormed) (hreturn : s.isReturn) (h : s.Reads)
    (n : Nat) :
    Reads n (grammar n).stmt? (before ++ (s.lexemes ++ [.symbol .semicolon])) EndsBlock
      fun o => ∃ a, o = some a ∧ a.unplaced = s.unplaced := by
  have hkind : ∀ k, Next EndsBlock (s.lexemes ++ [.symbol .semicolon]) k → k = some .kwReturn := by
    intro k hk
    obtain ⟨kind, rfl, hkind⟩ := s.kind_of_next hs _ hk
    rw [if_pos hreturn] at hkind
    rw [hkind]
  have hread := h n
  simp only [hreturn, if_true] at hread
  refine reads_skip hbefore (fun k hk => by simp [hkind k hk]) ?_
  obtain ⟨l, ls, hls⟩ := List.exists_cons_of_ne_nil (Stmt.lexemes_ne_nil hs)
  rw [hls] at hread hkind ⊢
  refine Reads.peek_cons fun t ht => ?_
  have ht' : t.kind = .kwReturn := Option.some.inj (hkind (some t.kind) ⟨t, ht, rfl⟩)
  have hends : TokenKind.endsBlock .kwReturn = false := rfl
  simp only [ht', hends, Bool.false_eq_true, if_false, if_true]
  refine Reads.bind hread (fun a ha => ?_) fun _ hk => next_symbol.1 hk
  refine Reads.eat_some fun _ _ => Reads.peek_nil fun o ho => ?_
  cases o with
  | none => exact Reads.pure ⟨a, rfl, ha⟩
  | some next =>
    simp only [show next.kind.endsBlock = true from ho, if_true]
    exact Reads.pure ⟨a, rfl, ha⟩

end Statements

theorem readsMany_stmt? : ∀ (stmts : List Stmt), WellFormedStmts stmts → (∀ s ∈ stmts, s.Reads) →
    ∀ (n : Nat) (before : List Lexeme), before = [] ∨ before = [.symbol .semicolon] →
      ∀ post : List Stmt → Prop, (∀ ss, unplacedStmts ss = unplacedStmts stmts → post ss) →
        ReadsMany n (grammar n).stmt? (before ++ stmtLexemes stmts) EndsBlock post
  | [], _, _, n, before, hbefore, post, hpost => by
    rw [stmtLexemes, List.append_nil]
    exact ReadsMany.nil (reads_stmt?_none hbefore) (hpost [] rfl)
  | s :: ss, ⟨hlast, hs, hss⟩, h, n, before, hbefore, post, hpost => by
    have hread := h s List.mem_cons_self
    have htail := readsMany_stmt? ss hss (fun s' hs' => h s' (List.mem_cons_of_mem s hs')) n
    have hpost' : ∀ a : Stmt, a.unplaced = s.unplaced → ∀ as, unplacedStmts as = unplacedStmts ss →
        post (a :: as) := by
      intro a ha as has
      refine hpost _ ?_
      rw [unplacedStmts, unplacedStmts, ha, has]
    cases hreturn : s.isReturn with
    | true =>
      obtain rfl : ss = [] := hlast hreturn
      have hlexemes : before ++ stmtLexemes [s] =
          (before ++ (s.lexemes ++ [.symbol .semicolon])) ++ ([] ++ stmtLexemes []) := by
        simp [stmtLexemes]
      rw [hlexemes]
      exact ReadsMany.cons (by simp) (reads_stmt?_return hbefore hs hreturn hread n)
        (fun a ha => htail [] (.inl rfl) _ (hpost' a ha)) fun _ hk => hk
    | false =>
      have hlexemes : before ++ stmtLexemes (s :: ss) =
          (before ++ s.lexemes) ++ ([.symbol .semicolon] ++ stmtLexemes ss) := by
        simp [stmtLexemes]
      rw [hlexemes]
      exact ReadsMany.cons (by simp [Stmt.lexemes_ne_nil hs])
        (reads_stmt?_some hbefore hs hreturn hread n)
        (fun a ha => htail _ (.inr rfl) _ (hpost' a ha)) fun _ hk => next_symbol.1 hk

theorem Block.reads {start : Nat} {stmts : List Stmt} (hstmts : WellFormedStmts stmts)
    (h : ∀ s ∈ stmts, s.Reads) : (Block.mk start stmts).Reads := by
  intro n offset
  have hmany := readsMany_stmt? stmts hstmts h n [] (.inl rfl)
    (unplacedStmts · = unplacedStmts stmts) fun _ h => h
  refine Source.Reads.bind_nil hmany.many fun stmts' hstmts' => Source.Reads.pure ?_
  rw [Block.unplaced, Block.unplaced, hstmts']

/-! ### Well-formed trees -/

theorem Expr.WellFormed.isMethod {e : Expr} (h : e.WellFormed false) : e.isMethod = false := by
  cases e with
  | member _ indexer =>
    cases indexer with
    | dot => rfl
    | colon => rcases h.1 with h | h <;> cases h
  | _ => rfl

-- The induction is on the tree. Only what is called may be a method, so an expression is read for
-- both uses.
mutual

theorem readsExpr : ∀ (e : Expr) (called : Bool), e.WellFormed called → e.Reads
  | .ident name span, _, _ =>
    .of_suffixed rfl fun n => ReadsTo.start (reads_primary_name name span n)
  | .literal value _, _, _ => .of_operand rfl fun _ => reads_operand_literal value fun _ => rfl
  | .member base .dot name span, _, h =>
    .member span name (readsExpr base false h.2) h.2.isMethod
  | .member base .colon name span, _, h =>
    .method span name (readsExpr base false h.2) h.2.isMethod
  | .index base i span, _, h =>
    .index span (readsExpr base false h.1) h.1.isMethod ⟨readsExpr i false h.2, h.2.isMethod⟩
  | .unary op operand span, _, h => .prefixed op span (readsExpr operand false h) h.isMethod
  | .binary lhs op rhs _, _, h =>
    .operator (.binary op) (readsExpr lhs false h.1) h.1.isMethod (readsExpr rhs false h.2)
      h.2.isMethod rfl rfl fun l r hl hr => by simp only [InfixOp.apply, Expr.unplaced, hl, hr]
  | .logical lhs op rhs _, _, h =>
    .operator (.logical op) (readsExpr lhs false h.1) h.1.isMethod (readsExpr rhs false h.2)
      h.2.isMethod rfl rfl fun l r hl hr => by simp only [InfixOp.apply, Expr.unplaced, hl, hr]
  | .table fields span, _, h => by
    have hread := reads_table span (readsFields fields h)
    exact .of_operand rfl fun n =>
      (reads_operand_table (hread n)).weaken (fun _ _ => trivial) fun _ h => h
  | .call base args span, _, h => .call span (readsExpr base true h.1) (readsExprs args h.2)
  | .stringCall base (.literal (.string _) _) span, _, h =>
    .stringCall span (readsExpr base true h.1)
  | .tableCall base (.table fields span') span, _, h =>
    .tableCall span (readsExpr base true h.1) (reads_table span' (readsFields fields h.2.2))
  | .function func _, _, h =>
    .of_operand rfl fun n =>
      (reads_operand_function (readsFunction func h n)).weaken (fun _ _ => trivial) fun _ h => h

theorem readsExprs : ∀ es : List Expr, WellFormedExprs es →
    ∀ e ∈ es, e.ReadsBack
  | [], _ => fun _ h => nomatch h
  | e :: es, h => List.forall_mem_cons.2 ⟨⟨readsExpr e false h.1, h.1.isMethod⟩, readsExprs es h.2⟩

theorem readsField : ∀ f : Field, f.WellFormed → f.Reads
  | .keyed key value span, h =>
    .keyed span ⟨readsExpr key false h.1, h.1.isMethod⟩ ⟨readsExpr value false h.2, h.2.isMethod⟩
  | .named key value span, h =>
    .named span key ⟨readsExpr value false h, Expr.WellFormed.isMethod h⟩
  | .positional value span, h =>
    .positional span ⟨readsExpr value false h, Expr.WellFormed.isMethod h⟩

theorem readsFields : ∀ fs : List Field, WellFormedFields fs → ∀ f ∈ fs, f.Reads
  | [], _ => fun _ h => nomatch h
  | f :: fs, h => List.forall_mem_cons.2 ⟨readsField f h.1, readsFields fs h.2⟩

theorem readsFunction : ∀ f : Function, f.WellFormed → f.Reads
  | .mk _ body, h => Function.reads h.1 (readsBlock body h.2)

theorem readsBlock : ∀ b : Block, b.WellFormed → b.Reads
  | .mk _ stmts, h => Block.reads h (readsStmts stmts h)

theorem readsStmts : ∀ ss : List Stmt, WellFormedStmts ss → ∀ s ∈ ss, s.Reads
  | [], _ => fun _ h => nomatch h
  | s :: ss, h => List.forall_mem_cons.2 ⟨readsStmt s h.2.1, readsStmts ss h.2.2⟩

theorem readsClause : ∀ c : Clause, c.WellFormed → c.Reads
  | .mk cond block, h =>
    Clause.reads ⟨readsExpr cond false h.1, h.1.isMethod⟩ (readsBlock block h.2)

theorem readsClauses : ∀ cs : List Clause, WellFormedClauses cs → ∀ c ∈ cs, c.Reads
  | [], _ => fun _ h => nomatch h
  | c :: cs, h => List.forall_mem_cons.2 ⟨readsClause c h.1, readsClauses cs h.2⟩

theorem readsElse : ∀ b : Option Block, WellFormedElse b → ∀ b' ∈ b, b'.Reads
  | none, _ => fun _ h => nomatch h
  | some b, h => by
    rintro _ ⟨⟩
    exact readsBlock b h

theorem readsStep : ∀ e : Option Expr, WellFormedStep e → ∀ e' ∈ e, e'.ReadsBack
  | none, _ => fun _ h => nomatch h
  | some e, h => by
    rintro _ ⟨⟩
    exact ⟨readsExpr e false h, Expr.WellFormed.isMethod h⟩

theorem readsStmt : ∀ s : Stmt, s.WellFormed → s.Reads
  | .localDecl _ init span, h => .localDecl span h.1 (readsExprs init h.2)
  | .assign targets init span, h =>
    .assign span h.1 h.2.1 (readsExprs targets h.2.2.1) h.2.2.2.1 (readsExprs init h.2.2.2.2)
  | .call call span, h => .call span h.1 ⟨readsExpr call false h.2, h.2.isMethod⟩
  | .functionDecl (.ident _ _) true func span, h => .localFunction span (readsFunction func h.2)
  | .functionDecl _ false func span, h => .functionDecl span h.1 (readsFunction func h.2)
  | .returnStmt values span, h => .returnStmt span (readsExprs values h)
  | .ifStmt cond thenBlock clauses elseBlock span, h =>
    .ifStmt span ⟨readsExpr cond false h.1, h.1.isMethod⟩ (readsBlock thenBlock h.2.1)
      (readsClauses clauses h.2.2.1) (readsElse elseBlock h.2.2.2)
  | .whileLoop cond block span, h =>
    .whileLoop span ⟨readsExpr cond false h.1, h.1.isMethod⟩ (readsBlock block h.2)
  | .forNumeric var start stop step block span, h =>
    .forNumeric span var ⟨readsExpr start false h.1, h.1.isMethod⟩
      ⟨readsExpr stop false h.2.1, h.2.1.isMethod⟩ (readsStep step h.2.2.1)
      (readsBlock block h.2.2.2)
  | .forGeneric _ iterators block span, h =>
    .forGeneric span h.1 h.2.1 (readsExprs iterators h.2.2.1) (readsBlock block h.2.2.2)
  | .breakStmt span, _ => .breakStmt span
  | .repeatLoop block cond span, h =>
    .repeatLoop span (readsBlock block h.2) ⟨readsExpr cond false h.1, h.1.isMethod⟩
  | .doBlock block span, h => .doBlock span (readsBlock block h)
  | .goto label span, _ => .goto span label
  | .label name span, _ => .label span name

end

/-- **Written blocks are read back.** Whatever the tokens look like that say what a well-formed
block is written as, reading takes all of them and gives the block again, but for its places; so it
is written the same way again. -/
theorem exists_body_eq_ok (b : Block) (hb : b.WellFormed) (ts : List Token)
    (hts : Spelled ts b.lexemes) (last : Span) :
    ∃ b' last', body ⟨last, ts⟩ = .ok b' ⟨last', []⟩ ∧ b'.unplaced = b.unplaced ∧
      b'.lexemes = b.lexemes := by
  obtain ⟨b', last', hrun, hb'⟩ :=
    readsBlock b hb ts.length 0 last ts [] hts (Nat.le_refl _) rfl
  rw [List.append_nil] at hrun
  have hblock : block 0 ⟨last, ts⟩ = .ok b' ⟨last', []⟩ := hrun
  have hlexemes : b'.lexemes = b.lexemes := by
    rw [← b'.lexemes_unplaced, hb', b.lexemes_unplaced]
  exact ⟨b', last', bind_run hblock, hb', hlexemes⟩

/-- A member is assigned the concatenation of a negated power and a string, the result of a method
of a name is returned. -/
def powerBlock : Block :=
  .mk 0 [
    .assign [.member (.ident "x" .unknown) .dot ⟨"y", .unknown⟩ .unknown]
      [.binary (.unary .neg (.binary (.ident "a" .unknown) .pow (.ident "b" .unknown) .unknown)
        .unknown) .concat (.literal .nil .unknown) .unknown] .unknown,
    .returnStmt [.stringCall (.member (.ident "f" .unknown) .colon ⟨"m", .unknown⟩ .unknown)
      (.literal (.string "s") .unknown) .unknown] .unknown]

/-- Tokens that say what it is written as. -/
def powerTokens : List Token :=
  [⟨.name, "x", .unknown⟩, ⟨.dot, ".", .unknown⟩, ⟨.name, "y", .unknown⟩, ⟨.equal, "=", .unknown⟩,
    ⟨.minus, "-", .unknown⟩, ⟨.name, "a", .unknown⟩, ⟨.caret, "^", .unknown⟩,
    ⟨.name, "b", .unknown⟩, ⟨.doubleDot, "..", .unknown⟩, ⟨.kwNil, "nil", .unknown⟩,
    ⟨.semicolon, ";", .unknown⟩, ⟨.kwReturn, "return", .unknown⟩, ⟨.name, "f", .unknown⟩,
    ⟨.colon, ":", .unknown⟩, ⟨.name, "m", .unknown⟩, ⟨.longString, "[[s]]", .unknown⟩,
    ⟨.semicolon, ";", .unknown⟩]

theorem exists_body_powerTokens :
    powerBlock.WellFormed ∧ Spelled powerTokens powerBlock.lexemes ∧
      ∃ b' last', body ⟨.unknown, powerTokens⟩ = .ok b' ⟨last', []⟩ ∧
        b'.unplaced = powerBlock.unplaced ∧ b'.lexemes = powerBlock.lexemes := by
  have hb : powerBlock.WellFormed := by
    simp [powerBlock, Block.WellFormed, WellFormedStmts, Stmt.WellFormed, Stmt.isReturn,
      WellFormedExprs, Expr.WellFormed, Expr.isAssignable, Expr.isString]
  have hts : Spelled powerTokens powerBlock.lexemes := by
    have hlexemes : powerBlock.lexemes =
        [.name "x", .symbol .dot, .name "y", .symbol .equal, .symbol .minus, .name "a",
          .symbol .caret, .name "b", .symbol .doubleDot, .literal .nil, .symbol .semicolon,
          .symbol .kwReturn, .name "f", .symbol .colon, .name "m", .literal (.string "s"),
          .symbol .semicolon] := by decide
    rw [hlexemes]
    repeat' constructor
  exact ⟨hb, hts, exists_body_eq_ok powerBlock hb powerTokens hts .unknown⟩

end LuaTranspiler.Source
