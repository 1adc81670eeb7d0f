import LuaTranspiler.Proofs.Lowering.Support
import LuaTranspiler.Proofs.Source.Shape

/-!
# Which sources are refused

Whether a step of the lowering succeeds does not depend on what has been built before it. So each
step decides a property of the tree that it lowers, and a chain of steps decides the conjunction.
What is decided of an expression or a statement is that everything outside its blocks is supported,
and that its blocks are accepted.

* `Decides m P`: `m` succeeds exactly if `P` holds, and never blames the shape of a tree
* `Clears`: what is decided of some expressions and the blocks inside them
* `decides_lowerExpr`, `decides_lowerStmt`: one case for each kind of expression and statement
* `lowerChunk_succeeds_iff_lowerable`: which sources are lowered
* `shape_unreachable_of_parse`: no source is refused for a shape
-/

namespace LuaTranspiler.Lowering

open Source (Block Comment)

/-- Whether an error blames a shape that the grammar does not have. -/
def Error.isShape : Error → Bool
  | .unsupportedDeclaration _ | .unsupportedTarget _ | .notExportable .. => true
  | _ => false

/-! ### Steps that decide a property -/

section Decides

variable {α β : Type} {m : Lower α} {q : α → Lower β} {P Q : Prop}

/-- From whatever state, `m` succeeds exactly if `P` holds, and blames no shape if it fails. -/
def Decides (m : Lower α) (P : Prop) : Prop :=
  ∀ st, match m st with
    | .ok _ _ => P
    | .error e _ => ¬P ∧ e.isShape = false

namespace Decides

theorem pure {a : α} : Decides (pure a) True := fun _ => trivial

theorem node {span : Span} {build : Nat → α} : Decides (node span build) True := fun _ => trivial

theorem diagnose {d : Diagnostic} : Decides (diagnose d) True := fun _ => trivial

theorem throw {e : Error} (hP : ¬P) (he : e.isShape = false) : Decides (throw e : Lower α) P :=
  fun _ => ⟨hP, he⟩

theorem congr (h : Decides m P) (hiff : P ↔ Q) : Decides m Q := propext hiff ▸ h

theorem bind (hm : Decides m P) (hq : ∀ a, Decides (q a) Q) : Decides (m >>= q) (P ∧ Q) := by
  intro st
  have hst := hm st
  simp only [Bind.bind, EStateM.bind]
  cases hrun : m st with
  | error e st' =>
    simp only [hrun] at hst
    exact ⟨fun h => hst.1 h.1, hst.2⟩
  | ok a st' =>
    simp only [hrun] at hst
    have hst' := hq a st'
    dsimp only
    cases hrun' : q a st' with
    | error e st'' =>
      simp only [hrun'] at hst'
      exact ⟨fun h => hst'.1 h.2, hst'.2⟩
    | ok b st'' =>
      simp only [hrun'] at hst'
      exact ⟨hst, hst'⟩

/-- The rest cannot fail. -/
theorem last (hm : Decides m P) (hq : ∀ a, Decides (q a) True) : Decides (m >>= q) P :=
  (hm.bind hq).congr (iff_of_eq (and_true P))

/-- The first step cannot fail. -/
theorem after (hm : Decides m True) (hq : ∀ a, Decides (q a) Q) : Decides (m >>= q) Q :=
  (hm.bind hq).congr (iff_of_eq (true_and Q))

theorem succeeds_iff (hm : Decides m P) (st : State) : (∃ a st', m st = .ok a st') ↔ P := by
  have hst := hm st
  cases hrun : m st with
  | ok a st' =>
    simp only [hrun] at hst
    exact iff_of_true ⟨a, st', rfl⟩ hst
  | error e st' =>
    simp only [hrun] at hst
    exact iff_of_false (by simp) hst.1

theorem map {f : α → β} (hm : Decides m P) : Decides (f <$> m) P := by
  rw [← bind_pure_comp]
  exact hm.last fun _ => .pure

theorem ofExcept_bind {r : Except Error α} {f : α → Except Error β}
    (hr : Decides (ofExcept r) P) (hf : ∀ a, Decides (ofExcept (f a)) Q) :
    Decides (ofExcept (r >>= f)) (P ∧ Q) := by
  have heq : (ofExcept (r >>= f) : Lower β) = ofExcept r >>= fun a => ofExcept (f a) := by
    cases r <;> rfl
  rw [heq]
  exact hr.bind hf

theorem ofExcept_mapM {f : α → Except Error β} {P : α → Prop}
    (hf : ∀ a, Decides (ofExcept (f a)) (P a)) (as : List α) :
    Decides (ofExcept (as.mapM f)) (∀ a ∈ as, P a) := by
  induction as with
  | nil => exact .congr .pure (by simp)
  | cons a as ih =>
    rw [List.mapM_cons]
    refine ((hf a).ofExcept_bind fun b => (ih.ofExcept_bind fun bs => .pure)).congr ?_
    simp

end Decides

end Decides

/-! ### Types -/

theorem decides_basicType (span : Span) (name : String) :
    Decides (ofExcept (basicType span name))
      (name ∈ ["number", "string", "boolean", "bool", "nil"]) := by
  unfold basicType basicType?
  split
  next t ht =>
    refine .congr .pure (iff_of_true trivial ?_)
    split at ht <;> simp at ht ⊢
  next hnone =>
    refine .throw ?_ rfl
    split at hnone <;> simp_all

theorem decides_writtenType (span : Span) (type : String) :
    Decides (ofExcept (writtenType span type)) (Mapped type) := by
  refine ((Decides.ofExcept_mapM (decides_basicType span) (typeNames type)).ofExcept_bind
    fun ts => ?_).congr (iff_of_eq (and_true _))
  split <;> exact .pure

theorem decides_writtenReturnType (span : Span) (tags : List Tag) :
    Decides (ofExcept (writtenReturnType span tags))
      (∀ type ∈ Tag.returnTypes tags, Mapped type) := by
  refine ((Decides.ofExcept_mapM (decides_writtenType span) (Tag.returnTypes tags)).ofExcept_bind
    fun ts => ?_).congr (iff_of_eq (and_true _))
  split <;> exact .pure

theorem decides_writtenLocalType (tags : List Tag) (names : List Source.Name)
    (init : List Source.Expr) (span : Span) :
    Decides (ofExcept (writtenLocalType span tags names))
      (KindSupported tags (.localDecl names init span)) := by
  match names with
  | [] | _ :: _ :: _ => exact .congr .pure (iff_of_true trivial trivial)
  | [name] =>
    simp only [writtenLocalType, KindSupported]
    cases Tag.localType? tags with
    | none => exact .congr .pure (by simp)
    | some type =>
      have hmap : (some <$> writtenType span type) =
          writtenType span type >>= fun t => .ok (some t) := by
        cases writtenType span type <;> rfl
      change Decides (ofExcept (some <$> writtenType span type)) _
      rw [hmap]
      exact ((decides_writtenType span type).ofExcept_bind fun t => .pure).congr (by simp)

theorem decides_lowerParam (tags : List Tag) (p : Source.Param) :
    Decides (lowerParam tags p) (∀ type ∈ (Tag.paramTypes p.tagName tags).head?, Mapped type) := by
  unfold lowerParam
  cases Tag.paramTypes p.tagName tags with
  | nil =>
    -- without a type there is only a report to make
    refine .congr (P := True) (.after .diagnose fun _ => .after .pure fun ty => ?_) (by simp)
    cases p <;> exact .pure
  | cons type types =>
    have htype := decides_writtenType p.span type
    cases types with
    | nil =>
      refine .congr (htype.map.last fun ty => ?_) (by simp)
      cases p <;> exact .pure
    | cons _ _ =>
      refine .congr (.after .diagnose fun _ => htype.map.last fun ty => ?_) (by simp)
      cases p <;> exact .pure

theorem decides_lowerParams (tags : List Tag) (ps : List Source.Param) :
    Decides (lowerParams tags ps)
      (∀ p ∈ ps, ∀ type ∈ (Tag.paramTypes p.tagName tags).head?, Mapped type) := by
  induction ps with
  | nil => exact .congr .pure (by simp)
  | cons p ps ih =>
    refine ((decides_lowerParam tags p).bind fun _ => ih.last fun _ => .pure).congr ?_
    rw [List.forall_mem_cons]

/-! ### Expressions -/

section Trees

variable {ctx : Context} {tags : List Tag} {Q : Block → Prop}

/-- All of these expressions are supported, and all of these blocks have the property `Q`. -/
def Clears (tags : List Tag) (Q : Block → Prop) (es : List Source.Expr) (bs : List Block) : Prop :=
  (∀ e ∈ es, ExprSupported tags e) ∧ ∀ b ∈ bs, Q b

section Clears

variable {e : Source.Expr} {es es' : List Source.Expr} {b : Block} {bs bs' : List Block}

theorem clears_nil : Clears tags Q [] [] := ⟨List.forall_mem_nil _, List.forall_mem_nil _⟩

theorem clears_leaf (he : ExprSupported tags e) : Clears tags Q [e] [] :=
  ⟨List.forall_mem_singleton.2 he, List.forall_mem_nil _⟩

theorem clears_append :
    Clears tags Q es bs ∧ Clears tags Q es' bs' ↔ Clears tags Q (es ++ es') (bs ++ bs') := by
  unfold Clears
  rw [List.forall_mem_append, List.forall_mem_append]
  exact and_and_and_comm

theorem clears_expr (he : ExprSupported tags e) :
    Clears tags Q es bs ↔ Clears tags Q (e :: es) bs := by
  unfold Clears
  rw [List.forall_mem_cons]
  exact and_congr_left fun _ => (and_iff_right he).symm

theorem clears_block : Q b ∧ Clears tags Q es bs ↔ Clears tags Q es (b :: bs) := by
  unfold Clears
  rw [List.forall_mem_cons]
  exact and_left_comm

theorem clears_blocks :
    Clears tags Q es bs ∧ (∀ b ∈ bs', Q b) ↔ Clears tags Q es (bs ++ bs') := by
  unfold Clears
  rw [List.forall_mem_append]
  exact and_assoc

theorem clears_body : Clears tags Q es bs ∧ Q b ↔ Clears tags Q es (bs ++ [b]) := by
  rw [← clears_blocks, List.forall_mem_singleton]

end Clears

/-- The blocks in these lists are accepted exactly if they have the property `Q`. -/
def Accepts (ctx : Context) (Q : Block → Prop) (bs : List Block) : Prop :=
  ∀ b ∈ bs, Decides (lowerBlock ctx false b) (Q b)

theorem binaryOp?_eq_none_iff {op : Source.BinaryOp} :
    binaryOp? op = none ↔ op ∈ [.floorDiv, .bitAnd, .bitOr, .bitXor, .shiftLeft, .shiftRight] := by
  cases op <;> decide

theorem decides_lowerUnary {span : Span} {operand : Target.Expr} {op : Source.UnaryOp} :
    Decides (lowerUnary span operand op) True := by
  cases op <;> rw [lowerUnary] <;> exact .node

theorem decides_lowerLiteral {span : Span} {value : Source.Literal} :
    Decides (lowerLiteral span value) True := by
  cases value with
  | vararg => exact Decides.node.after fun _ => .node
  | number | string | bool | nil =>
    rw [lowerLiteral]
    exact .node

theorem decides_lowerFunction {method : Bool} {ty : Option Ty} {func : Source.Function}
    (hbody : Decides (lowerBlock ctx false func.body) (Q func.body)) :
    Decides (lowerFunction ctx tags method ty func)
      ((∀ p ∈ func.params, ∀ type ∈ (Tag.paramTypes p.tagName tags).head?, Mapped type) ∧
        Q func.body) := by
  obtain ⟨params, body⟩ := func
  rw [lowerFunction]
  exact (decides_lowerParams tags params).bind fun _ => hbody.last fun _ => .pure

mutual

theorem decides_lowerExpr : ∀ e : Source.Expr, Accepts ctx Q e.inner →
    Decides (lowerExpr ctx tags e) (Clears tags Q e.exprs e.inner)
  | .ident .., _ => by
    rw [lowerExpr]
    refine .congr .node (iff_of_true trivial ?_)
    exact clears_leaf trivial
  | .literal .., _ => by
    rw [lowerExpr]
    refine decides_lowerLiteral.congr (iff_of_true trivial ?_)
    exact clears_leaf trivial
  | .member base .., hb => by
    rw [lowerExpr]
    exact ((decides_lowerExpr base hb).last fun _ => .node).congr (clears_expr trivial)
  | .unary _ operand _, hb => by
    rw [lowerExpr]
    exact ((decides_lowerExpr operand hb).last fun _ => decides_lowerUnary).congr
      (clears_expr trivial)
  | .index base index _, hb => by
    rw [lowerExpr]
    obtain ⟨hbase, hindex⟩ := List.forall_mem_append.1 hb
    refine ((decides_lowerExpr base hbase).bind fun _ => ?_).congr
      (clears_append.trans (clears_expr trivial))
    exact (decides_lowerExpr index hindex).last fun _ => .node
  | .logical lhs _ rhs _, hb => by
    rw [lowerExpr]
    obtain ⟨hlhs, hrhs⟩ := List.forall_mem_append.1 hb
    refine ((decides_lowerExpr lhs hlhs).bind fun _ => ?_).congr
      (clears_append.trans (clears_expr trivial))
    exact (decides_lowerExpr rhs hrhs).last fun _ => .node
  | .binary lhs op rhs _, hb => by
    rw [lowerExpr]
    obtain ⟨hlhs, hrhs⟩ := List.forall_mem_append.1 hb
    cases hop : binaryOp? op with
    | none =>
      refine .throw (fun h => ?_) rfl
      exact h.1 _ List.mem_cons_self (binaryOp?_eq_none_iff.1 hop)
    | some op' =>
      have hsupported : ExprSupported tags (.binary lhs op rhs ‹_›) := by
        intro hmem
        simp [binaryOp?_eq_none_iff.2 hmem] at hop
      refine ((decides_lowerExpr lhs hlhs).bind fun _ => ?_).congr
        (clears_append.trans (clears_expr hsupported))
      exact (decides_lowerExpr rhs hrhs).last fun _ => .node
  | .table fields _, hb => by
    rw [lowerExpr]
    by_cases hany : fields.any Source.Field.isPositional = true
    · rw [if_pos hany]
      by_cases hall : fields.all Source.Field.isPositional = true
      · rw [if_pos hall]
        have hfields := List.all_eq_true.1 hall
        exact ((decides_lowerElements fields hfields hb).last fun _ => .node).congr
          (clears_expr (.inl hfields))
      · rw [if_neg hall]
        refine .throw (fun h => ?_) rfl
        obtain ⟨f, hf, hpositional⟩ := List.any_eq_true.1 hany
        rcases h.1 _ List.mem_cons_self with h | h
        · exact hall (List.all_eq_true.2 h)
        · simp [h f hf] at hpositional
    · rw [if_neg hany]
      have hnone : ∀ f ∈ fields, f.isPositional = false := by simpa using hany
      exact ((decides_lowerProperties fields hnone hb).last fun _ => .node).congr
        (clears_expr (.inr hnone))
  | .call base args _, hb => by
    rw [lowerExpr]
    obtain ⟨hbase, hargs⟩ := List.forall_mem_append.1 hb
    refine ((decides_lowerExpr base hbase).bind fun _ => ?_).congr
      (clears_append.trans (clears_expr trivial))
    exact (decides_lowerExprs args hargs).last fun _ => .node
  | .stringCall base argument _, hb | .tableCall base argument _, hb => by
    rw [lowerExpr]
    obtain ⟨hbase, hargument⟩ := List.forall_mem_append.1 hb
    refine ((decides_lowerExpr base hbase).bind fun _ => ?_).congr
      (clears_append.trans (clears_expr trivial))
    exact (decides_lowerExpr argument hargument).last fun _ => .node
  | .function func span, hb => by
    rw [lowerExpr]
    have hfunc : ∀ ty, Decides (do
        let f ← lowerFunction ctx tags false ty func
        node span (Target.Expr.function · f)) _ := fun ty =>
      (decides_lowerFunction (hb func.body List.mem_cons_self)).last fun _ => .node
    have hclears : (∀ type ∈ Tag.returnTypes tags, Mapped type) ∧
        (∀ p ∈ func.params, ∀ type ∈ (Tag.paramTypes p.tagName tags).head?, Mapped type) ∧
          Q func.body ↔ Clears tags Q [.function func span] [func.body] := by
      simp [Clears, ExprSupported, Typed, and_assoc]
    split
    next hempty =>
      refine (Decides.pure.after hfunc).congr (Iff.trans ?_ hclears)
      simp [List.isEmpty_iff.1 hempty]
    next => exact ((decides_writtenReturnType span tags).map.bind hfunc).congr hclears

theorem decides_lowerExprs : ∀ es : List Source.Expr, Accepts ctx Q (Source.innerOfExprs es) →
    Decides (lowerExprs ctx tags es) (Clears tags Q (Source.exprsOf es) (Source.innerOfExprs es))
  | [], _ => by
    rw [lowerExprs]
    exact .congr .pure (iff_of_true trivial clears_nil)
  | e :: es, hb => by
    rw [lowerExprs]
    obtain ⟨he, hes⟩ := List.forall_mem_append.1 hb
    refine ((decides_lowerExpr e he).bind fun _ => ?_).congr clears_append
    exact (decides_lowerExprs es hes).last fun _ => .pure

theorem decides_lowerElements : ∀ fs : List Source.Field, (∀ f ∈ fs, f.isPositional = true) →
    Accepts ctx Q (Source.innerOfFields fs) → Decides (lowerElements ctx tags fs)
      (Clears tags Q (Source.exprsOfFields fs) (Source.innerOfFields fs))
  | [], _, _ => by
    rw [lowerElements]
    exact .congr .pure (iff_of_true trivial clears_nil)
  | .positional value _ :: fs, hfs, hb => by
    rw [lowerElements]
    obtain ⟨hvalue, hrest⟩ := List.forall_mem_append.1 hb
    refine ((decides_lowerExpr value hvalue).bind fun _ => ?_).congr clears_append
    exact (decides_lowerElements fs (List.forall_mem_cons.1 hfs).2 hrest).last fun _ => .pure
  | .keyed .. :: fs, hfs, _ | .named .. :: fs, hfs, _ => nomatch (List.forall_mem_cons.1 hfs).1

theorem decides_lowerProperties : ∀ fs : List Source.Field, (∀ f ∈ fs, f.isPositional = false) →
    Accepts ctx Q (Source.innerOfFields fs) → Decides (lowerProperties ctx tags fs)
      (Clears tags Q (Source.exprsOfFields fs) (Source.innerOfFields fs))
  | [], _, _ => by
    rw [lowerProperties]
    exact .congr .pure (iff_of_true trivial clears_nil)
  | .named _ value _ :: fs, hfs, hb => by
    rw [lowerProperties]
    obtain ⟨hvalue, hrest⟩ := List.forall_mem_append.1 hb
    refine ((decides_lowerExpr value hvalue).bind fun _ => ?_).congr clears_append
    exact (decides_lowerProperties fs (List.forall_mem_cons.1 hfs).2 hrest).last fun _ => .pure
  | .keyed key value _ :: fs, hfs, hb => by
    rw [lowerProperties]
    obtain ⟨hkey, hb⟩ := List.forall_mem_append.1 hb
    obtain ⟨hvalue, hrest⟩ := List.forall_mem_append.1 hb
    refine ((decides_lowerExpr key hkey).bind fun _ => ?_).congr clears_append
    refine ((decides_lowerExpr value hvalue).bind fun _ => ?_).congr clears_append
    exact (decides_lowerProperties fs (List.forall_mem_cons.1 hfs).2 hrest).last fun _ => .pure
  | .positional .. :: fs, hfs, _ => nomatch (List.forall_mem_cons.1 hfs).1

end

/-! ### Statements -/

theorem decides_lowerTargets (es : List Source.Expr) (hes : ∀ e ∈ es, e.isAssignable = true)
    (hb : Accepts ctx Q (Source.innerOfExprs es)) :
    Decides (lowerTargets ctx tags es)
      (Clears tags Q (Source.exprsOf es) (Source.innerOfExprs es)) := by
  induction es with
  | nil =>
    rw [lowerTargets]
    exact .congr .pure (iff_of_true trivial clears_nil)
  | cons e es ih =>
    obtain ⟨he, hes⟩ := List.forall_mem_cons.1 hes
    obtain ⟨hbe, hbes⟩ := List.forall_mem_append.1 hb
    rw [lowerTargets, if_pos he]
    exact ((decides_lowerExpr e hbe).bind fun _ => (ih hes hbes).last fun _ => .pure).congr
      clears_append

theorem decides_joinValues {span : Span} {es : List Target.Expr} :
    Decides (joinValues span es) True := by
  match es with
  | [] | [_] => exact .pure
  | _ :: _ :: _ => exact Decides.node.map

theorem decides_joinTargets {span : Span} {es : List Target.Expr} :
    Decides (joinTargets span es) True := by
  match es with
  | [_] => exact .pure
  | [] | _ :: _ :: _ =>
    rw [joinTargets]
    · exact .node
    · simp

theorem decides_chain {clauses : List (Target.Expr × List Target.Stmt × Span)}
    {last : Target.Else} : Decides (chain clauses last) True := by
  induction clauses with
  | nil => exact .pure
  | cons clause clauses ih => exact ih.after fun _ => Decides.node.last fun _ => .pure

theorem decides_lowerClauses (cs : List Source.Clause)
    (hb : Accepts ctx Q (Source.innerOfClauses cs)) :
    Decides (lowerClauses ctx tags cs)
      (Clears tags Q (Source.exprsOf (Source.conditions cs)) (Source.innerOfClauses cs)) := by
  induction cs with
  | nil =>
    rw [lowerClauses]
    exact .congr .pure (iff_of_true trivial clears_nil)
  | cons c cs ih =>
    obtain ⟨cond, block⟩ := c
    obtain ⟨hcond, hb⟩ := List.forall_mem_append.1 hb
    obtain ⟨hblock, hcs⟩ := List.forall_mem_cons.1 hb
    rw [lowerClauses]
    refine ((decides_lowerExpr cond hcond).bind fun _ => ?_).congr clears_append
    exact (hblock.bind fun _ => (ih hcs).last fun _ => .pure).congr clears_block

section Statement

variable {top : Bool} {span : Span}

theorem decides_functionDecl {name : Source.Expr} {isLocal : Bool} {func : Source.Function}
    (hs : (Source.Stmt.functionDecl name isLocal func span).WellFormed)
    (hb : Accepts ctx Q (Source.Stmt.functionDecl name isLocal func span).inner) :
    Decides (lowerStmt ctx top tags (.functionDecl name isLocal func span))
      (Typed tags func ∧ Clears tags Q name.exprs (name.inner ++ [func.body])) := by
  obtain ⟨hname, hbody⟩ := List.forall_mem_append.1 hb
  replace hbody := hbody func.body List.mem_cons_self
  have hreturn := decides_writtenReturnType span tags
  rw [lowerStmt, ← clears_body, Typed]
  rcases Source.Expr.exists_of_isFunctionName (Source.Stmt.isFunctionName_of_wellFormed hs) with
    ⟨text, place, rfl⟩ | ⟨base, indexer, member, place, rfl, -⟩
  · -- a single name is not lowered, but nothing could be wrong with it
    refine (hreturn.bind fun _ => (decides_lowerFunction hbody).last fun _ => .node).congr ?_
    have hident : Clears tags Q [.ident text place] [] := clears_leaf trivial
    tauto
  · refine (hreturn.bind fun _ => (decides_lowerExpr _ hname).bind fun _ =>
      (decides_lowerFunction hbody).last fun _ => Decides.node.after fun _ =>
        Decides.node.after fun _ => .node).congr ?_
    tauto

theorem decides_ifStmt {cond : Source.Expr} {thenBlock : Block} {clauses : List Source.Clause}
    {elseBlock : Option Block}
    (hb : Accepts ctx Q (Source.Stmt.ifStmt cond thenBlock clauses elseBlock span).inner) :
    Decides (lowerStmt ctx top tags (.ifStmt cond thenBlock clauses elseBlock span))
      (Clears tags Q (cond.exprs ++ Source.exprsOf (Source.conditions clauses))
        (cond.inner ++ thenBlock :: (Source.innerOfClauses clauses ++ elseBlock.toList))) := by
  obtain ⟨hcond, hb⟩ := List.forall_mem_append.1 hb
  obtain ⟨hthen, hb⟩ := List.forall_mem_cons.1 hb
  obtain ⟨hclauses, helse⟩ := List.forall_mem_append.1 hb
  rw [lowerStmt, ← clears_append, ← clears_block, ← clears_blocks]
  refine (decides_lowerExpr cond hcond).bind fun _ => hthen.bind fun _ =>
    (decides_lowerClauses clauses hclauses).bind fun _ => ?_
  cases elseBlock with
  | some block =>
    refine ((helse block List.mem_cons_self).map.last fun _ => ?_).congr (by simp)
    exact decides_chain.after fun _ => .node
  | none => exact (Decides.pure.after fun _ => decides_chain.after fun _ => .node).congr (by simp)

theorem decides_forNumeric {var : Source.Name} {start stop : Source.Expr}
    {step : Option Source.Expr} {block : Block}
    (hb : Accepts ctx Q (Source.Stmt.forNumeric var start stop step block span).inner) :
    Decides (lowerStmt ctx top tags (.forNumeric var start stop step block span))
      (Clears tags Q (start.exprs ++ (stop.exprs ++ Source.exprsOf step.toList))
        (start.inner ++ (stop.inner ++ (Source.innerOfExprs step.toList ++ [block])))) := by
  obtain ⟨hstart, hb⟩ := List.forall_mem_append.1 hb
  obtain ⟨hstop, hb⟩ := List.forall_mem_append.1 hb
  obtain ⟨hstep, hb⟩ := List.forall_mem_append.1 hb
  have hbody := hb block List.mem_cons_self
  rw [lowerStmt, ← clears_append, ← clears_append, ← clears_body]
  refine (decides_lowerExpr start hstart).bind fun _ => ?_
  refine (decides_lowerExpr stop hstop).bind fun _ => ?_
  cases step with
  | some step =>
    rw [Option.toList_some, Source.innerOfExprs_singleton] at hstep ⊢
    rw [Source.exprsOf_singleton]
    refine (decides_lowerExpr step hstep).map.bind fun amount => ?_
    refine Decides.node.after fun _ => Decides.node.after fun _ => Decides.node.after fun _ => ?_
    cases amount <;> exact Decides.node.after fun _ => hbody.last fun _ => .node
  | none =>
    refine (Decides.pure.after fun amount => ?_).congr (and_iff_right clears_nil).symm
    refine Decides.node.after fun _ => Decides.node.after fun _ => Decides.node.after fun _ => ?_
    cases amount <;> exact Decides.node.after fun _ => hbody.last fun _ => .node

theorem decides_forGeneric {vars : List Source.Name} {iterators : List Source.Expr} {block : Block}
    (hne : iterators ≠ [])
    (hb : Accepts ctx Q (Source.Stmt.forGeneric vars iterators block span).inner) :
    Decides (lowerStmt ctx top tags (.forGeneric vars iterators block span))
      (iterators.length = 1 ∧
        Clears tags Q (Source.exprsOf iterators) (Source.innerOfExprs iterators ++ [block])) := by
  obtain ⟨hiterators, hb⟩ := List.forall_mem_append.1 hb
  have hbody := hb block List.mem_cons_self
  obtain ⟨e, extra, rfl⟩ := List.exists_cons_of_ne_nil hne
  cases extra with
  | nil =>
    rw [Source.innerOfExprs_singleton] at hiterators ⊢
    rw [lowerStmt, Source.exprsOf_singleton, ← clears_body]
    refine ((decides_lowerExpr e hiterators).bind fun _ => hbody.last fun _ => .node).congr ?_
    exact (and_iff_right rfl).symm
  | cons _ _ =>
    rw [lowerStmt]
    exact .throw (by simp) rfl

/-- A statement is accepted exactly if it is supported and its blocks are accepted. -/
theorem decides_lowerStmt (s : Source.Stmt) (hs : s.WellFormed) (hb : Accepts ctx Q s.inner) :
    Decides (lowerStmt ctx top tags s)
      (KindSupported tags s ∧ Clears tags Q s.exprs s.inner) := by
  cases s with
  | localDecl names init span =>
    rw [lowerStmt]
    refine (decides_writtenLocalType tags names init span).bind fun ty => ?_
    exact (decides_lowerExprs init hb).last fun _ => decides_joinValues.after fun _ => .node
  | assign targets init span =>
    obtain ⟨htargets, hinit⟩ := List.forall_mem_append.1 hb
    rw [lowerStmt, Source.Stmt.exprs, Source.Stmt.operands, Source.exprsOf_append]
    refine .congr ((decides_lowerTargets targets hs.2.1 htargets).bind fun _ =>
      decides_joinTargets.after fun _ => (decides_lowerExprs init hinit).last fun _ =>
        decides_joinValues.after fun value => ?_) (clears_append.trans (and_iff_right trivial).symm)
    cases value with
    | some value => exact Decides.pure.after fun _ => Decides.node.after fun _ => .node
    | none => exact Decides.node.after fun _ => Decides.node.after fun _ => .node
  | call e span =>
    rw [lowerStmt, Source.Stmt.exprs, Source.Stmt.operands, Source.exprsOf_singleton]
    exact ((decides_lowerExpr e hb).last fun _ => .node).congr (and_iff_right trivial).symm
  | functionDecl name isLocal func span =>
    rw [Source.Stmt.exprs, Source.Stmt.operands, Source.exprsOf_singleton]
    exact decides_functionDecl hs hb
  | returnStmt values span =>
    rw [lowerStmt]
    refine .congr ((decides_lowerExprs values hb).last fun _ =>
      decides_joinValues.after fun value => ?_) (and_iff_right trivial).symm
    cases value with
    | none => exact .node
    | some value =>
      dsimp only
      split <;> exact .node
  | ifStmt cond thenBlock clauses elseBlock span =>
    exact (decides_ifStmt hb).congr (and_iff_right trivial).symm
  | whileLoop cond block span =>
    obtain ⟨hcond, hblock⟩ := List.forall_mem_append.1 hb
    have hbody := hblock block List.mem_cons_self
    rw [lowerStmt, Source.Stmt.exprs, Source.Stmt.operands, Source.exprsOf_singleton]
    exact .congr ((decides_lowerExpr cond hcond).bind fun _ => hbody.last fun _ => .node)
      (clears_body.trans (and_iff_right trivial).symm)
  | forNumeric var start stop step block span =>
    exact (decides_forNumeric hb).congr (and_iff_right trivial).symm
  | forGeneric vars iterators block span => exact decides_forGeneric hs.2.1 hb
  | breakStmt span =>
    rw [lowerStmt]
    exact .congr .node (iff_of_true trivial ⟨trivial, clears_nil⟩)
  | repeatLoop | doBlock | goto | label =>
    rw [lowerStmt]
    exact .throw (fun h => h.1) rfl

end Statement

/-! ### Blocks -/

theorem decides_lowerStmts {top : Bool} {keep : Source.Stmt → Bool} {floor : Nat}
    {ss : List Source.Stmt} (hss : ∀ s ∈ ss, s.WellFormed ∧ Accepts ctx Q s.inner) :
    Decides (lowerStmts ctx top keep floor ss)
      (∀ x ∈ Source.commentedFrom ctx.comments floor ss, keep x.1 = true →
        Supported (Tag.ofComments x.2) x.1 ∧ ∀ b ∈ x.1.inner, Q b) := by
  induction ss generalizing floor with
  | nil =>
    rw [lowerStmts]
    exact .congr .pure (by simp [Source.commentedFrom])
  | cons s ss ih =>
    obtain ⟨⟨hs, hb⟩, hss⟩ := List.forall_mem_cons.1 hss
    rw [lowerStmts, Source.commentedFrom, List.forall_mem_cons]
    split
    next hkeep =>
      refine ((decides_lowerStmt s hs hb).bind fun _ => (ih hss).last fun _ => .pure).congr ?_
      exact and_congr_left' (and_assoc.symm.trans (imp_iff_right hkeep).symm)
    next hkeep => exact (ih hss).congr (by simp [hkeep])

end Trees

theorem shapeOf_of_plain {comments : List Comment} {top : Bool} {start : Nat}
    {stmts : List Source.Stmt} : shapeOf ⟨false, false, comments⟩ top start stmts = .plain := by
  cases stmts with
  | nil => rfl
  | cons first rest =>
    rcases shapeOf_cons_cases ⟨false, false, comments⟩ top start first rest with
      h | h | ⟨_, _, _, _, _, _, _, h⟩
    · exact h.1
    · exact absurd h.2.1 Bool.false_ne_true
    · exact absurd h.1 Bool.false_ne_true

/-- Where no block is rewritten, a block is accepted exactly if it is lowerable. -/
theorem decides_lowerBlock (comments : List Comment) (b : Block) (hb : b.WellFormed) (top : Bool) :
    Decides (lowerBlock ⟨false, false, comments⟩ top b) (Lowerable comments b) := by
  induction b using Block.innerInduction generalizing top with
  | step b ih =>
    obtain ⟨start, stmts⟩ := b
    obtain ⟨hstmts, -⟩ := Source.wellFormedStmts_iff.1 hb
    have hss : ∀ s ∈ stmts, s.WellFormed ∧
        Accepts ⟨false, false, comments⟩ (Lowerable comments) s.inner := by
      intro s hs
      have hinner := Source.Stmt.wellFormed_inner (hstmts s hs)
      exact ⟨hstmts s hs, fun c hc => ih s hs c hc (hinner c hc) false⟩
    rw [lowerBlock_plain shapeOf_of_plain, lowerable_iff]
    exact (decides_lowerStmts hss).congr (by simp [Block.commented, Block.start, Block.stmts])

/-- **A source is refused exactly for its unsupported constructs**, where no block is rewritten. -/
theorem lowerChunk_succeeds_iff_lowerable {s : String} {chunk : Source.Chunk}
    (h : Source.parse s = .ok chunk) (st : State) :
    (∃ out st', lowerChunk false false chunk st = .ok out st') ↔
      Lowerable chunk.comments chunk.body := by
  have hdecides := decides_lowerBlock chunk.comments chunk.body (Source.wellFormed_of_parse h) true
  have hrun : lowerChunk false false chunk st =
      lowerBlock ⟨false, false, chunk.comments⟩ true chunk.body .initial := rfl
  rw [hrun]
  exact hdecides.succeeds_iff .initial

/-- Only the first type of a parameter counts, and only for functions that have the parameter. -/
def taggedFunction : String :=
  "-- @tparam number|nil a\n-- @tparam table a\n-- @tparam table c\nlocal f = function(a) end"

/-- The same with an unknown type in front. -/
def mistypedFunction : String := "-- @tparam table a\n" ++ taggedFunction

theorem lowerChunk_succeeds_iff_tagged :
    (∃ chunk, Source.parse taggedFunction = .ok chunk ∧
      ∃ out st', lowerChunk false false chunk .initial = .ok out st') ∧
    ∃ chunk, Source.parse mistypedFunction = .ok chunk ∧
      ¬∃ out st', lowerChunk false false chunk .initial = .ok out st' := by
  have htagged : (Source.parse taggedFunction).toOption.any
      (fun chunk => Lowerable chunk.comments chunk.body) = true := by decide +kernel
  have hmistyped : (Source.parse mistypedFunction).toOption.any
      (fun chunk => ¬Lowerable chunk.comments chunk.body) = true := by decide +kernel
  cases h : Source.parse taggedFunction with
  | error e => simp [h, Except.toOption] at htagged
  | ok chunk =>
    cases h' : Source.parse mistypedFunction with
    | error e => simp [h', Except.toOption] at hmistyped
    | ok chunk' =>
      simp only [h, h', Except.toOption, Option.any_some, decide_eq_true_eq] at htagged hmistyped
      exact ⟨⟨chunk, rfl, (lowerChunk_succeeds_iff_lowerable h _).2 htagged⟩,
        chunk', rfl, fun hrun => hmistyped ((lowerChunk_succeeds_iff_lowerable h' _).1 hrun)⟩

/-! ### Rewritten blocks -/

section Rewritten

variable {ctx : Context} {tags : List Tag} {Q : Block → Prop}

theorem exists_decides_lowerExport {s : Source.Stmt} (hmember : s.isMemberDecl = true)
    (hnested : s.isNestedMemberDecl = false) (hb : Accepts ctx Q s.inner) :
    ∃ P, Decides (lowerExport ctx tags s) P := by
  match s, hmember, hnested with
  | .functionDecl (.member base ..) _ func span, _, hnested =>
    have hbody := hb func.body (List.mem_append_right _ List.mem_cons_self)
    have hbase : ¬base.isMember = true := Bool.eq_false_iff.1 hnested
    rw [lowerExport, if_neg hbase]
    exact ⟨_, (decides_writtenReturnType span tags).bind fun _ =>
      (decides_lowerFunction hbody).last fun _ => .node⟩

theorem exists_decides_lowerMethod {s : Source.Stmt} (hmember : s.isMemberDecl = true)
    (hb : Accepts ctx Q s.inner) : ∃ P, Decides (lowerMethod ctx tags s) P := by
  match s, hmember with
  | .functionDecl (.member ..) _ func span, _ =>
    have hbody := hb func.body (List.mem_append_right _ List.mem_cons_self)
    rw [lowerMethod]
    exact ⟨_, (decides_writtenReturnType span tags).bind fun _ =>
      (decides_lowerFunction hbody).last fun _ => .node⟩

theorem exists_decides_lowerExports {floor : Nat} {ss : List Source.Stmt}
    (hnested : ∀ s ∈ ss, s.isNestedMemberDecl = false) (hb : ∀ s ∈ ss, Accepts ctx Q s.inner) :
    ∃ P, Decides (lowerExports ctx floor ss) P := by
  induction ss generalizing floor with
  | nil =>
    rw [lowerExports]
    exact ⟨_, .pure⟩
  | cons s ss ih =>
    obtain ⟨hs, hss⟩ := List.forall_mem_cons.1 hnested
    obtain ⟨hbs, hbss⟩ := List.forall_mem_cons.1 hb
    obtain ⟨R, hrest⟩ := ih hss hbss
    rw [lowerExports]
    split
    next hmember =>
      obtain ⟨P, hexport⟩ := exists_decides_lowerExport hmember hs hbs
      exact ⟨_, hexport.bind fun _ => hrest.last fun _ => .pure⟩
    next => exact ⟨R, hrest⟩

theorem exists_decides_lowerMethods {floor : Nat} {ss : List Source.Stmt}
    (hb : ∀ s ∈ ss, Accepts ctx Q s.inner) : ∃ P, Decides (lowerMethods ctx floor ss) P := by
  induction ss generalizing floor with
  | nil =>
    rw [lowerMethods]
    exact ⟨_, .pure⟩
  | cons s ss ih =>
    obtain ⟨hbs, hbss⟩ := List.forall_mem_cons.1 hb
    obtain ⟨R, hrest⟩ := ih hbss
    rw [lowerMethods]
    split
    next hmember =>
      obtain ⟨P, hmethod⟩ := exists_decides_lowerMethod hmember hbs
      exact ⟨_, hmethod.bind fun _ => hrest.last fun _ => .pure⟩
    next => exact ⟨R, hrest⟩

end Rewritten

/-- Whether a well-formed block is accepted does not depend on the state, and no shape is blamed. -/
theorem exists_decides_lowerBlock (ctx : Context) (b : Block) (hb : b.WellFormed) (top : Bool) :
    ∃ P, Decides (lowerBlock ctx top b) P := by
  induction b using Block.innerInduction generalizing top with
  | step b ih =>
    obtain ⟨start, stmts⟩ := b
    obtain ⟨hstmts, -⟩ := Source.wellFormedStmts_iff.1 hb
    -- what exactly is decided of the blocks inside does not matter, only that something is
    let Q (c : Block) : Prop := ∃ out st', lowerBlock ctx false c .initial = .ok out st'
    have haccepts : ∀ s ∈ stmts, Accepts ctx Q s.inner := by
      intro s hs c hc
      have hc' := Source.Stmt.wellFormed_inner (hstmts s hs) c hc
      obtain ⟨P, hP : Decides _ P⟩ := ih s hs c hc hc' false
      exact Decides.congr hP (hP.succeeds_iff .initial).symm
    have hss := fun s hs => And.intro (hstmts s hs) (haccepts s hs)
    cases stmts with
    | nil =>
      rw [lowerBlock_plain rfl]
      exact ⟨_, decides_lowerStmts hss⟩
    | cons first rest =>
      have hrest := (List.forall_mem_cons.1 hss).2
      rcases shapeOf_cons_cases ctx top start first rest with
        ⟨hshape, -⟩ | ⟨hshape, happlies⟩ | ⟨_, _, _, _, -, hshape, -⟩
      · rw [lowerBlock_plain hshape]
        exact ⟨_, decides_lowerStmts hss⟩
      · rw [lowerBlock_module hshape]
        -- with a nested member the block would not have been rewritten
        obtain ⟨-, -, _, _, _, ⟨⟩, -, -, hnested⟩ := happlies
        rw [forall_commentedFrom, List.any_eq_false] at hnested
        obtain ⟨P, hexports : Decides _ P⟩ := exists_decides_lowerExports
          (fun s hs => Bool.eq_false_iff.2 (hnested s hs)) fun s hs => (hrest s hs).2
        exact ⟨_, hexports.bind fun _ => (decides_lowerStmts hrest).last fun _ => .pure⟩
      · rw [lowerBlock_class hshape]
        obtain ⟨P, hmethods : Decides _ P⟩ := exists_decides_lowerMethods fun s hs => (hrest s hs).2
        exact ⟨_, hmethods.bind fun _ => Decides.node.after fun _ =>
          (decides_lowerStmts hrest).last fun _ => .pure⟩

/-- **What is read is well formed, so lowering it blames no shape**, whatever blocks are
rewritten. -/
theorem shape_unreachable_of_parse {s : String} {chunk : Source.Chunk}
    (h : Source.parse s = .ok chunk) :
    chunk.body.WellFormed ∧ ∀ module classmod st e st',
      lowerChunk module classmod chunk st = .error e st' → e.isShape = false := by
  have hbody := Source.wellFormed_of_parse h
  refine ⟨hbody, fun module classmod st e st' herror => ?_⟩
  obtain ⟨P, hP⟩ := exists_decides_lowerBlock ⟨module, classmod, chunk.comments⟩ _ hbody true
  have hrun : lowerBlock ⟨module, classmod, chunk.comments⟩ true chunk.body .initial =
      .error e st' := herror
  have hinitial := hP .initial
  rw [hrun] at hinitial
  exact hinitial.2

/-- A method under a path, in a block that is not rewritten as a module on account of it. -/
def nestedMember : String :=
  "-- @module m\nlocal M = \x7b\x7d\nfunction M.a:b(...) return ... end\nM.c = 1 // 2"

theorem shape_unreachable_nestedMember :
    ∃ chunk, Source.parse nestedMember = .ok chunk ∧ chunk.body.WellFormed ∧
      ∃ e st', lowerChunk true true chunk .initial = .error e st' ∧ e.isShape = false := by
  have hfails : ((Source.parse nestedMember).toOption.any fun chunk =>
      ((lowerChunk true true chunk).run' .initial).isNone) = true := by decide +kernel
  delta EStateM.run' EStateM.run at hfails
  cases hparse : Source.parse nestedMember with
  | error e => simp [hparse, Except.toOption] at hfails
  | ok chunk =>
    obtain ⟨hbody, hshape⟩ := shape_unreachable_of_parse hparse
    cases hrun : lowerChunk true true chunk .initial with
    | ok out st' => simp [hparse, hrun, Except.toOption] at hfails
    | error e st' => exact ⟨chunk, rfl, hbody, e, st', hrun, hshape true true _ e st' hrun⟩

end LuaTranspiler.Lowering
