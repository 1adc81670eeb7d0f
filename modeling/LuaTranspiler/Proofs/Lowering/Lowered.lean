import LuaTranspiler.Proofs.Lowering.Blocks
import LuaTranspiler.Proofs.Lowering.Building

/-!
# What is built for a tree

The relation between a tree and what is built for it, without states and failures. A node is known
by its record, which leads to the place it was built from. What concerns the built tree alone can be
shown from this relation, by recursion over the source.

* `NodeAt p span build a`: a node that is recorded with a span
* `LoweredExpr`, `LoweredStmt`, `LoweredBlock`: what is built for each part
* `lowered_lowerExpr`, `lowered_lowerStmt`, `lowered_lowerBlock`: lowering builds nothing else
-/

namespace LuaTranspiler.Lowering

open Source (Block Comment)

/-! ### Parts -/

section Parts

variable {α : Type} (p : Provenance) (span : Span)

/-- A node that is recorded to come from a span. -/
def NodeAt (build : Nat → α) (a : α) : Prop := ∃ id, p.get? id = some span ∧ a = build id

/-- What is built for a literal. -/
def LoweredLiteral (a : Target.Expr) : Source.Literal → Prop
  | .number n => NodeAt p span (.number · n) a
  | .string s => NodeAt p span (.string · s) a
  | .bool b => NodeAt p span (.bool · b) a
  | .nil => NodeAt p span (.ident · "undefined") a
  | .vararg => ∃ rest, NodeAt p span (.ident · "vararg") rest ∧ NodeAt p span (.spread · rest) a

/-- What is built for an operator before the operand `e`. -/
def LoweredUnary (e a : Target.Expr) : Source.UnaryOp → Prop
  | .len => NodeAt p span (.member · e "length") a
  | .not => NodeAt p span (.unary · .not e) a
  | .neg => NodeAt p span (.unary · .neg e) a
  | .bitNot => NodeAt p span (.unary · .bitNot e) a

/-- What several values are joined to. -/
def JoinedValues (o : Option Target.Expr) : List Target.Expr → Prop
  | [] => o = none
  | [e] => o = some e
  | es => ∃ a, NodeAt p span (.array · es) a ∧ o = some a

/-- What several targets are joined to. -/
def JoinedTargets (a : Target.Expr) : List Target.Expr → Prop
  | [e] => a = e
  | es => NodeAt p span (.array · es) a

/-- The value that is assigned, which is undefined where none is written. -/
def AssignedValue (a : Target.Expr) : Option Target.Expr → Prop
  | some e => a = e
  | none => NodeAt p span (.ident · "undefined") a

/-- What is built for a loop over numbers. Its variable is counted up by `amount`. -/
def LoweredLoop (var : Source.Name) (first last : Target.Expr) (amount : Option Target.Expr)
    (body : List Target.Stmt) (t : Target.Stmt) : Prop :=
  ∃ counter counter' test update, NodeAt p var.span (.ident · var.text) counter ∧
    NodeAt p span (.binary · counter .lessEq last) test ∧
    NodeAt p var.span (.ident · var.text) counter' ∧
    (match amount with
      | none => NodeAt p span (.increment · counter') update
      | some amount => NodeAt p span (.assign · counter' .addAssign amount) update) ∧
    NodeAt p span (.forLoop · (.mk .let (.ident var.text) none (some first)) test update body) t

/-- What is built for an assignment as a statement. -/
def LoweredAssignment (target value : Target.Expr) (t : Target.Stmt) : Prop :=
  ∃ e, NodeAt p span (.assign · target .assign value) e ∧ NodeAt p span (.expr · e) t

end Parts

/-- The name of a parameter. -/
def paramName : Source.Param → String
  | .named name _ => name
  | .vararg _ => "vararg"

/-- What is built for a parameter. -/
structure LoweredParam (tags : List Tag) (x : Source.Param) (y : Target.Param) : Prop where
  name : y.name = paramName x
  rest : y.rest = x.isVararg
  ty : ∀ ty ∈ y.ty, ∃ type ∈ Tag.paramTypes x.tagName tags, writtenType x.span type = .ok ty

/-- The return type that tags write for a function in an expression. -/
def LoweredReturnType (span : Span) (tags : List Tag) (ty : Option Ty) : Prop :=
  ∀ t ∈ ty, writtenReturnType span tags = .ok t

/-! ### Trees -/

section Trees

variable (ctx : Context) (p : Provenance)

mutual

/-- What is built for an expression of a statement with the given tags. -/
def LoweredExpr (tags : List Tag) : Source.Expr → Target.Expr → Prop
  | .ident name span, a => NodeAt p span (.ident · (identName name)) a
  | .literal value span, a => LoweredLiteral p span a value
  | .member base _ name span, a =>
    ∃ object, LoweredExpr tags base object ∧ NodeAt p span (.member · object name.text) a
  | .index base index span, a =>
    ∃ object i, LoweredExpr tags base object ∧ LoweredExpr tags index i ∧
      NodeAt p span (.element · object i) a
  | .unary op operand span, a =>
    ∃ e, LoweredExpr tags operand e ∧ LoweredUnary p span e a op
  | .binary lhs op rhs span, a =>
    ∃ b op' c, binaryOp? op = some op' ∧ LoweredExpr tags lhs b ∧ LoweredExpr tags rhs c ∧
      NodeAt p span (.binary · b op' c) a
  | .logical lhs op rhs span, a =>
    ∃ b c, LoweredExpr tags lhs b ∧ LoweredExpr tags rhs c ∧
      NodeAt p span (.binary · b (logicalOp op) c) a
  | .table fields span, a =>
    (∃ es, LoweredElements tags fields es ∧ NodeAt p span (.array · es) a) ∨
      ∃ ps, LoweredProperties tags fields ps ∧ NodeAt p span (.object · ps) a
  | .call base args span, a =>
    ∃ callee as, LoweredExpr tags base callee ∧ LoweredExprs tags args as ∧
      NodeAt p span (.call · callee as) a
  | .stringCall base argument span, a | .tableCall base argument span, a =>
    ∃ callee arg, LoweredExpr tags base callee ∧ LoweredExpr tags argument arg ∧
      NodeAt p span (.call · callee [arg]) a
  | .function func span, a =>
    ∃ ty f, LoweredReturnType span tags ty ∧ LoweredFunction tags false ty func f ∧
      NodeAt p span (.function · f) a

/-- What is built for expressions in order. -/
def LoweredExprs (tags : List Tag) : List Source.Expr → List Target.Expr → Prop
  | [], as => as = []
  | e :: es, as => ∃ b bs, LoweredExpr tags e b ∧ LoweredExprs tags es bs ∧ as = b :: bs

/-- What is built for fields, all of them without keys. -/
def LoweredElements (tags : List Tag) : List Source.Field → List Target.Expr → Prop
  | [], as => as = []
  | .positional value _ :: fs, as =>
    ∃ b bs, LoweredExpr tags value b ∧ LoweredElements tags fs bs ∧ as = b :: bs
  | .keyed .. :: _, _ | .named .. :: _, _ => False

/-- What is built for fields, all of them with keys. -/
def LoweredProperties (tags : List Tag) : List Source.Field → List Target.Property → Prop
  | [], ps => ps = []
  | .named key value _ :: fs, ps =>
    ∃ v qs, LoweredExpr tags value v ∧ LoweredProperties tags fs qs ∧ ps = .named key.text v :: qs
  | .keyed key value _ :: fs, ps =>
    ∃ k v qs, LoweredExpr tags key k ∧ LoweredExpr tags value v ∧ LoweredProperties tags fs qs ∧
      ps = .computed k v :: qs
  | .positional .. :: _, _ => False

/-- What is built for a function. -/
def LoweredFunction (tags : List Tag) (method : Bool) (ty : Option Ty) :
    Source.Function → Target.Function → Prop
  | .mk params body, f =>
    ∃ ps out, List.Forall₂ (LoweredParam tags) params ps ∧ LoweredBlock false body out ∧
      f = .mk (if method then selfParam :: ps else ps) ty out

/-- What is built for a statement with the given tags. -/
def LoweredStmt (top : Bool) (tags : List Tag) : Source.Stmt → Target.Stmt → Prop
  | .localDecl names init span, t =>
    ∃ ty es value, writtenLocalType span tags names = .ok ty ∧ LoweredExprs tags init es ∧
      JoinedValues p (spanOf init .unknown) value es ∧
      NodeAt p span (.var · (.mk .let (bindingOf names) ty value)) t
  | .assign targets init span, t =>
    ∃ lhs target es value v, LoweredExprs tags targets lhs ∧
      JoinedTargets p (spanOf targets span) target lhs ∧ LoweredExprs tags init es ∧
      JoinedValues p (spanOf init .unknown) value es ∧ AssignedValue p span v value ∧
      LoweredAssignment p span target v t
  | .call call span, t => ∃ e, LoweredExpr tags call e ∧ NodeAt p span (.expr · e) t
  | .functionDecl (.ident ident _) _ func span, t =>
    ∃ ty f, writtenReturnType span tags = .ok ty ∧ LoweredFunction tags false (some ty) func f ∧
      NodeAt p span (.functionDecl · ident false f) t
  | .functionDecl (.member base indexer member memberSpan) _ func span, t =>
    ∃ ty object target f value, writtenReturnType span tags = .ok ty ∧
      LoweredExpr tags base object ∧ NodeAt p memberSpan (.member · object member.text) target ∧
      LoweredFunction tags (indexer = .colon) (some ty) func f ∧
      NodeAt p span (.function · f) value ∧ LoweredAssignment p span target value t
  | .functionDecl .., _ => False
  | .returnStmt values span, t =>
    ∃ es value, LoweredExprs tags values es ∧ JoinedValues p (spanOf values .unknown) value es ∧
      ((∃ v, top = true ∧ value = some v ∧ NodeAt p span (.exportAssign · v) t) ∨
        (top = false ∨ value = none) ∧ NodeAt p span (.returnStmt · value) t)
  | .ifStmt cond thenBlock clauses elseBlock span, t =>
    ∃ c body last branch, LoweredExpr tags cond c ∧ LoweredBlock false thenBlock body ∧
      LoweredElse elseBlock last ∧ LoweredClauses tags last clauses branch ∧
      NodeAt p span (.ifStmt · c body branch) t
  | .whileLoop cond block span, t =>
    ∃ c body, LoweredExpr tags cond c ∧ LoweredBlock false block body ∧
      NodeAt p span (.whileLoop · c body) t
  | .forNumeric var start stop step block span, t =>
    ∃ first last amount body, LoweredExpr tags start first ∧ LoweredExpr tags stop last ∧
      LoweredStep tags step amount ∧ LoweredBlock false block body ∧
      LoweredLoop p span var first last amount body t
  | .forGeneric vars iterators block span, t =>
    ∃ iterable body, LoweredIterable tags span iterators iterable ∧ LoweredBlock false block body ∧
      NodeAt p span (.forOf · (.array (vars.map Source.Name.text)) iterable body) t
  | .breakStmt span, t => NodeAt p span .breakStmt t
  | .repeatLoop .., _ | .doBlock .., _ | .goto .., _ | .label .., _ => False

/-- What is built for the block behind `else`. -/
def LoweredElse : Option Block → Target.Else → Prop
  | none, last => last = .none
  | some block, last => ∃ out, LoweredBlock false block out ∧ last = .block out

/-- What is built for the step of a loop over numbers. -/
def LoweredStep (tags : List Tag) : Option Source.Expr → Option Target.Expr → Prop
  | none, amount => amount = none
  | some step, amount => ∃ a, LoweredExpr tags step a ∧ amount = some a

/-- What is built for the iterator of a loop at `span`. -/
def LoweredIterable (tags : List Tag) (span : Span) : List Source.Expr → Target.Expr → Prop
  | [], iterable => NodeAt p span (.ident · "undefined") iterable
  | [e], iterable => LoweredExpr tags e iterable
  | _ :: _ :: _, _ => False

/-- What is built for clauses, which is followed by `last`. -/
def LoweredClauses (tags : List Tag) (last : Target.Else) : List Source.Clause → Target.Else → Prop
  | [], branch => branch = last
  | .mk cond block :: cs, branch =>
    ∃ c body rest s, LoweredExpr tags cond c ∧ LoweredBlock false block body ∧
      LoweredClauses tags last cs rest ∧ NodeAt p cond.span (.ifStmt · c body rest) s ∧
      branch = .elseIf s

/-- What is built for the statements that follow the offset `floor` and satisfy `keep`. -/
def LoweredStmts (top : Bool) (keep : Source.Stmt → Bool) (floor : Nat) :
    List Source.Stmt → List Target.Stmt → Prop
  | [], ts => ts = []
  | s :: ss, ts =>
    if keep s then
      ∃ u us, LoweredStmt top (Source.tagsAbove ctx.comments floor s) s u ∧
        LoweredStmts top keep s.span.stop ss us ∧ ts = u :: us
    else LoweredStmts top keep s.span.stop ss ts

/-- What is built for a function declared under a member of a name, as an exported function. -/
def LoweredExport (tags : List Tag) : Source.Stmt → Target.Stmt → Prop
  | .functionDecl (.member _ indexer member _) _ func span, t =>
    ∃ ty f, writtenReturnType span tags = .ok ty ∧
      LoweredFunction tags (indexer = .colon) (some ty) func f ∧
      NodeAt p span (.functionDecl · member.text true f) t
  | _, _ => False

/-- What is built for the functions declared under a member, as exported functions. -/
def LoweredExports (floor : Nat) : List Source.Stmt → List Target.Stmt → Prop
  | [], ts => ts = []
  | s :: ss, ts =>
    if s.isMemberDecl then
      ∃ u us, LoweredExport (Source.tagsAbove ctx.comments floor s) s u ∧
        LoweredExports s.span.stop ss us ∧ ts = u :: us
    else LoweredExports s.span.stop ss ts

/-- What is built for a function declared under a member, as a method. -/
def LoweredMethod (tags : List Tag) : Source.Stmt → Target.Method → Prop
  | .functionDecl (.member _ indexer member _) _ func span, m =>
    ∃ ty f, writtenReturnType span tags = .ok ty ∧ LoweredFunction tags false (some ty) func f ∧
      NodeAt p span (.mk · member.text (indexer = .dot) f) m
  | _, _ => False

/-- What is built for the functions declared under a member, as methods. -/
def LoweredMethods (floor : Nat) : List Source.Stmt → List Target.Method → Prop
  | [], ms => ms = []
  | s :: ss, ms =>
    if s.isMemberDecl then
      ∃ m ns, LoweredMethod (Source.tagsAbove ctx.comments floor s) s m ∧
        LoweredMethods s.span.stop ss ns ∧ ms = m :: ns
    else LoweredMethods s.span.stop ss ms

/-- What is built for the statements of a block. -/
def LoweredBlock (top : Bool) : Block → List Target.Stmt → Prop
  | .mk start stmts, out =>
    match shapeOf ctx top start stmts, stmts with
    | .moduleBlock, first :: rest =>
      ∃ exports others, LoweredExports first.span.stop rest exports ∧
        LoweredStmts top (!·.isMemberDecl) first.span.stop rest others ∧ out = exports ++ others
    | .classBlock name span, first :: rest =>
      ∃ methods t others, LoweredMethods first.span.stop rest methods ∧
        NodeAt p span (.classDecl · name methods) t ∧
        LoweredStmts top (!·.isMemberDecl) first.span.stop rest others ∧ out = t :: others
    | _, stmts => LoweredStmts top (fun _ => true) start stmts out

end

end Trees

/-! ### Lowering -/

section Lowering

variable {ctx : Context} {p : Provenance} {span : Span} {α : Type}

theorem Builds.nodeAt {build : Nat → α} :
    Builds p (Lowering.node span build) (NodeAt p span build) := .node fun id hid => ⟨id, hid, rfl⟩

theorem lowered_lowerLiteral (value : Source.Literal) :
    Builds p (lowerLiteral span value) fun a => LoweredLiteral p span a value := by
  cases value with
  | vararg =>
    exact Builds.nodeAt.bind fun rest => Builds.nodeAt.mono fun a ha hrest => ⟨rest, hrest, ha⟩
  | number | string | bool | nil =>
    rw [lowerLiteral]
    exact .node fun id hid => ⟨id, hid, rfl⟩

theorem lowered_lowerUnary (e : Target.Expr) (op : Source.UnaryOp) :
    Builds p (lowerUnary span e op) fun a => LoweredUnary p span e a op := by
  cases op <;> rw [lowerUnary] <;> exact .node fun id hid => ⟨id, hid, rfl⟩

theorem lowered_lowerParam {tags : List Tag} (x : Source.Param) :
    Builds p (lowerParam tags x) (LoweredParam tags x) := by
  -- the parameter is returned with its type, whatever was reported before
  have hparam : ∀ ty : Option Ty, Builds p (match x with
      | .named name _ => return ⟨name, false, ty⟩
      | .vararg _ => return ⟨"vararg", true, ty⟩ : Lower Target.Param) fun y =>
        (∀ t ∈ ty, ∃ type ∈ Tag.paramTypes x.tagName tags, writtenType x.span type = .ok t) →
          LoweredParam tags x y := by
    intro ty
    cases x <;> exact .pure fun hty => ⟨rfl, rfl, hty⟩
  have htype : ∀ type ∈ Tag.paramTypes x.tagName tags,
      Builds p (some <$> ofExcept (writtenType x.span type) : Lower (Option Ty)) fun ty =>
        ∀ t ∈ ty, ∃ type ∈ Tag.paramTypes x.tagName tags, writtenType x.span type = .ok t := by
    intro type hmem
    refine .map (Builds.ofExcept.mono fun t ht => ?_)
    rintro _ ⟨⟩
    exact ⟨type, hmem, ht⟩
  rw [lowerParam]
  split
  next => exact Builds.diagnose.bind fun _ => (hparam none).mono fun y hy _ => hy (by rintro _ ⟨⟩)
  next type htypes => exact (htype type (by simp [htypes])).bind fun ty => hparam ty
  next type types _ htypes =>
    refine Builds.diagnose.bind fun _ => (htype type (by simp [htypes])).bind fun ty => ?_
    exact (hparam ty).mono fun y hy hty _ => hy hty

theorem lowered_lowerParams {tags : List Tag} (xs : List Source.Param) :
    Builds p (lowerParams tags xs) (List.Forall₂ (LoweredParam tags) xs) := by
  induction xs with
  | nil => exact .pure .nil
  | cons x xs ih =>
    exact (lowered_lowerParam x).bind fun y => ih.bind fun ys => .pure fun hys hy => .cons hy hys

theorem joined_joinValues (es : List Target.Expr) :
    Builds p (joinValues span es) fun o => JoinedValues p span o es := by
  rcases es with _ | ⟨e, _ | ⟨e', es⟩⟩
  · exact .pure rfl
  · exact .pure rfl
  · exact .map (Builds.nodeAt.mono fun a ha => ⟨a, ha, rfl⟩)

theorem joined_joinTargets (es : List Target.Expr) :
    Builds p (joinTargets span es) fun a => JoinedTargets p span a es := by
  rcases es with _ | ⟨e, _ | ⟨e', es⟩⟩
  · rw [joinTargets]
    · exact .node fun id hid => ⟨id, hid, rfl⟩
    · simp
  · exact .pure rfl
  · rw [joinTargets]
    · exact .node fun id hid => ⟨id, hid, rfl⟩
    · simp

theorem lowered_assignment {target value : Target.Expr} :
    Builds p (do
      let e ← node span (.assign · target .assign value)
      node span (.expr · e)) (LoweredAssignment p span target value) :=
  Builds.nodeAt.bind fun e => Builds.nodeAt.mono fun _ ht he => ⟨e, he, ht⟩

/-- What is built for a clause, before the branches are chained. -/
def LoweredClause (ctx : Context) (p : Provenance) (tags : List Tag) :
    Source.Clause → Target.Expr × List Target.Stmt × Span → Prop
  | .mk cond block, (c, body, span) =>
    LoweredExpr ctx p tags cond c ∧ LoweredBlock ctx p false block body ∧ span = cond.span

theorem lowered_chain (ctx : Context) (tags : List Tag)
    (xs : List (Target.Expr × List Target.Stmt × Span)) (last : Target.Else) :
    Builds p (chain xs last) fun branch => ∀ cs,
      List.Forall₂ (LoweredClause ctx p tags) cs xs → LoweredClauses ctx p tags last cs branch := by
  induction xs with
  | nil =>
    refine .pure fun cs hcs => ?_
    cases hcs
    rfl
  | cons x xs ih =>
    obtain ⟨c, body, span⟩ := x
    refine ih.bind fun rest => Builds.nodeAt.bind fun s => .pure fun hs hrest cs hcs => ?_
    cases hcs with
    | @cons clause _ cs _ hclause hcs =>
      obtain ⟨cond, block⟩ := clause
      obtain ⟨hc, hbody, rfl⟩ := hclause
      exact ⟨c, body, rest, s, hc, hbody, hrest cs hcs, hs, rfl⟩

/-- A loop over numbers, behind its bounds and its step. -/
theorem lowered_loop {var : Source.Name} {block : Block} {first last : Target.Expr}
    (amount : Option Target.Expr)
    (hblock : Builds p (lowerBlock ctx false block) (LoweredBlock ctx p false block)) :
    Builds p (do
      let counter ← node var.span (.ident · var.text)
      let test ← node span (.binary · counter .lessEq last)
      let counter ← node var.span (.ident · var.text)
      let update ← match amount with
        | none => node span (.increment · counter)
        | some amount => node span (.assign · counter .addAssign amount)
      let body ← lowerBlock ctx false block
      node span (.forLoop · (.mk .let (.ident var.text) none (some first)) test update body))
        fun t => ∃ body, LoweredBlock ctx p false block body ∧
          LoweredLoop p span var first last amount body t := by
  refine Builds.nodeAt.bind fun counter => Builds.nodeAt.bind fun test => ?_
  refine Builds.nodeAt.bind fun counter' => ?_
  cases amount with
  | none | some amount =>
    refine Builds.nodeAt.bind fun update => hblock.bind fun body => ?_
    exact Builds.nodeAt.mono fun t ht hbody hupdate hcounter' htest hcounter =>
      ⟨body, hbody, counter, counter', test, update, hcounter, htest, hcounter', hupdate, ht⟩

section Shape

variable {top : Bool} {start : Nat} {first : Source.Stmt} {rest : List Source.Stmt}
  {out : List Target.Stmt}

theorem loweredBlock_plain {stmts : List Source.Stmt} (h : shapeOf ctx top start stmts = .plain) :
    LoweredBlock ctx p top (.mk start stmts) out ↔
      LoweredStmts ctx p top (fun _ => true) start stmts out := by
  rw [LoweredBlock.eq_def]
  simp only [h]

theorem loweredBlock_module (h : shapeOf ctx top start (first :: rest) = .moduleBlock) :
    LoweredBlock ctx p top (.mk start (first :: rest)) out ↔
      ∃ exports others, LoweredExports ctx p first.span.stop rest exports ∧
        LoweredStmts ctx p top (!·.isMemberDecl) first.span.stop rest others ∧
        out = exports ++ others := by
  rw [LoweredBlock.eq_def]
  simp only [h]

theorem loweredBlock_class {name : String}
    (h : shapeOf ctx top start (first :: rest) = .classBlock name span) :
    LoweredBlock ctx p top (.mk start (first :: rest)) out ↔
      ∃ methods t others, LoweredMethods ctx p first.span.stop rest methods ∧
        NodeAt p span (.classDecl · name methods) t ∧
        LoweredStmts ctx p top (!·.isMemberDecl) first.span.stop rest others ∧
        out = t :: others := by
  rw [LoweredBlock.eq_def]
  simp only [h]

end Shape

mutual

theorem lowered_lowerExpr : ∀ (e : Source.Expr) {tags : List Tag},
    Builds p (lowerExpr ctx tags e) (LoweredExpr ctx p tags e)
  | .ident name span, tags => Builds.nodeAt.mono fun a ha => ha
  | .literal value span, tags => lowered_lowerLiteral value
  | .member base _ name span, tags => by
    rw [lowerExpr]
    refine (lowered_lowerExpr base).bind fun object => Builds.nodeAt.mono fun a ha hbase => ?_
    exact ⟨object, hbase, ha⟩
  | .index base index span, tags => by
    rw [lowerExpr]
    refine (lowered_lowerExpr base).bind fun object => (lowered_lowerExpr index).bind fun i => ?_
    exact Builds.nodeAt.mono fun a ha hindex hbase => ⟨object, i, hbase, hindex, ha⟩
  | .unary op operand span, tags => by
    rw [lowerExpr]
    refine (lowered_lowerExpr operand).bind fun e => (lowered_lowerUnary e op).mono ?_
    exact fun a ha he => ⟨e, he, ha⟩
  | .binary lhs op rhs span, tags => by
    rw [lowerExpr]
    split
    · exact .throw
    next op' hop =>
      refine (lowered_lowerExpr lhs).bind fun b => (lowered_lowerExpr rhs).bind fun c => ?_
      exact Builds.nodeAt.mono fun a ha hc hb => ⟨b, op', c, hop, hb, hc, ha⟩
  | .logical lhs op rhs span, tags => by
    rw [lowerExpr]
    refine (lowered_lowerExpr lhs).bind fun b => (lowered_lowerExpr rhs).bind fun c => ?_
    exact Builds.nodeAt.mono fun a ha hc hb => ⟨b, c, hb, hc, ha⟩
  | .table fields span, tags => by
    rw [lowerExpr]
    split
    · split
      next hall =>
        refine (lowered_lowerElements fields).bind fun es => Builds.nodeAt.mono fun a ha hes => ?_
        exact .inl ⟨es, hes hall, ha⟩
      · exact .throw
    next hnone =>
      refine (lowered_lowerProperties fields).bind fun ps => Builds.nodeAt.mono fun a ha hps => ?_
      exact .inr ⟨ps, hps (by simpa using hnone), ha⟩
  | .call base args span, tags => by
    rw [lowerExpr]
    refine (lowered_lowerExpr base).bind fun callee => (lowered_lowerExprs args).bind fun as => ?_
    exact Builds.nodeAt.mono fun a ha has hbase => ⟨callee, as, hbase, has, ha⟩
  | .stringCall base argument span, tags | .tableCall base argument span, tags => by
    rw [lowerExpr]
    refine (lowered_lowerExpr base).bind fun callee => (lowered_lowerExpr argument).bind fun b => ?_
    exact Builds.nodeAt.mono fun a ha hb hbase => ⟨callee, b, hbase, hb, ha⟩
  | .function func span, tags => by
    rw [lowerExpr]
    have hfunction : ∀ ty, Builds p (do
        let f ← lowerFunction ctx tags false ty func
        node span (Target.Expr.function · f)) fun a => LoweredReturnType span tags ty →
          LoweredExpr ctx p tags (.function func span) a := by
      intro ty
      refine (lowered_lowerFunction func).bind fun f => Builds.nodeAt.mono fun a ha hf hty => ?_
      exact ⟨ty, f, hty, hf, ha⟩
    dsimp only
    split
    · exact (hfunction none).mono fun a ha => ha (by rintro _ ⟨⟩)
    · have hsome : Builds p (some <$> ofExcept (writtenReturnType span tags) : Lower (Option Ty))
          (LoweredReturnType span tags) := by
        refine .map (Builds.ofExcept.mono fun ty hty => ?_)
        rintro _ ⟨⟩
        exact hty
      exact hsome.bind fun ty => hfunction ty

theorem lowered_lowerExprs : ∀ (es : List Source.Expr) {tags : List Tag},
    Builds p (lowerExprs ctx tags es) (LoweredExprs ctx p tags es)
  | [], tags => .pure rfl
  | e :: es, tags => by
    rw [lowerExprs]
    refine (lowered_lowerExpr e).bind fun b => (lowered_lowerExprs es).bind fun bs => ?_
    exact .pure fun hbs hb => ⟨b, bs, hb, hbs, rfl⟩

theorem lowered_lowerElements : ∀ (fs : List Source.Field) {tags : List Tag},
    Builds p (lowerElements ctx tags fs) fun as => fs.all Source.Field.isPositional = true →
      LoweredElements ctx p tags fs as
  | [], tags => .pure fun _ => rfl
  | .positional value _ :: fs, tags => by
    rw [lowerElements]
    refine (lowered_lowerExpr value).bind fun b => (lowered_lowerElements fs).bind fun bs => ?_
    refine .pure fun hbs hb hall => ⟨b, bs, hb, hbs ?_, rfl⟩
    simpa [Source.Field.isPositional] using hall
  | .keyed key value span :: fs, tags | .named key value span :: fs, tags => by
    rw [lowerElements]
    · refine (lowered_lowerElements fs).mono fun as _ hall => ?_
      simp [Source.Field.isPositional] at hall
    · simp

theorem lowered_lowerProperties : ∀ (fs : List Source.Field) {tags : List Tag},
    Builds p (lowerProperties ctx tags fs) fun ps => fs.any Source.Field.isPositional = false →
      LoweredProperties ctx p tags fs ps
  | [], tags => .pure fun _ => rfl
  | .named key value _ :: fs, tags => by
    rw [lowerProperties]
    refine (lowered_lowerExpr value).bind fun v => (lowered_lowerProperties fs).bind fun qs => ?_
    refine .pure fun hqs hv hnone => ⟨v, qs, hv, hqs ?_, rfl⟩
    simpa [Source.Field.isPositional] using hnone
  | .keyed key value _ :: fs, tags => by
    rw [lowerProperties]
    refine (lowered_lowerExpr key).bind fun k => (lowered_lowerExpr value).bind fun v => ?_
    refine (lowered_lowerProperties fs).bind fun qs => .pure fun hqs hv hk hnone => ?_
    refine ⟨k, v, qs, hk, hv, hqs ?_, rfl⟩
    simpa [Source.Field.isPositional] using hnone
  | .positional value span :: fs, tags => by
    rw [lowerProperties]
    refine (lowered_lowerProperties fs).mono fun ps _ hnone => ?_
    simp [Source.Field.isPositional] at hnone

theorem lowered_lowerFunction : ∀ (func : Source.Function) {tags : List Tag} {method : Bool}
    {ty : Option Ty}, Builds p (lowerFunction ctx tags method ty func)
      (LoweredFunction ctx p tags method ty func)
  | .mk params body, tags, method, ty => by
    rw [lowerFunction]
    refine (lowered_lowerParams params).bind fun ps => (lowered_lowerBlock body).bind fun out => ?_
    exact .pure fun hout hps => ⟨ps, out, hps, hout, rfl⟩

theorem lowered_lowerTargets : ∀ (es : List Source.Expr) {tags : List Tag},
    Builds p (lowerTargets ctx tags es) (LoweredExprs ctx p tags es)
  | [], tags => .pure rfl
  | e :: es, tags => by
    rw [lowerTargets]
    split
    · refine (lowered_lowerExpr e).bind fun b => (lowered_lowerTargets es).bind fun bs => ?_
      exact .pure fun hbs hb => ⟨b, bs, hb, hbs, rfl⟩
    · exact .throw

theorem lowered_lowerStmt : ∀ (s : Source.Stmt) {top : Bool} {tags : List Tag},
    Builds p (lowerStmt ctx top tags s) (LoweredStmt ctx p top tags s)
  | .localDecl names init span, top, tags => by
    rw [lowerStmt]
    refine Builds.ofExcept.bind fun ty => (lowered_lowerExprs init).bind fun es => ?_
    refine (joined_joinValues es).bind fun value => Builds.nodeAt.mono fun t ht hvalue hes hty => ?_
    exact ⟨ty, es, value, hty, hes, hvalue, ht⟩
  | .assign targets init span, top, tags => by
    rw [lowerStmt]
    refine (lowered_lowerTargets targets).bind fun lhs => ?_
    refine (joined_joinTargets lhs).bind fun target => ?_
    refine (lowered_lowerExprs init).bind fun es => (joined_joinValues es).bind fun value => ?_
    cases value with
    | some v =>
      refine lowered_assignment.mono fun t ht hvalue hes htarget hlhs => ?_
      exact ⟨lhs, target, es, some v, v, hlhs, htarget, hes, hvalue, rfl, ht⟩
    | none =>
      refine Builds.nodeAt.bind fun v => lowered_assignment.mono ?_
      exact fun t ht hv hvalue hes htarget hlhs =>
        ⟨lhs, target, es, none, v, hlhs, htarget, hes, hvalue, hv, ht⟩
  | .call e span, top, tags => by
    rw [lowerStmt]
    refine (lowered_lowerExpr e).bind fun a => Builds.nodeAt.mono fun t ht ha => ?_
    exact ⟨a, ha, ht⟩
  | .functionDecl name isLocal func span, top, tags => by
    rw [lowerStmt]
    -- stated before `name` is split, while it is still a part of the statement
    have hname : Builds p (lowerExpr ctx tags name) (LoweredExpr ctx p tags name) :=
      lowered_lowerExpr name
    refine Builds.ofExcept.bind fun ty => ?_
    split
    · refine (lowered_lowerFunction func).bind fun f => Builds.nodeAt.mono fun t ht hf hty => ?_
      exact ⟨ty, f, hty, hf, ht⟩
    · refine hname.bind fun target => (lowered_lowerFunction func).bind fun f => ?_
      refine Builds.nodeAt.bind fun value => lowered_assignment.mono ?_
      rintro t ht hvalue hf ⟨object, hobject, htarget⟩ hty
      exact ⟨ty, object, target, f, value, hty, hobject, htarget, hf, hvalue, ht⟩
    · exact .throw
  | .returnStmt values span, top, tags => by
    rw [lowerStmt]
    refine (lowered_lowerExprs values).bind fun es => (joined_joinValues es).bind fun value => ?_
    cases value with
    | none =>
      refine Builds.nodeAt.mono fun t ht hvalue hes => ?_
      exact ⟨es, none, hes, hvalue, .inr ⟨.inr rfl, ht⟩⟩
    | some v =>
      dsimp only
      split
      next htop =>
        refine Builds.nodeAt.mono fun t ht hvalue hes => ?_
        exact ⟨es, some v, hes, hvalue, .inl ⟨v, htop, rfl, ht⟩⟩
      next htop =>
        refine Builds.nodeAt.mono fun t ht hvalue hes => ?_
        exact ⟨es, some v, hes, hvalue, .inr ⟨.inl (Bool.eq_false_iff.2 htop), ht⟩⟩
  | .ifStmt cond thenBlock clauses elseBlock span, top, tags => by
    rw [lowerStmt]
    refine (lowered_lowerExpr cond).bind fun c => (lowered_lowerBlock thenBlock).bind fun body => ?_
    refine (lowered_lowerClauses clauses).bind fun xs => ?_
    cases elseBlock with
    | none =>
      refine (lowered_chain ctx tags xs .none).bind fun branch => Builds.nodeAt.mono ?_
      exact fun t ht hbranch hxs hbody hc =>
        ⟨c, body, .none, branch, hc, hbody, rfl, hbranch clauses hxs, ht⟩
    | some block =>
      have hlast : Builds p (.block <$> lowerBlock ctx false block) fun last : Target.Else =>
          ∃ out, LoweredBlock ctx p false block out ∧ last = .block out :=
        .map ((lowered_lowerBlock block).mono fun out hout => ⟨out, hout, rfl⟩)
      refine hlast.bind fun last => (lowered_chain ctx tags xs last).bind fun branch => ?_
      exact Builds.nodeAt.mono fun t ht hbranch hlast hxs hbody hc =>
        ⟨c, body, last, branch, hc, hbody, hlast, hbranch clauses hxs, ht⟩
  | .whileLoop cond block span, top, tags => by
    rw [lowerStmt]
    refine (lowered_lowerExpr cond).bind fun c => (lowered_lowerBlock block).bind fun body => ?_
    exact Builds.nodeAt.mono fun t ht hbody hc => ⟨c, body, hc, hbody, ht⟩
  | .forNumeric var start stop step block span, top, tags => by
    rw [lowerStmt]
    refine (lowered_lowerExpr start).bind fun first => (lowered_lowerExpr stop).bind fun last => ?_
    cases step with
    | none =>
      refine (lowered_loop none (lowered_lowerBlock block)).mono fun t ht hlast hfirst => ?_
      obtain ⟨body, hbody, ht⟩ := ht
      exact ⟨first, last, none, body, hfirst, hlast, rfl, hbody, ht⟩
    | some step =>
      have hstep : Builds p (some <$> lowerExpr ctx tags step) fun amount => ∃ a,
          LoweredExpr ctx p tags step a ∧ amount = some a :=
        .map ((lowered_lowerExpr step).mono fun a ha => ⟨a, ha, rfl⟩)
      refine hstep.bind fun amount => (lowered_loop amount (lowered_lowerBlock block)).mono ?_
      rintro t ⟨body, hbody, ht⟩ hamount hlast hfirst
      exact ⟨first, last, amount, body, hfirst, hlast, hamount, hbody, ht⟩
  | .forGeneric vars [] block span, top, tags => by
    rw [lowerStmt]
    refine Builds.nodeAt.bind fun iterable => (lowered_lowerBlock block).bind fun body => ?_
    exact Builds.nodeAt.mono fun t ht hbody hiterable => ⟨iterable, body, hiterable, hbody, ht⟩
  | .forGeneric vars [e] block span, top, tags => by
    rw [lowerStmt]
    refine (lowered_lowerExpr e).bind fun iterable => (lowered_lowerBlock block).bind fun body => ?_
    exact Builds.nodeAt.mono fun t ht hbody hiterable => ⟨iterable, body, hiterable, hbody, ht⟩
  | .forGeneric vars (_ :: _ :: _) block span, top, tags => by
    rw [lowerStmt]
    -- the failure is met before the block, but the equation keeps what would follow it
    have hthrow : ∀ e, Builds p (throw e : Lower Target.Expr) fun _ => False := fun e => .throw
    refine (hthrow _).bind fun iterable => (lowered_lowerBlock block).bind fun body => ?_
    exact Builds.nodeAt.mono fun t ht hbody hfalse => hfalse.elim
  | .breakStmt span, top, tags => by
    rw [lowerStmt]
    exact Builds.nodeAt.mono fun t ht => ht
  | .repeatLoop .., top, tags | .doBlock .., top, tags | .goto .., top, tags
  | .label .., top, tags => by
    rw [lowerStmt]
    exact .throw

theorem lowered_lowerClauses : ∀ (cs : List Source.Clause) {tags : List Tag},
    Builds p (lowerClauses ctx tags cs) (List.Forall₂ (LoweredClause ctx p tags) cs)
  | [], tags => .pure .nil
  | .mk cond block :: cs, tags => by
    rw [lowerClauses]
    refine (lowered_lowerExpr cond).bind fun c => (lowered_lowerBlock block).bind fun body => ?_
    refine (lowered_lowerClauses cs).bind fun xs => .pure fun hxs hbody hc => ?_
    exact .cons ⟨hc, hbody, rfl⟩ hxs

theorem lowered_lowerStmts : ∀ (ss : List Source.Stmt) {top : Bool} {keep : Source.Stmt → Bool}
    {floor : Nat}, Builds p (lowerStmts ctx top keep floor ss)
      (LoweredStmts ctx p top keep floor ss)
  | [], top, keep, floor => .pure rfl
  | s :: ss, top, keep, floor => by
    rw [lowerStmts]
    split
    next hkeep =>
      refine (lowered_lowerStmt s).bind fun u => (lowered_lowerStmts ss).bind fun us => ?_
      refine .pure fun hus hu => ?_
      rw [LoweredStmts, if_pos hkeep]
      exact ⟨u, us, hu, hus, rfl⟩
    next hkeep =>
      refine (lowered_lowerStmts ss).mono fun us hus => ?_
      rwa [LoweredStmts, if_neg hkeep]

theorem lowered_lowerExport : ∀ (s : Source.Stmt) (_ : s.isMemberDecl = true) {tags : List Tag},
    Builds p (lowerExport ctx tags s) (LoweredExport ctx p tags s)
  | .functionDecl (.member base indexer member _) _ func span, _, tags => by
    rw [lowerExport]
    split
    · exact .throw
    · refine Builds.ofExcept.bind fun ty => (lowered_lowerFunction func).bind fun f => ?_
      exact Builds.nodeAt.mono fun t ht hf hty => ⟨ty, f, hty, hf, ht⟩

theorem lowered_lowerExports : ∀ (ss : List Source.Stmt) {floor : Nat},
    Builds p (lowerExports ctx floor ss) (LoweredExports ctx p floor ss)
  | [], floor => .pure rfl
  | s :: ss, floor => by
    rw [lowerExports]
    split
    next hmember =>
      refine (lowered_lowerExport s hmember).bind fun u => ?_
      refine (lowered_lowerExports ss).bind fun us => .pure fun hus hu => ?_
      rw [LoweredExports, if_pos hmember]
      exact ⟨u, us, hu, hus, rfl⟩
    next hmember =>
      refine (lowered_lowerExports ss).mono fun us hus => ?_
      rwa [LoweredExports, if_neg hmember]

theorem lowered_lowerMethod : ∀ (s : Source.Stmt) (_ : s.isMemberDecl = true) {tags : List Tag},
    Builds p (lowerMethod ctx tags s) (LoweredMethod ctx p tags s)
  | .functionDecl (.member _ indexer member _) _ func span, _, tags => by
    rw [lowerMethod]
    refine Builds.ofExcept.bind fun ty => (lowered_lowerFunction func).bind fun f => ?_
    exact Builds.nodeAt.mono fun m hm hf hty => ⟨ty, f, hty, hf, hm⟩

theorem lowered_lowerMethods : ∀ (ss : List Source.Stmt) {floor : Nat},
    Builds p (lowerMethods ctx floor ss) (LoweredMethods ctx p floor ss)
  | [], floor => .pure rfl
  | s :: ss, floor => by
    rw [lowerMethods]
    split
    next hmember =>
      refine (lowered_lowerMethod s hmember).bind fun m => ?_
      refine (lowered_lowerMethods ss).bind fun ms => .pure fun hms hm => ?_
      rw [LoweredMethods, if_pos hmember]
      exact ⟨m, ms, hm, hms, rfl⟩
    next hmember =>
      refine (lowered_lowerMethods ss).mono fun ms hms => ?_
      rwa [LoweredMethods, if_neg hmember]

theorem lowered_lowerBlock : ∀ (b : Block) {top : Bool},
    Builds p (lowerBlock ctx top b) (LoweredBlock ctx p top b)
  | .mk start [], top => by
    rw [lowerBlock_plain rfl]
    exact .pure ((loweredBlock_plain rfl).2 rfl)
  | .mk start (first :: rest), top => by
    rcases shapeOf_cons_cases ctx top start first rest with
      ⟨hshape, -⟩ | ⟨hshape, -⟩ | ⟨name, _, _, span, -, hshape, -⟩
    · rw [lowerBlock_plain hshape]
      exact (lowered_lowerStmts (first :: rest)).mono fun out => (loweredBlock_plain hshape).2
    · rw [lowerBlock_module hshape]
      refine (lowered_lowerExports rest).bind fun exports => ?_
      refine (lowered_lowerStmts rest).bind fun others => .pure fun hothers hexports => ?_
      exact (loweredBlock_module hshape).2 ⟨exports, others, hexports, hothers, rfl⟩
    · rw [lowerBlock_class hshape]
      refine (lowered_lowerMethods rest).bind fun methods => Builds.nodeAt.bind fun t => ?_
      refine (lowered_lowerStmts rest).bind fun others => .pure fun hothers ht hmethods => ?_
      exact (loweredBlock_class hshape).2 ⟨methods, t, others, hmethods, ht, hothers, rfl⟩

end

end Lowering

end LuaTranspiler.Lowering
