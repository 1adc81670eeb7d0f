import LuaTranspiler.Proofs.Lowering.Blocks
import LuaTranspiler.Proofs.Lowering.Building
import LuaTranspiler.Source.Chunk

/-!
# No statement is lost in a block

Lowering relates each block to what it builds of it as `BlockOf` says. The proof follows the
recursion over the tree: a part passes on the blocks inside it in order, and a block is built by
the rewrite that applies to it.

* `builds_lowerExpr`, `builds_lowerStmt`: the blocks inside an expression and a statement
* `builds_lowerStmts`, `builds_lowerExports`, `builds_lowerMethods`: statements in order
* `builds_lowerBlock`: a block
* `blockOf_lowerChunk`: a whole source
-/

namespace LuaTranspiler.Lowering

open Source (Block Comment)

/-! ### Parts without blocks of their own -/

section Parts

variable {p : Provenance}

attribute [local simp] Target.Expr.bodies

theorem builds_ident {span : Span} {text : String} :
    Builds p (node span (.ident · text)) fun e : Target.Expr => e.bodies = [] :=
  .node fun _ _ => by rw [Target.Expr.bodies]

theorem builds_test {span : Span} (counter last : Target.Expr) :
    Builds p (node span (.binary · counter .lessEq last)) fun e : Target.Expr =>
      e.bodies = counter.bodies ++ last.bodies :=
  .node fun _ _ => by rw [Target.Expr.bodies]

theorem builds_increment {span : Span} (counter : Target.Expr) :
    Builds p (node span (.increment · counter)) fun e : Target.Expr => e.bodies = counter.bodies :=
  .node fun _ _ => by rw [Target.Expr.bodies]

theorem builds_assign {span : Span} {op : Target.AssignOp} (target value : Target.Expr) :
    Builds p (node span (.assign · target op value)) fun e : Target.Expr =>
      e.bodies = target.bodies ++ value.bodies :=
  .node fun _ _ => by rw [Target.Expr.bodies]

/-- An assignment as a statement holds the bodies of its two sides. -/
theorem builds_assignment {span : Span} {target value : Target.Expr} :
    Builds p (do
      let e ← node span (.assign · target .assign value)
      node span (.expr · e)) fun t : Target.Stmt =>
        p.get? t.id = some span ∧ t.bodies = target.bodies ++ value.bodies := by
  refine (builds_assign target value).bind fun e => .node fun id hid he => ⟨hid, ?_⟩
  rw [Target.Stmt.bodies, he]

theorem builds_lowerUnary {span : Span} {e : Target.Expr} (op : Source.UnaryOp) :
    Builds p (lowerUnary span e op) fun a => a.bodies = e.bodies := by
  cases op <;> rw [lowerUnary] <;> refine .node fun _ _ => ?_ <;> rw [Target.Expr.bodies]

theorem builds_lowerLiteral {span : Span} (value : Source.Literal) :
    Builds p (lowerLiteral span value) fun a => a.bodies = [] := by
  cases value with
  | vararg =>
    refine builds_ident.bind fun rest => .node fun _ _ h => ?_
    rw [Target.Expr.bodies, h]
  | _ =>
    rw [lowerLiteral]
    refine .node fun _ _ => ?_
    rw [Target.Expr.bodies]

theorem builds_some_ofExcept {r : Except Error Ty} :
    Builds p (some <$> ofExcept r : Lower (Option Ty)) fun _ => True :=
  .map (Builds.ofExcept.mono fun _ _ => trivial)

theorem builds_lowerParam {tags : List Tag} (param : Source.Param) :
    Builds p (lowerParam tags param) fun _ => True := by
  have hparam : ∀ name rest (ty : Option Ty),
      Builds p (return ⟨name, rest, ty⟩ : Lower Target.Param) fun _ => True :=
    fun _ _ _ => .pure trivial
  cases param <;> simp only [lowerParam, pure_bind]
  all_goals
    split
    · exact Builds.diagnose.bind fun _ => (hparam _ _ none).mono fun _ h _ => h
    · exact builds_some_ofExcept.bind fun ty => (hparam _ _ ty).mono fun _ h _ => h
    · refine Builds.diagnose.bind fun _ => ?_
      exact builds_some_ofExcept.bind fun ty => (hparam _ _ ty).mono fun _ h _ _ => h

theorem builds_lowerParams {tags : List Tag} (params : List Source.Param) :
    Builds p (lowerParams tags params) fun _ => True := by
  induction params with
  | nil => exact .pure trivial
  | cons param params ih =>
    exact (builds_lowerParam param).bind fun _ => ih.bind fun _ => .pure fun _ _ => trivial

theorem builds_joinValues {span : Span} (es : List Target.Expr) :
    Builds p (joinValues span es) fun o =>
      Target.bodiesOfExprs o.toList = Target.bodiesOfExprs es := by
  match es with
  | [] => exact .pure rfl
  | [e] => exact .pure rfl
  | e :: e' :: es =>
    refine Builds.map (.node fun id _ => ?_)
    simp [Target.bodiesOfExprs, Target.Expr.bodies]

theorem builds_joinTargets {span : Span} (es : List Target.Expr) :
    Builds p (joinTargets span es) fun e => e.bodies = Target.bodiesOfExprs es := by
  match es with
  | [e] => exact .pure (by simp [Target.bodiesOfExprs])
  | [] | e :: e' :: es =>
    rw [joinTargets]
    · refine .node fun _ _ => ?_
      rw [Target.Expr.bodies]
    · simp

/-- The bodies of the branches behind an `if` are those of its clauses, in order. -/
theorem builds_chain (clauses : List (Target.Expr × List Target.Stmt × Span)) (last : Target.Else) :
    Builds p (chain clauses last) fun e =>
      e.bodies = (clauses.flatMap fun c => c.1.bodies ++ [c.2.1]) ++ last.bodies := by
  induction clauses with
  | nil => exact .pure rfl
  | cons clause clauses ih =>
    obtain ⟨cond, body, span⟩ := clause
    refine ih.bind fun rest => ?_
    have hstmt : Builds p (node span (.ifStmt · cond body rest)) fun s : Target.Stmt =>
        s.bodies = cond.bodies ++ (body :: rest.bodies) :=
      .node fun _ _ => by rw [Target.Stmt.bodies]
    refine hstmt.bind fun s => .pure fun hs hrest => ?_
    rw [Target.Else.bodies, hs, hrest]
    simp

end Parts

/-! ### Trees -/

/-- The blocks directly inside a part become the bodies directly inside what it becomes. -/
abbrev BlocksOf (ctx : Context) (p : Provenance) (bs : List Block)
    (outs : List (List Target.Stmt)) : Prop :=
  List.Forall₂ (BlockOf ctx p false) bs outs

section Trees

variable {ctx : Context} {p : Provenance}

/-- An assignment of joined values to joined targets. Where no value is written, what is assigned is
undefined and holds no bodies. -/
theorem builds_assigned {span : Span} (target : Target.Expr) (value : Option Target.Expr) :
    Builds p (do
      let e ← match value with
        | some e => pure e
        | none => node span (.ident · "undefined")
      let e ← node span (.assign · target .assign e)
      node span (.expr · e)) fun t : Target.Stmt =>
        p.get? t.id = some span ∧
          t.bodies = target.bodies ++ Target.bodiesOfExprs value.toList := by
  cases value with
  | some e =>
    refine builds_assignment.mono fun t ht => ?_
    simpa [Target.bodiesOfExprs] using ht
  | none =>
    refine builds_ident.bind fun e => builds_assignment.mono fun t ht he => ?_
    rwa [he] at ht

/-- The branches of an `if`, behind its condition, its first block and its clauses. -/
theorem builds_branches {span : Span} {elseBlock : Option Block} {c : Target.Expr}
    {body : List Target.Stmt} (xs : List (Target.Expr × List Target.Stmt × Span))
    (helse : ∀ block ∈ elseBlock, Builds p (lowerBlock ctx false block)
      fun out => BlockOf ctx p false block out) :
    Builds p (do
      let last ← match elseBlock with
        | some block => .block <$> lowerBlock ctx false block
        | none => pure .none
      let branch ← chain xs last
      node span (.ifStmt · c body branch)) fun t : Target.Stmt =>
        p.get? t.id = some span ∧ ∃ outs, BlocksOf ctx p elseBlock.toList outs ∧
          t.bodies = c.bodies ++ (body :: ((xs.flatMap fun c => c.1.bodies ++ [c.2.1]) ++ outs)) := by
  have hbranch (last : Target.Else) : Builds p (do
      let branch ← chain xs last
      node span (.ifStmt · c body branch)) fun t : Target.Stmt =>
        p.get? t.id = some span ∧ t.bodies = c.bodies ++
          (body :: ((xs.flatMap fun c => c.1.bodies ++ [c.2.1]) ++ last.bodies)) := by
    refine (builds_chain xs last).bind fun branch => .node fun id hid h => ⟨hid, ?_⟩
    rw [Target.Stmt.bodies, h]
  cases elseBlock with
  | some block =>
    have hlast : Builds p (.block <$> lowerBlock ctx false block) fun last : Target.Else =>
        BlocksOf ctx p [block] last.bodies :=
      .map ((helse block rfl).mono fun out h => .cons h .nil)
    exact hlast.bind fun last => (hbranch last).mono fun t ht hlast => ⟨ht.1, _, hlast, ht.2⟩
  | none => exact (hbranch .none).mono fun t ht => ⟨ht.1, _, .nil, ht.2⟩

/-- A loop over numbers, behind its bounds and its step. The counter is built once for the test and
once for the update, and holds no bodies. -/
theorem builds_loop {span : Span} {var : Source.Name} {block : Block} {first last : Target.Expr}
    (amount : Option Target.Expr)
    (hblock : Builds p (lowerBlock ctx false block) fun out => BlockOf ctx p false block out) :
    Builds p (do
      let counter ← node var.span (.ident · var.text)
      let test ← node span (.binary · counter .lessEq last)
      let counter ← node var.span (.ident · var.text)
      let update ← match amount with
        | none => node span (.increment · counter)
        | some amount => node span (.assign · counter .addAssign amount)
      let body ← lowerBlock ctx false block
      node span (.forLoop · (.mk .let (.ident var.text) none (some first)) test update body))
        fun t : Target.Stmt => p.get? t.id = some span ∧ ∃ body, BlockOf ctx p false block body ∧
          t.bodies = first.bodies ++ (last.bodies ++
            (Target.bodiesOfExprs amount.toList ++ [body])) := by
  refine builds_ident.bind fun counter => (builds_test counter last).bind fun test => ?_
  refine builds_ident.bind fun counter' => ?_
  cases amount with
  | none =>
    refine (builds_increment counter').bind fun update => hblock.bind fun body => ?_
    refine .node fun id hid hbody hupdate hcounter' htest hcounter => ⟨hid, body, hbody, ?_⟩
    simp [Target.Stmt.bodies, Target.VarDecl.bodies, Target.bodiesOfExprs, htest, hcounter,
      hupdate, hcounter']
  | some amount =>
    refine (builds_assign counter' amount).bind fun update => hblock.bind fun body => ?_
    refine .node fun id hid hbody hupdate hcounter' htest hcounter => ⟨hid, body, hbody, ?_⟩
    simp [Target.Stmt.bodies, Target.VarDecl.bodies, Target.bodiesOfExprs, htest, hcounter,
      hupdate, hcounter']

mutual

theorem builds_lowerExpr : ∀ (e : Source.Expr) {tags : List Tag},
    Builds p (lowerExpr ctx tags e) fun a => BlocksOf ctx p e.inner a.bodies
  | .ident name span, tags => by
    rw [lowerExpr, Source.Expr.inner]
    refine .node fun id _ => ?_
    rw [Target.Expr.bodies]
    exact .nil
  | .literal value span, tags => by
    rw [lowerExpr, Source.Expr.inner]
    refine (builds_lowerLiteral value).mono fun a ha => ?_
    rw [ha]
    exact .nil
  | .member base _ name span, tags => by
    rw [lowerExpr, Source.Expr.inner]
    refine (builds_lowerExpr base).bind fun object => .node fun id _ hbase => ?_
    rwa [Target.Expr.bodies]
  | .index base index span, tags => by
    rw [lowerExpr, Source.Expr.inner]
    refine (builds_lowerExpr base).bind fun object => (builds_lowerExpr index).bind fun i => ?_
    refine .node fun id _ hindex hbase => ?_
    rw [Target.Expr.bodies]
    exact List.rel_append hbase hindex
  | .unary op operand span, tags => by
    rw [lowerExpr, Source.Expr.inner]
    refine (builds_lowerExpr operand).bind fun e => (builds_lowerUnary op).mono fun a ha he => ?_
    rwa [ha]
  | .binary lhs op rhs span, tags => by
    rw [lowerExpr, Source.Expr.inner]
    split
    · exact .throw
    · refine (builds_lowerExpr lhs).bind fun a => (builds_lowerExpr rhs).bind fun b => ?_
      refine .node fun id _ hrhs hlhs => ?_
      rw [Target.Expr.bodies]
      exact List.rel_append hlhs hrhs
  | .logical lhs op rhs span, tags => by
    rw [lowerExpr, Source.Expr.inner]
    refine (builds_lowerExpr lhs).bind fun a => (builds_lowerExpr rhs).bind fun b => ?_
    refine .node fun id _ hrhs hlhs => ?_
    rw [Target.Expr.bodies]
    exact List.rel_append hlhs hrhs
  | .table fields span, tags => by
    rw [lowerExpr, Source.Expr.inner]
    split
    · split
      next hall =>
        refine (builds_lowerElements fields).bind fun elements => .node fun id _ h => ?_
        rw [Target.Expr.bodies]
        exact h hall
      · exact .throw
    next hnone =>
      refine (builds_lowerProperties fields).bind fun properties => .node fun id _ h => ?_
      rw [Target.Expr.bodies]
      exact h (by simpa using hnone)
  | .call base args span, tags => by
    rw [lowerExpr, Source.Expr.inner]
    refine (builds_lowerExpr base).bind fun callee => (builds_lowerExprs args).bind fun as => ?_
    refine .node fun id _ hargs hbase => ?_
    rw [Target.Expr.bodies]
    exact List.rel_append hbase hargs
  | .stringCall base argument span, tags | .tableCall base argument span, tags => by
    rw [lowerExpr, Source.Expr.inner]
    refine (builds_lowerExpr base).bind fun callee => (builds_lowerExpr argument).bind fun a => ?_
    refine .node fun id _ harg hbase => ?_
    rw [Target.Expr.bodies, Target.bodiesOfExprs, Target.bodiesOfExprs, List.append_nil]
    exact List.rel_append hbase harg
  | .function func span, tags => by
    rw [lowerExpr, Source.Expr.inner]
    have hfunction : ∀ ty, Builds p (do
        let f ← lowerFunction ctx tags false ty func
        node span (Target.Expr.function · f)) fun a => BlocksOf ctx p [func.body] a.bodies := by
      intro ty
      refine (builds_lowerFunction func).bind fun f => .node fun id _ hf => ?_
      rw [Target.Expr.bodies]
      exact .cons hf .nil
    dsimp only
    split
    · exact hfunction none
    · exact builds_some_ofExcept.bind fun ty => (hfunction ty).mono fun _ h _ => h

theorem builds_lowerExprs : ∀ (es : List Source.Expr) {tags : List Tag},
    Builds p (lowerExprs ctx tags es) fun as =>
      BlocksOf ctx p (Source.innerOfExprs es) (Target.bodiesOfExprs as)
  | [], tags => by
    rw [lowerExprs, Source.innerOfExprs]
    refine .pure ?_
    rw [Target.bodiesOfExprs]
    exact .nil
  | e :: es, tags => by
    rw [lowerExprs, Source.innerOfExprs]
    refine (builds_lowerExpr e).bind fun a => (builds_lowerExprs es).bind fun as => ?_
    refine .pure fun hes he => ?_
    rw [Target.bodiesOfExprs]
    exact List.rel_append he hes

theorem builds_lowerElements : ∀ (fs : List Source.Field) {tags : List Tag},
    Builds p (lowerElements ctx tags fs) fun as => fs.all Source.Field.isPositional = true →
      BlocksOf ctx p (Source.innerOfFields fs) (Target.bodiesOfExprs as)
  | [], tags => by
    rw [lowerElements, Source.innerOfFields]
    refine .pure fun _ => ?_
    rw [Target.bodiesOfExprs]
    exact .nil
  | .positional value _ :: fs, tags => by
    rw [lowerElements, Source.innerOfFields]
    refine (builds_lowerExpr value).bind fun a => (builds_lowerElements fs).bind fun as => ?_
    refine .pure fun hfs hvalue hall => ?_
    rw [Target.bodiesOfExprs]
    exact List.rel_append hvalue (hfs (by simpa [Source.Field.isPositional] using hall))
  | .keyed key value span :: fs, tags | .named key value span :: fs, tags => by
    -- a field with a key is skipped, so its blocks would be lost: not all fields are positional
    rw [lowerElements]
    · refine (builds_lowerElements fs).mono fun as _ hall => ?_
      simp [Source.Field.isPositional] at hall
    · simp

theorem builds_lowerProperties : ∀ (fs : List Source.Field) {tags : List Tag},
    Builds p (lowerProperties ctx tags fs) fun ps => fs.any Source.Field.isPositional = false →
      BlocksOf ctx p (Source.innerOfFields fs) (Target.bodiesOfProperties ps)
  | [], tags => by
    rw [lowerProperties, Source.innerOfFields]
    refine .pure fun _ => ?_
    rw [Target.bodiesOfProperties]
    exact .nil
  | .named key value _ :: fs, tags => by
    rw [lowerProperties, Source.innerOfFields]
    refine (builds_lowerExpr value).bind fun v => (builds_lowerProperties fs).bind fun ps => ?_
    refine .pure fun hfs hvalue hnone => ?_
    rw [Target.bodiesOfProperties]
    exact List.rel_append hvalue (hfs (by simpa [Source.Field.isPositional] using hnone))
  | .keyed key value _ :: fs, tags => by
    rw [lowerProperties, Source.innerOfFields]
    refine (builds_lowerExpr key).bind fun k => (builds_lowerExpr value).bind fun v => ?_
    refine (builds_lowerProperties fs).bind fun ps => .pure fun hfs hvalue hkey hnone => ?_
    rw [Target.bodiesOfProperties]
    exact List.rel_append hkey (List.rel_append hvalue
      (hfs (by simpa [Source.Field.isPositional] using hnone)))
  | .positional value span :: fs, tags => by
    rw [lowerProperties]
    refine (builds_lowerProperties fs).mono fun ps _ hnone => ?_
    simp [Source.Field.isPositional] at hnone

theorem builds_lowerFunction : ∀ (func : Source.Function) {tags : List Tag} {method : Bool}
    {ty : Option Ty}, Builds p (lowerFunction ctx tags method ty func) fun f =>
      BlockOf ctx p false func.body f.body
  | .mk params body, tags, method, ty => by
    rw [lowerFunction, Source.Function.body]
    refine (builds_lowerParams params).bind fun ps => (builds_lowerBlock body).bind fun stmts => ?_
    exact .pure fun hbody _ => hbody

theorem builds_lowerTargets : ∀ (es : List Source.Expr) {tags : List Tag},
    Builds p (lowerTargets ctx tags es) fun as =>
      BlocksOf ctx p (Source.innerOfExprs es) (Target.bodiesOfExprs as)
  | [], tags => by
    rw [lowerTargets, Source.innerOfExprs]
    refine .pure ?_
    rw [Target.bodiesOfExprs]
    exact .nil
  | e :: es, tags => by
    rw [lowerTargets, Source.innerOfExprs]
    split
    · refine (builds_lowerExpr e).bind fun a => (builds_lowerTargets es).bind fun as => ?_
      refine .pure fun hes he => ?_
      rw [Target.bodiesOfExprs]
      exact List.rel_append he hes
    · exact .throw

theorem builds_lowerStmt : ∀ (s : Source.Stmt) {top : Bool} {tags : List Tag},
    Builds p (lowerStmt ctx top tags s) fun t =>
      p.get? t.id = some s.span ∧ BlocksOf ctx p s.inner t.bodies
  | .localDecl names init span, top, tags => by
    rw [lowerStmt]
    refine Builds.ofExcept.bind fun ty => (builds_lowerExprs init).bind fun values => ?_
    refine (builds_joinValues values).bind fun value => .node fun id hid hvalue hinit _ => ⟨hid, ?_⟩
    rwa [Target.Stmt.bodies, Target.VarDecl.bodies, hvalue]
  | .assign targets init span, top, tags => by
    rw [lowerStmt]
    refine (builds_lowerTargets targets).bind fun lhs => ?_
    refine (builds_joinTargets lhs).bind fun target => ?_
    refine (builds_lowerExprs init).bind fun values => ?_
    refine (builds_joinValues values).bind fun value => ?_
    refine (builds_assigned target value).mono fun t ht hvalue hinit htarget htargets => ⟨ht.1, ?_⟩
    rw [ht.2, hvalue, htarget]
    exact List.rel_append htargets hinit
  | .call e span, top, tags => by
    rw [lowerStmt]
    refine (builds_lowerExpr e).bind fun a => .node fun id hid he => ⟨hid, ?_⟩
    rwa [Target.Stmt.bodies]
  | .functionDecl name isLocal func span, top, tags => by
    rw [lowerStmt]
    -- stated before `name` is split, while it is still a part of the statement
    have hname : Builds p (lowerExpr ctx tags name) fun a => BlocksOf ctx p name.inner a.bodies :=
      builds_lowerExpr name
    refine Builds.ofExcept.bind fun ty => ?_
    split
    · refine (builds_lowerFunction func).bind fun f => .node fun id hid hf _ => ⟨hid, ?_⟩
      rw [Target.Stmt.bodies, Source.Stmt.inner, Source.Expr.inner]
      exact .cons hf .nil
    · refine hname.bind fun target => (builds_lowerFunction func).bind fun f => ?_
      have hvalue : Builds p (node span (.function · f)) fun e : Target.Expr =>
          e.bodies = [f.body] :=
        .node fun _ _ => by rw [Target.Expr.bodies]
      refine hvalue.bind fun value => builds_assignment.mono fun t ht he hf htarget _ => ⟨ht.1, ?_⟩
      rw [ht.2, he]
      exact List.rel_append htarget (.cons hf .nil)
    · exact .throw
  | .returnStmt values span, top, tags => by
    rw [lowerStmt]
    refine (builds_lowerExprs values).bind fun es => (builds_joinValues es).bind fun value => ?_
    split
    · split
      · refine .node fun id hid hvalue hvalues => ⟨hid, ?_⟩
        simpa [Source.Stmt.inner, Target.Stmt.bodies, Target.bodiesOfExprs, ← hvalue] using hvalues
      · refine .node fun id hid hvalue hvalues => ⟨hid, ?_⟩
        rwa [Target.Stmt.bodies, hvalue]
    · refine .node fun id hid hvalue hvalues => ⟨hid, ?_⟩
      rwa [Target.Stmt.bodies, hvalue]
  | .ifStmt cond thenBlock clauses elseBlock span, top, tags => by
    rw [lowerStmt]
    refine (builds_lowerExpr cond).bind fun c => (builds_lowerBlock thenBlock).bind fun body => ?_
    refine (builds_lowerClauses clauses).bind fun xs => ?_
    have helse : ∀ block ∈ elseBlock, Builds p (lowerBlock ctx false block)
        fun out => BlockOf ctx p false block out := by
      cases elseBlock with
      | none => simp
      | some block => simpa using builds_lowerBlock block
    refine (builds_branches xs helse).mono ?_
    rintro t ⟨hid, outs, houts, ht⟩ hxs hthen hcond
    refine ⟨hid, ?_⟩
    rw [ht]
    exact List.rel_append hcond (.cons hthen (List.rel_append hxs houts))
  | .whileLoop cond block span, top, tags => by
    rw [lowerStmt]
    refine (builds_lowerExpr cond).bind fun c => (builds_lowerBlock block).bind fun body => ?_
    refine .node fun id hid hblock hcond => ⟨hid, ?_⟩
    rw [Target.Stmt.bodies]
    exact List.rel_append hcond (.cons hblock .nil)
  | .forNumeric var start stop step block span, top, tags => by
    rw [lowerStmt]
    refine (builds_lowerExpr start).bind fun first => (builds_lowerExpr stop).bind fun last => ?_
    cases step with
    | none =>
      refine (builds_loop none (builds_lowerBlock block)).mono ?_
      rintro t ⟨hid, body, hblock, ht⟩ hstop hstart
      refine ⟨hid, ?_⟩
      rw [ht]
      exact List.rel_append hstart (List.rel_append hstop (.cons hblock .nil))
    | some step =>
      have hstep : Builds p (some <$> lowerExpr ctx tags step) fun amount =>
          BlocksOf ctx p (Source.innerOfExprs [step]) (Target.bodiesOfExprs amount.toList) := by
        refine .map ((builds_lowerExpr step).mono fun a ha => ?_)
        simpa [Source.innerOfExprs, Target.bodiesOfExprs] using ha
      refine hstep.bind fun amount => (builds_loop amount (builds_lowerBlock block)).mono ?_
      rintro t ⟨hid, body, hblock, ht⟩ hamount hstop hstart
      refine ⟨hid, ?_⟩
      rw [ht]
      exact List.rel_append hstart (List.rel_append hstop (List.rel_append hamount
        (.cons hblock .nil)))
  | .forGeneric vars [] block span, top, tags => by
    rw [lowerStmt]
    dsimp only
    refine builds_ident.bind fun iterable => (builds_lowerBlock block).bind fun body => ?_
    refine .node fun id hid hblock hiterable => ⟨hid, ?_⟩
    rw [Target.Stmt.bodies, hiterable]
    exact .cons hblock .nil
  | .forGeneric vars [e] block span, top, tags => by
    rw [lowerStmt]
    dsimp only
    refine (builds_lowerExpr e).bind fun iterable => (builds_lowerBlock block).bind fun body => ?_
    refine .node fun id hid hblock he => ⟨hid, ?_⟩
    rw [Target.Stmt.bodies, Source.Stmt.inner, Source.innerOfExprs, Source.innerOfExprs,
      List.append_nil]
    exact List.rel_append he (.cons hblock .nil)
  | .forGeneric vars (_ :: _ :: _) block span, top, tags => by
    rw [lowerStmt]
    dsimp only
    -- the failure is met before the block, but the equation keeps what would follow it
    have hthrow : ∀ e, Builds p (throw e : Lower Target.Expr) fun _ => False := fun e => .throw
    refine (hthrow _).bind fun iterable => (builds_lowerBlock block).bind fun body => ?_
    exact .node fun id hid _ hfalse => hfalse.elim
  | .breakStmt span, top, tags => by
    rw [lowerStmt]
    refine .node fun id hid => ⟨hid, ?_⟩
    rw [Target.Stmt.bodies]
    exact .nil
  | .repeatLoop .., top, tags | .doBlock .., top, tags | .goto .., top, tags
  | .label .., top, tags => by
    rw [lowerStmt]
    exact .throw

theorem builds_lowerClauses : ∀ (cs : List Source.Clause) {tags : List Tag},
    Builds p (lowerClauses ctx tags cs) fun xs => BlocksOf ctx p (Source.innerOfClauses cs)
      (xs.flatMap fun c => c.1.bodies ++ [c.2.1])
  | [], tags => by
    rw [lowerClauses]
    exact .pure .nil
  | .mk cond block :: cs, tags => by
    rw [lowerClauses]
    refine (builds_lowerExpr cond).bind fun c => (builds_lowerBlock block).bind fun body => ?_
    refine (builds_lowerClauses cs).bind fun xs => .pure fun hcs hblock hcond => ?_
    simp only [Source.innerOfClauses, List.flatMap_cons, List.append_assoc, List.singleton_append]
    exact List.rel_append hcond (.cons hblock hcs)

theorem builds_lowerStmts : ∀ (ss : List Source.Stmt) {top : Bool} {keep : Source.Stmt → Bool}
    {floor : Nat}, Builds p (lowerStmts ctx top keep floor ss) fun ts =>
      let xs := (Source.commentedFrom ctx.comments floor ss).filter fun x => keep x.1
      List.Forall₂ (Translation ctx p top) xs ts ∧
        List.Forall₂ (BlocksOf ctx p) (xs.map fun x => x.1.inner) (ts.map Target.Stmt.bodies)
  | [], top, keep, floor => by
    rw [lowerStmts]
    exact .pure ⟨.nil, .nil⟩
  | s :: ss, top, keep, floor => by
    rw [lowerStmts, Source.commentedFrom]
    split
    next hkeep =>
      refine (builds_lowerStmt s).result.bind fun t => (builds_lowerStmts ss).bind fun ts => ?_
      refine .pure fun hss hs => ?_
      obtain ⟨hlowered, hlocated, hinner⟩ := hs
      simp only [List.filter_cons, hkeep, if_true]
      exact ⟨.cons ⟨hlowered, hlocated⟩ hss.1, .cons hinner hss.2⟩
    next hkeep =>
      simp only [List.filter_cons, hkeep]
      exact builds_lowerStmts ss

theorem builds_lowerExport : ∀ (s : Source.Stmt) (_ : s.isMemberDecl = true) {cs : List Comment},
    Builds p (lowerExport ctx (Tag.ofComments cs) s) fun t =>
      Export ctx p (s, cs) t ∧ BlocksOf ctx p s.declared t.bodies
  | .functionDecl (.member base indexer member memberSpan) isLocal func span, _, cs => by
    rw [lowerExport]
    split
    · exact .throw
    · refine Builds.ofExcept.bind fun ty => (builds_lowerFunction func).result.bind fun f => ?_
      refine .node fun id hid ⟨hlowered, hbody⟩ hty => ⟨.intro hty hlowered hid, ?_⟩
      rw [Target.Stmt.bodies]
      exact .cons hbody .nil

theorem builds_lowerExports : ∀ (ss : List Source.Stmt) {floor : Nat},
    Builds p (lowerExports ctx floor ss) fun ts =>
      let xs := members (Source.commentedFrom ctx.comments floor ss)
      List.Forall₂ (Export ctx p) xs ts ∧
        List.Forall₂ (BlocksOf ctx p) (xs.map fun x => x.1.declared) (ts.map Target.Stmt.bodies)
  | [], floor => by
    rw [lowerExports]
    exact .pure ⟨.nil, .nil⟩
  | s :: ss, floor => by
    rw [lowerExports, Source.commentedFrom]
    split
    next hs =>
      rw [members_cons hs]
      refine (builds_lowerExport s hs).bind fun t => (builds_lowerExports ss).bind fun ts => ?_
      exact .pure fun hss ht => ⟨.cons ht.1 hss.1, .cons ht.2 hss.2⟩
    next hs =>
      rw [members_cons_of_not hs]
      exact builds_lowerExports ss

theorem builds_lowerMethod : ∀ (s : Source.Stmt) (_ : s.isMemberDecl = true) {cs : List Comment},
    Builds p (lowerMethod ctx (Tag.ofComments cs) s) fun m =>
      Method ctx p (s, cs) m ∧ BlocksOf ctx p s.declared [m.body]
  | .functionDecl (.member base indexer member memberSpan) isLocal func span, _, cs => by
    rw [lowerMethod]
    refine Builds.ofExcept.bind fun ty => (builds_lowerFunction func).result.bind fun f => ?_
    exact .node fun id hid ⟨hlowered, hbody⟩ hty => ⟨.intro hty hlowered hid, .cons hbody .nil⟩

theorem builds_lowerMethods : ∀ (ss : List Source.Stmt) {floor : Nat},
    Builds p (lowerMethods ctx floor ss) fun ms =>
      let xs := members (Source.commentedFrom ctx.comments floor ss)
      List.Forall₂ (Method ctx p) xs ms ∧
        BlocksOf ctx p (xs.flatMap fun x => x.1.declared) (ms.map Target.Method.body)
  | [], floor => by
    rw [lowerMethods]
    exact .pure ⟨.nil, .nil⟩
  | s :: ss, floor => by
    rw [lowerMethods, Source.commentedFrom]
    split
    next hs =>
      rw [members_cons hs]
      refine (builds_lowerMethod s hs).bind fun m => (builds_lowerMethods ss).bind fun ms => ?_
      exact .pure fun hss hm => ⟨.cons hm.1 hss.1, List.rel_append hm.2 hss.2⟩
    next hs =>
      rw [members_cons_of_not hs]
      exact builds_lowerMethods ss

theorem builds_lowerBlock : ∀ (b : Block) {top : Bool},
    Builds p (lowerBlock ctx top b) fun out => BlockOf ctx p top b out
  | .mk start [], top => by
    obtain ⟨hmodule, hclass⟩ := not_applies_nil ctx top start
    rw [lowerBlock_plain rfl, lowerStmts]
    exact .pure (.plain hmodule hclass .nil .nil)
  | .mk start (first :: rest), top => by
    rcases shapeOf_cons_cases ctx top start first rest with ⟨hshape, hmodule, hclass⟩ |
      ⟨hshape, hmodule⟩ | ⟨name, names, init, span, rfl, hshape, hmodule, hclass⟩
    · rw [lowerBlock_plain hshape]
      refine (builds_lowerStmts (first :: rest)).mono fun out h => ?_
      simp only [List.filter_true] at h
      exact .plain hmodule hclass h.1 h.2
    · -- a module is the whole source, so the statements behind its exports are outermost
      rw [lowerBlock_module hshape]
      obtain rfl : top = true := hmodule.2.1
      refine (builds_lowerExports rest).bind fun exports => ?_
      refine (builds_lowerStmts rest).bind fun remaining => .pure fun hothers hexports => ?_
      refine .moduleBlock hmodule rfl hexports.1 hothers.1 ?_
      rw [List.map_append]
      exact List.rel_append hexports.2 hothers.2
    · rw [lowerBlock_class hshape]
      refine (builds_lowerMethods rest).bind fun methods => ?_
      have hclassDecl : Builds p (node span (.classDecl · name.text methods)) fun t : Target.Stmt =>
          ∃ id, t = .classDecl id name.text methods ∧ p.get? id = some span :=
        .node fun id hid => ⟨id, rfl, hid⟩
      refine hclassDecl.bind fun t => (builds_lowerStmts rest).bind fun remaining => ?_
      refine .pure fun hothers ht hmethods => ?_
      obtain ⟨id, rfl, hid⟩ := ht
      refine .classBlock hmodule hclass rfl hid hmethods.1 hothers.1 (.cons ?_ hothers.2)
      rw [Target.Stmt.bodies]
      exact hmethods.2

end

end Trees

/-! ### A whole source -/

/-- **No statement is lost, doubled or moved but as a rewrite says.** What is built of a source is
built block by block, each as the rewrite that applies to it says, and every statement and method
is recorded to come from the statement that it translates. Only the outermost block may be rewritten
as a module, and then it is not rewritten as a class. -/
theorem blockOf_lowerChunk {module classmod : Bool} {chunk : Source.Chunk} {st st' : State}
    {out : List Target.Stmt} (h : lowerChunk module classmod chunk st = .ok out st') :
    BlockOf ⟨module, classmod, chunk.comments⟩ st'.provenance true chunk.body out := by
  have hrun : lowerBlock ⟨module, classmod, chunk.comments⟩ true chunk.body .initial =
      .ok out st' := h
  exact (builds_lowerBlock chunk.body _ _ _ hrun).2 fun _ _ _ => rfl

/-- A module with a function behind an `if`. -/
def markedModule : String :=
  "-- @module m\nlocal M = \x7b\x7d\nif a then b() end\nfunction M.f() return 1 end\nreturn M"

/-- The `local` is gone, and the function at offset 44 comes before the `if` at offset 26. -/
theorem blockOf_markedModule :
    ∃ chunk out st', Source.parse markedModule = .ok chunk ∧
      lowerChunk true true chunk .initial = .ok out st' ∧
      (out.map fun t => (st'.provenance.get? t.id).map Span.start) =
        [some 44, some 26, some 72] ∧
      BlockOf ⟨true, true, chunk.comments⟩ st'.provenance true chunk.body out := by
  have hstarts : ((Source.parse markedModule).toOption.bind fun chunk =>
      match lowerChunk true true chunk .initial with
      | .ok out st' => some (out.map fun t => (st'.provenance.get? t.id).map Span.start)
      | .error .. => none) = some [some 44, some 26, some 72] := by decide +kernel
  cases hparse : Source.parse markedModule with
  | error e => simp [hparse, Except.toOption] at hstarts
  | ok chunk =>
    cases hrun : lowerChunk true true chunk .initial with
    | error e st' => simp [hparse, hrun, Except.toOption] at hstarts
    | ok out st' =>
      simp only [hparse, hrun, Except.toOption, Option.bind_some, Option.some.injEq] at hstarts
      exact ⟨chunk, out, st', rfl, hrun, hstarts, blockOf_lowerChunk hrun⟩

end LuaTranspiler.Lowering
