import LuaTranspiler.Proofs.Lowering.Blocks
import LuaTranspiler.Proofs.Lowering.Numbering
import LuaTranspiler.Source.Chunk

/-!
# Every node has an id of its own

Each part of a source is lowered to a tree that holds exactly the ids given out meanwhile: no node
is built and dropped, none is used twice. So the ids of what a source becomes are the first natural
numbers, one for each record of where a node comes from.

* `takes_lowerExpr`, `takes_lowerStmt`, `takes_lowerBlock`: the ids of the trees that are built
* `identified_lowerChunk`: the ids of a whole source, and the records that a failure leaves
-/

namespace LuaTranspiler.Lowering

open Source (Block)
open Target (numberedExprs numberedOption numberedProperties numberedMethods numberedStmts)

/-! ### Parts without trees of their own -/

section Parts

theorem takes_ident {span : Span} {text : String} :
    Takes [] (node span (.ident · text)) fun e : Target.Expr => [e.numbered] :=
  .node fun _ => rfl

theorem takes_assignment {span : Span} {target value : Target.Expr} :
    Takes [target.numbered, value.numbered] (do
      let e ← node span (.assign · target .assign value)
      node span (.expr · e)) fun t : Target.Stmt => [t.numbered] := by
  have hassign : Takes [target.numbered, value.numbered]
      (node span (.assign · target .assign value)) fun e : Target.Expr => [e.numbered] :=
    .node fun _ => rfl
  exact hassign.bind fun e => .node fun _ => rfl

theorem takes_lowerUnary {span : Span} {e : Target.Expr} (op : Source.UnaryOp) :
    Takes [e.numbered] (lowerUnary span e op) fun a => [a.numbered] := by
  cases op <;> rw [lowerUnary] <;> exact .node fun _ => rfl

theorem takes_lowerLiteral {span : Span} (value : Source.Literal) :
    Takes [] (lowerLiteral span value) fun a => [a.numbered] := by
  cases value with
  | vararg => exact takes_ident.bind fun rest => .node fun _ => rfl
  | _ =>
    rw [lowerLiteral]
    exact .node fun _ => rfl

variable {xs : List Numbered}

theorem takes_some_ofExcept {r : Except Error Ty} :
    Takes xs (some <$> ofExcept r : Lower (Option Ty)) fun _ => xs := .map .ofExcept

/-- Parameters have no ids. -/
theorem takes_lowerParam {tags : List Tag} (param : Source.Param) :
    Takes xs (lowerParam tags param) fun _ => xs := by
  have hparam : ∀ name rest (ty : Option Ty),
      Takes xs (return ⟨name, rest, ty⟩ : Lower Target.Param) fun _ => xs :=
    fun _ _ _ => .pure (.refl xs)
  cases param <;> simp only [lowerParam, pure_bind]
  all_goals
    split
    · exact Takes.diagnose.bind fun _ => hparam _ _ none
    · exact takes_some_ofExcept.bind fun ty => hparam _ _ ty
    · exact Takes.diagnose.bind fun _ => takes_some_ofExcept.bind fun ty => hparam _ _ ty

theorem takes_lowerParams {tags : List Tag} (params : List Source.Param) :
    Takes xs (lowerParams tags params) fun _ => xs := by
  induction params with
  | nil => exact .pure (.refl xs)
  | cons param params ih =>
    exact (takes_lowerParam param).bind fun _ => ih.bind fun _ => .pure (.refl xs)

theorem takes_joinValues {span : Span} (es : List Target.Expr) :
    Takes (numberedExprs es) (joinValues span es) numberedOption := by
  match es with
  | [] => exact .pure (.refl _)
  | [e] => exact .pure (.refl _)
  | e :: e' :: es => exact .map (.node fun _ => rfl)

theorem takes_joinTargets {span : Span} (es : List Target.Expr) :
    Takes (numberedExprs es) (joinTargets span es) fun e => [e.numbered] := by
  match es with
  | [e] => exact .pure (.refl _)
  | [] | e :: e' :: es =>
    rw [joinTargets]
    · exact .node fun _ => rfl
    · simp

/-- The ids of clauses that are not yet part of an `if`. -/
def numberedClauses (clauses : List (Target.Expr × List Target.Stmt × Span)) : List Numbered :=
  clauses.flatMap fun c => c.1.numbered :: numberedStmts c.2.1

/-- The clauses wait in the order of the source, and the last is taken in first. -/
theorem takes_chain (clauses : List (Target.Expr × List Target.Stmt × Span)) (last : Target.Else) :
    Takes (numberedClauses clauses ++ last.numbered) (chain clauses last) Target.Else.numbered := by
  induction clauses with
  | nil => exact .pure (.refl _)
  | cons clause clauses ih =>
    obtain ⟨cond, body, span⟩ := clause
    have hrest := ih.frame (cond.numbered :: numberedStmts body)
    rw [← List.append_assoc] at hrest
    refine hrest.bind fun rest => ?_
    have hstmt : Takes (cond.numbered :: numberedStmts body ++ rest.numbered)
        (node span (.ifStmt · cond body rest)) fun s : Target.Stmt => [s.numbered] :=
      .node fun _ => rfl
    exact hstmt.bind fun s => .pure (.refl _)

end Parts

/-! ### Trees -/

section Trees

variable {ctx : Context}

/-- The branches of an `if`, behind its condition, its first block and its clauses. -/
theorem takes_branches {span : Span} {elseBlock : Option Block} {c : Target.Expr}
    {body : List Target.Stmt} (xs : List (Target.Expr × List Target.Stmt × Span))
    (helse : ∀ block ∈ elseBlock, Takes [] (lowerBlock ctx false block) numberedStmts) :
    Takes ([c.numbered] ++ numberedStmts body ++ numberedClauses xs) (do
      let last ← match elseBlock with
        | some block => .block <$> lowerBlock ctx false block
        | none => pure .none
      let branch ← chain xs last
      node span (.ifStmt · c body branch)) fun t : Target.Stmt => [t.numbered] := by
  have hbranch (last : Target.Else) :
      Takes ([c.numbered] ++ numberedStmts body ++ numberedClauses xs ++ last.numbered) (do
        let branch ← chain xs last
        node span (.ifStmt · c body branch)) fun t : Target.Stmt => [t.numbered] := by
    rw [List.append_assoc _ (numberedClauses xs)]
    exact ((takes_chain xs last).frame _).bind fun branch => .node fun _ => rfl
  cases elseBlock with
  | some block =>
    have hlast : Takes [] (.block <$> lowerBlock ctx false block) Target.Else.numbered :=
      .map (helse block rfl)
    exact (hlast.behind _).bind hbranch
  | none => exact (hbranch .none).perm (by rw [Target.Else.numbered, List.append_nil])

/-- A loop over numbers, behind its bounds and its step. -/
theorem takes_loop {span : Span} {var : Source.Name} {block : Block} {first last : Target.Expr}
    (amount : Option Target.Expr) (hblock : Takes [] (lowerBlock ctx false block) numberedStmts) :
    Takes ([first.numbered, last.numbered] ++ numberedOption amount) (do
      let counter ← node var.span (.ident · var.text)
      let test ← node span (.binary · counter .lessEq last)
      let counter ← node var.span (.ident · var.text)
      let update ← match amount with
        | none => node span (.increment · counter)
        | some amount => node span (.assign · counter .addAssign amount)
      let body ← lowerBlock ctx false block
      node span (.forLoop · (.mk .let (.ident var.text) none (some first)) test update body))
        fun t : Target.Stmt => [t.numbered] := by
  refine (takes_ident.behind _).bind fun counter => ?_
  -- the bound waits before the step, but is taken in with the first counter
  have htest : Takes [counter.numbered, last.numbered]
      (node span (.binary · counter .lessEq last)) fun e : Target.Expr => [e.numbered] :=
    .node fun _ => rfl
  refine ((htest.frame (first.numbered :: numberedOption amount)).perm ?_).bind fun test => ?_
  · have hswap := List.perm_append_singleton last.numbered
      (numberedOption amount ++ [counter.numbered])
    simpa using hswap.symm
  refine (takes_ident.behind _).bind fun counter' => ?_
  -- the step waits before the test, but is taken in with the second counter
  have hupdate (update : Lower Target.Expr)
      (h : Takes (counter'.numbered :: numberedOption amount) update fun e => [e.numbered]) :
      Takes (first.numbered :: numberedOption amount ++ [test.numbered] ++ [counter'.numbered])
        update fun e => [first.numbered, test.numbered, e.numbered] := by
    refine (h.frame [first.numbered, test.numbered]).perm ?_
    have hswap : (numberedOption amount ++ [test.numbered, counter'.numbered]).Perm
        ([test.numbered, counter'.numbered] ++ numberedOption amount) :=
      List.perm_append_comm
    simpa using hswap
  have hloop (update : Target.Expr) :
      Takes [first.numbered, test.numbered, update.numbered] (do
        let body ← lowerBlock ctx false block
        node span (.forLoop · (.mk .let (.ident var.text) none (some first)) test update body))
          fun t : Target.Stmt => [t.numbered] :=
    (hblock.behind _).bind fun body => .node fun _ => rfl
  cases amount with
  | none => exact (hupdate _ (.node fun _ => rfl)).bind hloop
  | some amount => exact (hupdate _ (.node fun _ => rfl)).bind hloop

mutual

theorem takes_lowerExpr : ∀ (e : Source.Expr) {tags : List Tag},
    Takes [] (lowerExpr ctx tags e) fun a => [a.numbered]
  | .ident name span, tags => takes_ident
  | .literal value span, tags => takes_lowerLiteral value
  | .member base _ name span, tags => by
    rw [lowerExpr]
    exact (takes_lowerExpr base).bind fun object => .node fun _ => rfl
  | .index base index span, tags => by
    rw [lowerExpr]
    refine (takes_lowerExpr base).bind fun object => ?_
    exact ((takes_lowerExpr index).behind _).bind fun i => .node fun _ => rfl
  | .unary op operand span, tags => by
    rw [lowerExpr]
    exact (takes_lowerExpr operand).bind fun e => takes_lowerUnary op
  | .binary lhs op rhs span, tags => by
    rw [lowerExpr]
    split
    · exact .throw
    · refine (takes_lowerExpr lhs).bind fun a => ?_
      exact ((takes_lowerExpr rhs).behind _).bind fun b => .node fun _ => rfl
  | .logical lhs op rhs span, tags => by
    rw [lowerExpr]
    refine (takes_lowerExpr lhs).bind fun a => ?_
    exact ((takes_lowerExpr rhs).behind _).bind fun b => .node fun _ => rfl
  | .table fields span, tags => by
    rw [lowerExpr]
    split
    · split
      · exact (takes_lowerElements fields).bind fun elements => .node fun _ => rfl
      · exact .throw
    · exact (takes_lowerProperties fields).bind fun properties => .node fun _ => rfl
  | .call base args span, tags => by
    rw [lowerExpr]
    refine (takes_lowerExpr base).bind fun callee => ?_
    exact ((takes_lowerExprs args).behind _).bind fun as => .node fun _ => rfl
  | .stringCall base argument span, tags | .tableCall base argument span, tags => by
    rw [lowerExpr]
    refine (takes_lowerExpr base).bind fun callee => ?_
    exact ((takes_lowerExpr argument).behind _).bind fun a => .node fun _ => rfl
  | .function func span, tags => by
    rw [lowerExpr]
    have hfunction : ∀ ty, Takes [] (do
        let f ← lowerFunction ctx tags false ty func
        node span (Target.Expr.function · f)) fun a => [a.numbered] :=
      fun ty => (takes_lowerFunction func).bind fun f => .node fun _ => rfl
    dsimp only
    split
    · exact hfunction none
    · exact takes_some_ofExcept.bind fun ty => hfunction ty

theorem takes_lowerExprs : ∀ (es : List Source.Expr) {tags : List Tag},
    Takes [] (lowerExprs ctx tags es) numberedExprs
  | [], tags => .pure (.refl _)
  | e :: es, tags => by
    rw [lowerExprs]
    refine (takes_lowerExpr e).bind fun a => ?_
    exact ((takes_lowerExprs es).behind _).bind fun as => .pure (.refl _)

theorem takes_lowerElements : ∀ (fs : List Source.Field) {tags : List Tag},
    Takes [] (lowerElements ctx tags fs) numberedExprs
  | [], tags => .pure (.refl _)
  | .positional value _ :: fs, tags => by
    rw [lowerElements]
    refine (takes_lowerExpr value).bind fun a => ?_
    exact ((takes_lowerElements fs).behind _).bind fun as => .pure (.refl _)
  | .keyed key value span :: fs, tags | .named key value span :: fs, tags => by
    rw [lowerElements]
    · exact takes_lowerElements fs
    · simp

theorem takes_lowerProperties : ∀ (fs : List Source.Field) {tags : List Tag},
    Takes [] (lowerProperties ctx tags fs) numberedProperties
  | [], tags => .pure (.refl _)
  | .named key value _ :: fs, tags => by
    rw [lowerProperties]
    refine (takes_lowerExpr value).bind fun v => ?_
    exact ((takes_lowerProperties fs).behind _).bind fun ps => .pure (.refl _)
  | .keyed key value _ :: fs, tags => by
    rw [lowerProperties]
    refine (takes_lowerExpr key).bind fun k => ((takes_lowerExpr value).behind _).bind fun v => ?_
    exact ((takes_lowerProperties fs).behind _).bind fun ps => .pure (.refl _)
  | .positional value span :: fs, tags => by
    rw [lowerProperties]
    exact takes_lowerProperties fs

theorem takes_lowerFunction : ∀ (func : Source.Function) {tags : List Tag} {method : Bool}
    {ty : Option Ty}, Takes [] (lowerFunction ctx tags method ty func) Target.Function.numbered
  | .mk params body, tags, method, ty => by
    rw [lowerFunction]
    refine (takes_lowerParams params).bind fun ps => (takes_lowerBlock body).bind fun stmts => ?_
    exact .pure (.refl _)

theorem takes_lowerTargets : ∀ (es : List Source.Expr) {tags : List Tag},
    Takes [] (lowerTargets ctx tags es) numberedExprs
  | [], tags => .pure (.refl _)
  | e :: es, tags => by
    rw [lowerTargets]
    split
    · refine (takes_lowerExpr e).bind fun a => ?_
      exact ((takes_lowerTargets es).behind _).bind fun as => .pure (.refl _)
    · exact .throw

theorem takes_lowerStmt : ∀ (s : Source.Stmt) {top : Bool} {tags : List Tag},
    Takes [] (lowerStmt ctx top tags s) fun t => [t.numbered]
  | .localDecl names init span, top, tags => by
    rw [lowerStmt]
    refine Takes.ofExcept.bind fun ty => (takes_lowerExprs init).bind fun values => ?_
    exact (takes_joinValues values).bind fun value => .node fun _ => rfl
  | .assign targets init span, top, tags => by
    rw [lowerStmt]
    refine (takes_lowerTargets targets).bind fun lhs => ?_
    refine (takes_joinTargets lhs).bind fun target => ?_
    refine ((takes_lowerExprs init).behind _).bind fun values => ?_
    refine ((takes_joinValues values).frame _).bind fun value => ?_
    cases value with
    | some e => exact takes_assignment
    | none => exact (takes_ident.behind _).bind fun e => takes_assignment
  | .call e span, top, tags => by
    rw [lowerStmt]
    exact (takes_lowerExpr e).bind fun a => .node fun _ => rfl
  | .functionDecl name isLocal func span, top, tags => by
    rw [lowerStmt]
    -- stated before `name` is split, while it is still a part of the statement
    have hname : Takes [] (lowerExpr ctx tags name) fun a => [a.numbered] := takes_lowerExpr name
    refine Takes.ofExcept.bind fun ty => ?_
    split
    · exact (takes_lowerFunction func).bind fun f => .node fun _ => rfl
    · refine hname.bind fun target => ((takes_lowerFunction func).behind _).bind fun f => ?_
      have hvalue : Takes f.numbered (node span (.function · f)) fun e : Target.Expr =>
          [e.numbered] :=
        .node fun _ => rfl
      exact (hvalue.frame _).bind fun value => takes_assignment
    · exact .throw
  | .returnStmt values span, top, tags => by
    rw [lowerStmt]
    refine (takes_lowerExprs values).bind fun es => (takes_joinValues es).bind fun value => ?_
    split
    · split <;> exact .node fun _ => rfl
    · exact .node fun _ => rfl
  | .ifStmt cond thenBlock clauses elseBlock span, top, tags => by
    rw [lowerStmt]
    refine (takes_lowerExpr cond).bind fun c => ((takes_lowerBlock thenBlock).behind _).bind ?_
    intro body
    refine ((takes_lowerClauses clauses).behind _).bind fun xs => ?_
    refine takes_branches xs ?_
    cases elseBlock with
    | none => simp
    | some block => simpa using takes_lowerBlock block
  | .whileLoop cond block span, top, tags => by
    rw [lowerStmt]
    refine (takes_lowerExpr cond).bind fun c => ?_
    exact ((takes_lowerBlock block).behind _).bind fun body => .node fun _ => rfl
  | .forNumeric var start stop step block span, top, tags => by
    rw [lowerStmt]
    refine (takes_lowerExpr start).bind fun first => ?_
    refine ((takes_lowerExpr stop).behind _).bind fun last => ?_
    cases step with
    | none => exact takes_loop none (takes_lowerBlock block)
    | some step =>
      have hstep : Takes [] (some <$> lowerExpr ctx tags step) numberedOption :=
        .map (takes_lowerExpr step)
      exact (hstep.behind _).bind fun amount => takes_loop amount (takes_lowerBlock block)
  | .forGeneric vars [] block span, top, tags => by
    rw [lowerStmt]
    dsimp only
    refine takes_ident.bind fun iterable => ?_
    exact ((takes_lowerBlock block).behind _).bind fun body => .node fun _ => rfl
  | .forGeneric vars [e] block span, top, tags => by
    rw [lowerStmt]
    dsimp only
    refine (takes_lowerExpr e).bind fun iterable => ?_
    exact ((takes_lowerBlock block).behind _).bind fun body => .node fun _ => rfl
  | .forGeneric vars (_ :: _ :: _) block span, top, tags => by
    rw [lowerStmt]
    dsimp only
    have hthrow : ∀ e, Takes [] (throw e : Lower Target.Expr) fun a => [a.numbered] :=
      fun e => .throw
    refine (hthrow _).bind fun iterable => ?_
    exact ((takes_lowerBlock block).behind _).bind fun body => .node fun _ => rfl
  | .breakStmt span, top, tags => .node fun _ => rfl
  | .repeatLoop .., top, tags | .doBlock .., top, tags | .goto .., top, tags
  | .label .., top, tags => by
    rw [lowerStmt]
    exact .throw

theorem takes_lowerClauses : ∀ (cs : List Source.Clause) {tags : List Tag},
    Takes [] (lowerClauses ctx tags cs) numberedClauses
  | [], tags => .pure (.refl _)
  | .mk cond block :: cs, tags => by
    rw [lowerClauses]
    refine (takes_lowerExpr cond).bind fun c => ((takes_lowerBlock block).behind _).bind ?_
    intro body
    exact ((takes_lowerClauses cs).behind _).bind fun xs => .pure (.refl _)

theorem takes_lowerStmts : ∀ (ss : List Source.Stmt) {top : Bool} {keep : Source.Stmt → Bool}
    {floor : Nat}, Takes [] (lowerStmts ctx top keep floor ss) numberedStmts
  | [], top, keep, floor => .pure (.refl _)
  | s :: ss, top, keep, floor => by
    rw [lowerStmts]
    split
    · refine (takes_lowerStmt s).bind fun t => ?_
      exact ((takes_lowerStmts ss).behind _).bind fun ts => .pure (.refl _)
    · exact takes_lowerStmts ss

theorem takes_lowerExport : ∀ (s : Source.Stmt) (_ : s.isMemberDecl = true) {tags : List Tag},
    Takes [] (lowerExport ctx tags s) fun t => [t.numbered]
  | .functionDecl (.member base indexer member memberSpan) isLocal func span, _, tags => by
    rw [lowerExport]
    split
    · exact .throw
    · refine Takes.ofExcept.bind fun ty => ?_
      exact (takes_lowerFunction func).bind fun f => .node fun _ => rfl

theorem takes_lowerExports : ∀ (ss : List Source.Stmt) {floor : Nat},
    Takes [] (lowerExports ctx floor ss) numberedStmts
  | [], floor => .pure (.refl _)
  | s :: ss, floor => by
    rw [lowerExports]
    split
    next hs =>
      refine (takes_lowerExport s hs).bind fun t => ?_
      exact ((takes_lowerExports ss).behind _).bind fun ts => .pure (.refl _)
    next => exact takes_lowerExports ss

theorem takes_lowerMethod : ∀ (s : Source.Stmt) (_ : s.isMemberDecl = true) {tags : List Tag},
    Takes [] (lowerMethod ctx tags s) fun m => [m.numbered]
  | .functionDecl (.member base indexer member memberSpan) isLocal func span, _, tags => by
    rw [lowerMethod]
    refine Takes.ofExcept.bind fun ty => ?_
    exact (takes_lowerFunction func).bind fun f => .node fun _ => rfl

theorem takes_lowerMethods : ∀ (ss : List Source.Stmt) {floor : Nat},
    Takes [] (lowerMethods ctx floor ss) numberedMethods
  | [], floor => .pure (.refl _)
  | s :: ss, floor => by
    rw [lowerMethods]
    split
    next hs =>
      refine (takes_lowerMethod s hs).bind fun m => ?_
      exact ((takes_lowerMethods ss).behind _).bind fun ms => .pure (.refl _)
    next => exact takes_lowerMethods ss

theorem takes_lowerBlock : ∀ (b : Block) {top : Bool},
    Takes [] (lowerBlock ctx top b) numberedStmts
  | .mk start [], top => by
    rw [lowerBlock_plain rfl, lowerStmts]
    exact .pure (.refl _)
  | .mk start (first :: rest), top => by
    rcases shapeOf_cons_cases ctx top start first rest with ⟨hshape, -, -⟩ | ⟨hshape, -⟩ |
      ⟨name, names, init, span, rfl, hshape, -, -⟩
    · rw [lowerBlock_plain hshape]
      exact takes_lowerStmts (first :: rest)
    · rw [lowerBlock_module hshape]
      refine (takes_lowerExports rest).bind fun exports => ?_
      refine ((takes_lowerStmts rest).behind _).bind fun remaining => .pure ?_
      rw [Target.numberedStmts_append]
    · rw [lowerBlock_class hshape]
      refine (takes_lowerMethods rest).bind fun methods => ?_
      have hclass : Takes (numberedMethods methods) (node span (.classDecl · name.text methods))
          fun t : Target.Stmt => [t.numbered] :=
        .node fun _ => rfl
      refine hclass.bind fun t => ?_
      exact ((takes_lowerStmts rest).behind _).bind fun remaining => .pure (.refl _)

end

end Trees

/-! ### A whole source -/

/-- The ids of trees and the records of where their nodes come from correspond. -/
structure Identified (out : List Target.Stmt) (p : Provenance) : Prop where
  /-- No two nodes have the same id. -/
  distinct : (idsOf (numberedStmts out)).Nodup
  /-- The ids are the numbers below the count of the records. -/
  exact : ∀ i, i ∈ idsOf (numberedStmts out) ↔ i < p.size
  /-- These are the ids that are recorded. -/
  recorded : p.HoldsFirst p.size
  /-- A node has a greater id than the nodes below it. -/
  descending : ∀ x ∈ numberedStmts out, x.Descending

/-- **Ids and nodes correspond one to one.** Whatever was built before, the ids of what a source
becomes are the numbers below the count of the records, each given to one node, and greater than
those of the nodes below it; where lowering fails, exactly the nodes built so far are recorded. -/
theorem identified_lowerChunk (module classmod : Bool) (chunk : Source.Chunk) (st : State) :
    (∀ out st', lowerChunk module classmod chunk st = .ok out st' →
      Identified out st'.provenance) ∧
    ∀ e st', lowerChunk module classmod chunk st = .error e st' →
      ∃ k, Steps .initial k st' ∧ st'.provenance.HoldsFirst k := by
  have hrun : lowerChunk module classmod chunk st =
      lowerBlock ⟨module, classmod, chunk.comments⟩ true chunk.body .initial := rfl
  have hholds : ∀ {k st'}, Steps .initial k st' → st'.provenance.HoldsFirst k := by
    intro k st' h
    have hnext : st'.nextId = k := by simpa [State.initial] using h.nextId
    exact hnext ▸ h.holdsFirst .empty
  have hwaiting : Waiting State.initial.nextId [] := ⟨by simp [idsOf], by simp⟩
  obtain ⟨k, hk⟩ := takes_lowerBlock chunk.body State.initial hwaiting
  rw [hrun]
  refine ⟨fun out st' h => ?_, fun e st' h => ?_⟩
  · rw [h] at hk
    obtain ⟨hsteps, hdescending, hperm⟩ := hk
    have hrange : (idsOf (numberedStmts out)).Perm (List.range' 0 k) := by
      simpa [idsOf, State.initial] using hperm
    have hsize := (hholds hsteps).size
    refine ⟨hrange.nodup_iff.2 List.nodup_range', fun i => ?_, hsize ▸ hholds hsteps, hdescending⟩
    rw [hrange.mem_iff, List.mem_range'_1, hsize]
    omega
  · rw [h] at hk
    exact ⟨k, hk, hholds hk⟩

/-- A conditional with two branches, of which the second is a node inside the first. -/
def chainedCall : String := "if a then b() elseif c then return end"

/-- Earlier nodes are forgotten. -/
theorem identified_chainedCall :
    ∃ chunk out st', Source.parse chainedCall = .ok chunk ∧
      lowerChunk false false chunk ⟨7, .empty, []⟩ = .ok out st' ∧
      idsOf (numberedStmts out) = [7, 0, 3, 2, 1, 6, 4, 5] ∧ Identified out st'.provenance := by
  have hids : ((Source.parse chainedCall).toOption.bind fun chunk =>
      ((lowerChunk false false chunk).run' ⟨7, .empty, []⟩).map fun out =>
        idsOf (numberedStmts out)) = some [7, 0, 3, 2, 1, 6, 4, 5] := by decide +kernel
  delta EStateM.run' EStateM.run at hids
  cases hparse : Source.parse chainedCall with
  | error e => simp [hparse, Except.toOption] at hids
  | ok chunk =>
    cases hrun : lowerChunk false false chunk ⟨7, .empty, []⟩ with
    | error e st' => simp [hparse, hrun, Except.toOption] at hids
    | ok out st' =>
      simp only [hparse, hrun, Except.toOption, Option.bind_some, Option.map_some,
        Option.some.injEq] at hids
      exact ⟨chunk, out, st', rfl, hrun, hids, (identified_lowerChunk _ _ chunk _).1 out st' hrun⟩

end LuaTranspiler.Lowering
