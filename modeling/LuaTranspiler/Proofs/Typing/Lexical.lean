import LuaTranspiler.Proofs.Typing.Walk
import Mathlib.Data.List.Basic

/-!
# Scopes are lexical

A checker can be asked to check statement after statement. Each leaves the open blocks and the
return types of the functions around as they were, and of its names only those that it declares in
its own block can be seen by the statements behind it.

* `Stmt.declared`: the names that a statement itself declares
* `Chained`: every `else if` is an `if`
* `Reachable`: the states that a checker can be in, also in the midst of a statement
* `Framed names c c'`: what a statement leaves unchanged
* `Call`: what a checker is asked for
* `lexically_scoped`: the main result
-/

namespace LuaTranspiler

namespace Target

/-- The names that a statement itself declares. -/
def Stmt.declared : Stmt → List (String × Option Ty)
  | .var _ (.mk _ binding ty _) => binding.declares ty
  | .functionDecl _ name _ _ | .classDecl _ name _ => [(name, none)]
  | _ => []

/-- Whether a statement is an `if`. -/
def Stmt.isIf : Stmt → Bool
  | .ifStmt .. => true
  | _ => false

/-- Whether an `else if` that follows the block of the statement is an `if`. -/
def Stmt.elseIsIf : Stmt → Bool
  | .ifStmt _ _ _ (.elseIf s) => s.isIf
  | _ => true

/-- Every `else if` in the statements, at every depth, is an `if`. -/
def Chained (ss : List Stmt) : Prop := ∀ t ∈ statementsOf true ss, t.elseIsIf = true

instance (ss : List Stmt) : Decidable (Chained ss) :=
  inferInstanceAs (Decidable (∀ t ∈ statementsOf true ss, t.elseIsIf = true))

theorem chained_iff {ss : List Stmt} :
    Chained ss ↔ ∀ s ∈ ss, ∀ t ∈ s.statements true, t.elseIsIf = true := by
  rw [Chained, statementsOf_eq_flatMap, List.forall_mem_flatMap]

theorem Stmt.declared_of_isIf {s : Stmt} (h : s.isIf = true) : s.declared = [] := by
  cases s with
  | ifStmt => rfl
  | var | functionDecl | classDecl | expr | returnStmt | exportAssign | forLoop | forOf | whileLoop
  | breakStmt => cases h

/-- What follows an `else if` declares nothing where it is an `if` itself. -/
theorem Stmt.declares_eq_declared : ∀ s : Stmt, (∀ t ∈ s.statements true, t.elseIsIf = true) →
    s.declares = s.declared
  | .ifStmt id cond thenBlock (.elseIf s), h => by
    obtain ⟨hif, hinside⟩ := List.forall_mem_cons.1 h
    have hbranch := (List.forall_mem_append.1 (List.forall_mem_append.1 hinside).2).2
    calc s.declares = s.declared := s.declares_eq_declared hbranch
      _ = [] := Stmt.declared_of_isIf hif
  | .ifStmt _ _ _ .none, _ | .ifStmt _ _ _ (.block _), _ | .var _ (.mk ..), _ | .functionDecl .., _
  | .classDecl .., _ | .expr .., _ | .returnStmt .., _ | .exportAssign .., _ | .forLoop .., _
  | .forOf .., _ | .whileLoop .., _ | .breakStmt .., _ => rfl

theorem flatMap_declares_eq {ss : List Stmt} (h : Chained ss) :
    ss.flatMap Stmt.declares = ss.flatMap Stmt.declared :=
  List.flatMap_congr fun s hs => s.declares_eq_declared (chained_iff.1 h s hs)

end Target

namespace Checker

open Target

/-- The states that a checker can be in. The state in which a part of a tree is met is made of the
state before the whole tree by entering and leaving blocks and functions, declaring names, expecting
types, and checking the expressions and statements that come first. -/
inductive Reachable : Checker → Prop
  | initial (p : Provenance) : Reachable (.initial p)
  | push {c : Checker} : Reachable c → Reachable c.push
  | pop {c : Checker} : Reachable c → Reachable c.pop
  | declare {c : Checker} (name : String) (ty : Option Ty) :
      Reachable c → Reachable (c.declare name ty)
  | enter {c : Checker} (params : List Param) (returnType : Option Ty) :
      Reachable c → Reachable (c.enter params returnType)
  | leave {c : Checker} : Reachable c → Reachable c.leave
  | expect {c : Checker} (e : Expr) (expected : Ty) (span : Span) :
      Reachable c → Reachable (c.expect e expected span)
  | expr {c : Checker} (e : Expr) : Reachable c → Reachable (Checker.expr e c)
  | stmt {c : Checker} (s : Stmt) : Reachable c → Reachable (Checker.stmt s c)

theorem pop_ne_nil {ss : Scopes} (h : ss ≠ []) : ss.pop ≠ [] := by
  obtain ⟨s, ss, rfl⟩ := List.exists_cons_of_ne_nil h
  cases ss <;> exact List.cons_ne_nil _ _

/-- Some block is always open, for the outermost one is never left. -/
theorem Reachable.ne_nil {c : Checker} (h : Reachable c) : c.scopes ≠ [] := by
  induction h with
  | initial => exact List.cons_ne_nil _ _
  | push => exact List.cons_ne_nil _ _
  | pop _ ih => exact pop_ne_nil ih
  | declare name ty _ ih => exact (Checked.declare ih name ty).ne_nil
  | @enter c params returnType _ ih =>
    obtain ⟨top, henter⟩ := enter_scopes params returnType c
    simp [henter]
  | leave _ ih => exact pop_ne_nil ih
  | expect e expected span _ ih => exact (Checked.expect ih e expected span).ne_nil
  | expr e _ ih => exact (checks_expr e _ ih).ne_nil
  | stmt s _ ih => exact (checks_stmt s _ ih).ne_nil

/-- The names declared in the innermost block. -/
def innermost (c : Checker) : Scope := c.scopes.headD []

/-- All that differs between the states `c` and `c'` is that `names` have been declared in the
innermost block, in this order, and that more may have been found. -/
structure Framed (names : List (String × Option Ty)) (c c' : Checker) : Prop where
  height : c'.scopes.length = c.scopes.length
  below : c'.scopes.tail = c.scopes.tail
  innermost : ∀ x, c'.innermost.lookup x = (names.reverse.lookup x).or (c.innermost.lookup x)
  returns : c'.returns = c.returns
  mismatches : c.mismatches <+: c'.mismatches

theorem Checked.framed {names : List (String × Option Ty)} {ts : List Stmt} {c c' : Checker}
    (h : Checked names ts c c') : Framed names c c' := by
  obtain ⟨top, below, hc, hc'⟩ := h.scopes
  refine ⟨?_, ?_, fun x => ?_, h.returns, h.mismatches⟩
  · simp [hc, hc']
  · simp [hc, hc']
  · simp [Checker.innermost, hc, hc', List.lookup_append]

/-- What a checker is asked for. -/
inductive Call where
  | stmt (s : Stmt)
  | block (ss : List Stmt)

/-- The statements that are to be checked. -/
def Call.stmts : Call → List Stmt
  | stmt s => [s]
  | block ss => ss

/-- The state after a call. -/
def Call.run : Call → Checker → Checker
  | stmt s => Checker.stmt s
  | block ss => Checker.block ss

/-- The state after calls of a checker that has not checked anything before. -/
def afterCalls (p : Provenance) (calls : List Call) : Checker :=
  calls.foldl (fun c call => call.run c) (.initial p)

/-- The declarations that calls make outside of all inner blocks, in order. -/
def outermost (calls : List Call) : List (String × Option Ty) :=
  (calls.flatMap Call.stmts).flatMap Stmt.declared

theorem Call.run_eq_block (call : Call) : call.run = Checker.block call.stmts := by
  cases call <;> rfl

theorem block_append (ss ss' : List Stmt) (c : Checker) :
    block (ss ++ ss') c = block ss' (block ss c) := by
  induction ss generalizing c with
  | nil => rfl
  | cons s ss ih => exact ih _

/-- Calls check their statements as if they were one block. -/
theorem foldl_run_eq_block (calls : List Call) (c : Checker) :
    calls.foldl (fun c call => call.run c) c = block (calls.flatMap Call.stmts) c := by
  induction calls generalizing c with
  | nil => rfl
  | cons call calls ih =>
    rw [List.foldl_cons, ih, call.run_eq_block, List.flatMap_cons, block_append]

/-- The declarations of the innermost block are all that can be seen after calls. -/
theorem lookup?_afterCalls (p : Provenance) {calls : List Call}
    (h : ∀ call ∈ calls, Chained call.stmts) (x : String) :
    (afterCalls p calls).lookup? x = (outermost calls).reverse.lookup x := by
  have hchained : Chained (calls.flatMap Call.stmts) := by
    refine chained_iff.2 fun s hs => ?_
    obtain ⟨call, hcall, hs⟩ := List.mem_flatMap.1 hs
    exact chained_iff.1 (h call hcall) s hs
  have hblock := checks_block (calls.flatMap Call.stmts) (.initial p) (List.cons_ne_nil _ _)
  obtain ⟨_, _, hinitial, hscopes⟩ := hblock.scopes
  cases hinitial
  rw [flatMap_declares_eq hchained, List.append_nil] at hscopes
  rw [afterCalls, foldl_run_eq_block, Checker.lookup?, hscopes]
  simp [Scopes.lookup?, outermost]

/-- **Scopes are lexical.** Whatever state a checker is in, statements leave the open blocks, the
names declared around and the return types of the functions around as they were, keep what was found
and declare only their own names. So after any calls from outside a name is known by its last
declaration outside of all inner blocks, and is unknown without one. -/
theorem lexically_scoped {c : Checker} (hc : Reachable c) {ss : List Stmt} (hss : Chained ss)
    (p : Provenance) {calls : List Call} (hcalls : ∀ call ∈ calls, Chained call.stmts) :
    (∀ s ∈ ss, Framed s.declared c (stmt s c)) ∧
    Framed (ss.flatMap Stmt.declared) c (block ss c) ∧
    ∀ x, (afterCalls p calls).lookup? x = (outermost calls).reverse.lookup x ∧
      ((∀ d ∈ outermost calls, d.1 ≠ x) → (afterCalls p calls).lookup? x = none) := by
  refine ⟨fun s hs => ?_, ?_, fun x => ⟨lookup?_afterCalls p hcalls x, fun hx => ?_⟩⟩
  · rw [← s.declares_eq_declared (chained_iff.1 hss s hs)]
    exact (checks_stmt s c hc.ne_nil).framed
  · rw [← flatMap_declares_eq hss]
    exact (checks_block ss c hc.ne_nil).framed
  · rw [lookup?_afterCalls p hcalls x, List.lookup_eq_none_iff]
    exact fun d hd => bne_iff_ne.2 (hx d (List.mem_reverse.1 hd)).symm

/-- A name is declared again in a loop, where another one is declared too. -/
def shadowing : List Stmt :=
  [.whileLoop 1 (.ident 2 "x")
      [.var 3 (.mk .let (.ident "x") (some .string) none),
        .var 4 (.mk .let (.array ["y"]) none none)],
    .functionDecl 5 "f" false (.mk [⟨"z", false, some .number⟩] none [])]

/-- The calls that declare the name and then check the loop. -/
def shadowingCalls : List Call :=
  [.stmt (.var 0 (.mk .let (.ident "x") (some .number) none)), .block shadowing]

/-- Behind the loop the first declaration counts again, and the other name is unknown, as is that of
a parameter. The same statements in a function declare a function there and nothing else. -/
theorem lexically_scoped_shadowing :
    Chained shadowing ∧ (∀ call ∈ shadowingCalls, Chained call.stmts) ∧
      Framed [("f", none)] ((initial .empty).enter [] none)
        (block shadowing ((initial .empty).enter [] none)) ∧
      (afterCalls .empty shadowingCalls).lookup? "x" = some (some .number) ∧
      (afterCalls .empty shadowingCalls).lookup? "y" = none ∧
      (afterCalls .empty shadowingCalls).lookup? "z" = none := by
  have hss : Chained shadowing := by decide
  have hcalls : ∀ call ∈ shadowingCalls, Chained call.stmts := by decide
  obtain ⟨-, hframed, hlookup⟩ :=
    lexically_scoped (.enter [] none (.initial .empty)) hss .empty hcalls
  refine ⟨hss, hcalls, hframed, ?_, ?_, ?_⟩
  · rw [(hlookup "x").1]
    decide
  · exact (hlookup "y").2 (by decide)
  · exact (hlookup "z").2 (by decide)

end Checker

end LuaTranspiler
