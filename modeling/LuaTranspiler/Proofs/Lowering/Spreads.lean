import LuaTranspiler.Proofs.Lowering.Documented
import LuaTranspiler.Proofs.Lowering.Lowered
import LuaTranspiler.Proofs.Source.Shape
import Mathlib.Algebra.GroupWithZero.Nat

/-!
# Where spreads stand

A spread is meant for the elements of an array and the arguments of a call. Lowering makes one of
each `...`, wherever that stands. So a spread stands elsewhere exactly where a `...` stands for a
single value: as an operand, a condition, the only value of a declaration, and so on. The two are
counted along the recursion over the tree, so no spread is lost and none comes from anything else.

* `Source.Stmt.scalars`: the expressions of a statement that stand for a single value
* `Target.Stmt.scalars`: the expressions in a tree that are no elements and no arguments
* `reached`: the statements in a block that are lowered, at every depth
* `strays_lowerBlock`: there are as many spreads among the one as there are `...` among the other
* `lowerChunk_spreads_fit_iff`: when all spreads of a source are elements or arguments
-/

namespace LuaTranspiler

/-- The only element of a list that has only one. -/
def lone {α : Type} : List α → List α
  | [a] => [a]
  | _ => []

/-! ### Expressions that stand for a single value -/

namespace Source

/-- Whether an expression is `...`. -/
def Expr.isVararg : Expr → Bool
  | .literal .vararg _ => true
  | _ => false

mutual

/-- The expressions inside an expression, but in no block of it, that stand for a single value: all
but the arguments of calls and the elements of tables. -/
def Expr.scalars : Expr → List Expr
  | .ident .. | .literal .. | .function .. => []
  | .member base .. => base :: base.scalars
  | .index base index _ => base :: (base.scalars ++ index :: index.scalars)
  | .unary _ operand _ => operand :: operand.scalars
  | .binary lhs _ rhs _ | .logical lhs _ rhs _ => lhs :: (lhs.scalars ++ rhs :: rhs.scalars)
  | .table fields _ => scalarsOfFields fields
  | .call base args _ => base :: (base.scalars ++ scalarsOf args)
  | .stringCall base argument _ | .tableCall base argument _ =>
    base :: (base.scalars ++ argument.scalars)

/-- The same inside expressions. -/
def scalarsOf : List Expr → List Expr
  | [] => []
  | e :: es => e.scalars ++ scalarsOf es

/-- The same inside fields. -/
def scalarsOfFields : List Field → List Expr
  | [] => []
  | .keyed key value _ :: fs => key :: (key.scalars ++ value :: (value.scalars ++ scalarsOfFields fs))
  | .named _ value _ :: fs => value :: (value.scalars ++ scalarsOfFields fs)
  | .positional value _ :: fs => value.scalars ++ scalarsOfFields fs

end

/-- The operands of a statement that stand for a single value. Several values that are declared,
assigned or returned are taken together. -/
def Stmt.singles : Stmt → List Expr
  | .localDecl _ init _ => lone init
  | .assign targets init _ => lone targets ++ lone init
  | .returnStmt values _ => lone values
  | s => s.operands

/-- The expressions in a statement, but in no block of it, that stand for a single value. -/
def Stmt.scalars (s : Stmt) : List Expr := s.singles ++ scalarsOf s.operands

/-- How many of some expressions are `...`. -/
def varargs (es : List Expr) : Nat := es.countP Expr.isVararg

section Varargs

variable {e : Expr} {es es' : List Expr}

@[simp] theorem varargs_nil : varargs [] = 0 := rfl

@[simp] theorem varargs_cons : varargs (e :: es) = e.isVararg.toNat + varargs es := by
  cases h : e.isVararg <;> simp [varargs, h, Nat.add_comm]

@[simp] theorem varargs_append : varargs (es ++ es') = varargs es + varargs es' :=
  List.countP_append

theorem scalarsOf_append : scalarsOf (es ++ es') = scalarsOf es ++ scalarsOf es' := by
  induction es with
  | nil => rfl
  | cons e es ih => simp [scalarsOf, ih]

end Varargs

theorem Expr.varargs_of_isPath : ∀ e : Expr, e.isPath = true → varargs (e :: e.scalars) = 0
  | .ident .., _ => rfl
  | .member base .dot _ _, h => by
    simpa [Expr.isVararg, Expr.scalars] using base.varargs_of_isPath h

/-- The name of a function holds no `...`. -/
theorem Stmt.varargs_functionDecl {name : Expr} {isLocal : Bool} {func : Function} {span : Span}
    (h : (Stmt.functionDecl name isLocal func span).WellFormed) :
    varargs (Stmt.functionDecl name isLocal func span).scalars = 0 := by
  rcases Expr.exists_of_isFunctionName (isFunctionName_of_wellFormed h) with
    ⟨_, _, rfl⟩ | ⟨base, _, _, _, rfl, hbase⟩
  · rfl
  · simpa [Stmt.scalars, Stmt.singles, Stmt.operands, scalarsOf, Expr.isVararg, Expr.scalars] using
      base.varargs_of_isPath hbase

end Source

namespace Target

/-- Whether an expression is a spread. -/
def Expr.isSpread : Expr → Bool
  | .spread .. => true
  | _ => false

mutual

/-- The expressions inside an expression, at every depth, that are no elements of an array and no
arguments of a call. -/
def Expr.scalars : Expr → List Expr
  | .ident .. | .number .. | .string .. | .bool .. => []
  | .member _ object _ => object :: object.scalars
  | .element _ object index => object :: (object.scalars ++ index :: index.scalars)
  | .binary _ lhs _ rhs => lhs :: (lhs.scalars ++ rhs :: rhs.scalars)
  | .unary _ _ operand | .increment _ operand | .spread _ operand => operand :: operand.scalars
  | .assign _ target _ value => target :: (target.scalars ++ value :: value.scalars)
  | .array _ elements => itemScalars elements
  | .object _ properties => propertyScalars properties
  | .call _ callee args => callee :: (callee.scalars ++ itemScalars args)
  | .function _ func => func.scalars

/-- The same inside elements or arguments. -/
def itemScalars : List Expr → List Expr
  | [] => []
  | e :: es => e.scalars ++ itemScalars es

/-- An expression that may be missing, and the same inside it. -/
def optionScalars : Option Expr → List Expr
  | none => []
  | some e => e :: e.scalars

/-- The keys and values of properties, and the same inside them. -/
def propertyScalars : List Property → List Expr
  | [] => []
  | .named _ value :: ps => value :: (value.scalars ++ propertyScalars ps)
  | .computed key value :: ps =>
    key :: (key.scalars ++ value :: (value.scalars ++ propertyScalars ps))

/-- The same in the body of a function. -/
def Function.scalars : Function → List Expr
  | .mk _ _ body => stmtScalars body

/-- The same in a declaration. -/
def VarDecl.scalars : VarDecl → List Expr
  | .mk _ _ _ init => optionScalars init

/-- The same in methods. -/
def methodScalars : List Method → List Expr
  | [] => []
  | .mk _ _ _ func :: ms => func.scalars ++ methodScalars ms

/-- The same in what follows the block of an `if`. -/
def Else.scalars : Else → List Expr
  | .none => []
  | .elseIf s => s.scalars
  | .block body => stmtScalars body

/-- The expressions in a statement, at every depth, that are no elements of an array and no
arguments of a call. -/
def Stmt.scalars : Stmt → List Expr
  | .var _ decl => decl.scalars
  | .functionDecl _ _ _ func => func.scalars
  | .classDecl _ _ methods => methodScalars methods
  | .expr _ e | .exportAssign _ e => e :: e.scalars
  | .returnStmt _ value => optionScalars value
  | .ifStmt _ cond thenBlock branch =>
    cond :: (cond.scalars ++ (stmtScalars thenBlock ++ branch.scalars))
  | .forLoop _ init test update body =>
    init.scalars ++ (test :: (test.scalars ++ (update :: (update.scalars ++ stmtScalars body))))
  | .forOf _ _ iterable body => iterable :: (iterable.scalars ++ stmtScalars body)
  | .whileLoop _ cond body => cond :: (cond.scalars ++ stmtScalars body)
  | .breakStmt _ => []

/-- The same for statements. -/
def stmtScalars : List Stmt → List Expr
  | [] => []
  | s :: ss => s.scalars ++ stmtScalars ss

end

/-- How many of some expressions are spreads. -/
def spreads (es : List Expr) : Nat := es.countP Expr.isSpread

section Spreads

variable {e : Expr} {es es' : List Expr}

@[simp] theorem spreads_nil : spreads [] = 0 := rfl

@[simp] theorem spreads_cons : spreads (e :: es) = e.isSpread.toNat + spreads es := by
  cases h : e.isSpread <;> simp [spreads, h, Nat.add_comm]

@[simp] theorem spreads_append : spreads (es ++ es') = spreads es + spreads es' :=
  List.countP_append

end Spreads

theorem stmtScalars_append (ss ts : List Stmt) :
    stmtScalars (ss ++ ts) = stmtScalars ss ++ stmtScalars ts := by
  induction ss with
  | nil => rfl
  | cons s ss ih => simp [stmtScalars, ih]

end Target

namespace Lowering

open Source (Block Comment varargs)
open Target (spreads)

/-! ### Expressions -/

section Trees

variable {ctx : Context} {tags : List Tag} {p : Provenance} {n : Block → Nat} {b : Block}
  {bs cs : List Block}

attribute [local simp] Source.Expr.scalars Source.scalarsOf Source.scalarsOfFields
  Target.Expr.scalars Target.itemScalars Target.optionScalars Target.propertyScalars
  Target.Stmt.scalars

/-- The sum over some blocks of what `n` counts in each. -/
def total (n : Block → Nat) (bs : List Block) : Nat := (bs.map n).sum

@[simp] theorem total_nil : total n [] = 0 := rfl

@[simp] theorem total_cons : total n (b :: bs) = n b + total n bs := rfl

@[simp] theorem total_append : total n (bs ++ cs) = total n bs + total n cs := by
  rw [total, List.map_append, List.sum_append, total, total]

/-- What is built for each of these blocks, as an inner block, has as many spreads that are no
elements and no arguments as `n` counts. -/
def Strays (ctx : Context) (p : Provenance) (n : Block → Nat) (bs : List Block) : Prop :=
  ∀ b ∈ bs, ∀ out, LoweredBlock ctx p false b out → spreads (Target.stmtScalars out) = n b

/-- An expression becomes a spread if it is `...`, and inside it there are as many spreads astray as
there are `...` and as `n` counts in the blocks. -/
def ExprStrays (n : Block → Nat) (e : Source.Expr) (a : Target.Expr) : Prop :=
  a.isSpread = e.isVararg ∧ spreads a.scalars = varargs e.scalars + total n e.inner

/-- The same for expressions in order. -/
def ItemStrays (n : Block → Nat) (es : List Source.Expr) (as : List Target.Expr) : Prop :=
  as.map Target.Expr.isSpread = es.map Source.Expr.isVararg ∧
    spreads (Target.itemScalars as) =
      varargs (Source.scalarsOf es) + total n (Source.innerOfExprs es)

/-- An expression that stands for a single value is counted itself. -/
theorem ExprStrays.single {e : Source.Expr} {a : Target.Expr} (h : ExprStrays n e a) :
    spreads (a :: a.scalars) = varargs (e :: e.scalars) + total n e.inner := by
  simp [h.1, h.2, Nat.add_assoc]

/-- What is neither `...` nor a spread is only counted inside. -/
theorem ExprStrays.intro {e : Source.Expr} {a : Target.Expr} (he : e.isVararg = false)
    (ha : a.isSpread = false) (h : spreads a.scalars = varargs e.scalars + total n e.inner) :
    ExprStrays n e a := ⟨ha.trans he.symm, h⟩

/-- Two expressions that both stand for a single value. -/
theorem ExprStrays.pair {e lhs rhs : Source.Expr} {a c d : Target.Expr} (he : e.isVararg = false)
    (ha : a.isSpread = false) (hlhs : ExprStrays n lhs c) (hrhs : ExprStrays n rhs d)
    (hscalars : e.scalars = lhs :: (lhs.scalars ++ rhs :: rhs.scalars))
    (hinner : e.inner = lhs.inner ++ rhs.inner)
    (hbuilt : a.scalars = c :: (c.scalars ++ d :: d.scalars)) : ExprStrays n e a := by
  refine .intro he ha ?_
  rw [hscalars, hinner, hbuilt]
  simp [hlhs.1, hlhs.2, hrhs.1, hrhs.2]
  omega

theorem ItemStrays.cons {e : Source.Expr} {es : List Source.Expr} {a : Target.Expr}
    {as : List Target.Expr} (h : ExprStrays n e a) (h' : ItemStrays n es as) :
    ItemStrays n (e :: es) (a :: as) := by
  refine ⟨by simp [h.1, h'.1], ?_⟩
  simp [h.2, h'.2, Source.innerOfExprs]
  omega

theorem strays_of_loweredFunction {method : Bool} {ty : Option Ty} {func : Source.Function}
    {f : Target.Function} (hb : Strays ctx p n [func.body])
    (h : LoweredFunction ctx p tags method ty func f) : spreads f.scalars = n func.body := by
  obtain ⟨params, body⟩ := func
  obtain ⟨ps, out, -, hout, rfl⟩ := h
  exact hb body List.mem_cons_self out hout

theorem strays_of_loweredUnary {span : Span} {op : Source.UnaryOp} {e a : Target.Expr}
    (h : LoweredUnary p span e a op) :
    a.isSpread = false ∧ spreads a.scalars = spreads (e :: e.scalars) := by
  cases op <;> obtain ⟨_, -, rfl⟩ := h <;> exact ⟨rfl, rfl⟩

theorem strays_of_loweredLiteral {span : Span} {value : Source.Literal} {a : Target.Expr}
    (h : LoweredLiteral p span a value) : ExprStrays n (.literal value span) a := by
  cases value with
  | vararg =>
    obtain ⟨_, ⟨_, -, rfl⟩, _, -, rfl⟩ := h
    exact ⟨rfl, rfl⟩
  | number | string | bool | nil =>
    obtain ⟨_, -, rfl⟩ := h
    exact ⟨rfl, rfl⟩

mutual

theorem strays_of_loweredExpr : ∀ (e : Source.Expr) {a : Target.Expr}, Strays ctx p n e.inner →
    LoweredExpr ctx p tags e a → ExprStrays n e a
  | .ident .., _, _, h => by
    obtain ⟨_, -, rfl⟩ := h
    exact ⟨rfl, rfl⟩
  | .literal value span, _, _, h => strays_of_loweredLiteral h
  | .member base .., _, hb, h => by
    obtain ⟨object, hobject, _, -, rfl⟩ := h
    exact .intro rfl rfl (strays_of_loweredExpr base hb hobject).single
  | .index base index _, _, hb, h => by
    obtain ⟨hbase, hindex⟩ := List.forall_mem_append.1 hb
    obtain ⟨object, i, hobject, hi, _, -, rfl⟩ := h
    exact .pair rfl rfl (strays_of_loweredExpr base hbase hobject)
      (strays_of_loweredExpr index hindex hi) rfl rfl rfl
  | .unary op operand _, _, hb, h => by
    obtain ⟨e, he, ha⟩ := h
    obtain ⟨hspread, hscalars⟩ := strays_of_loweredUnary ha
    exact .intro rfl hspread (hscalars.trans (strays_of_loweredExpr operand hb he).single)
  | .binary lhs op rhs _, _, hb, h => by
    obtain ⟨hlhs, hrhs⟩ := List.forall_mem_append.1 hb
    obtain ⟨c, _, d, -, hc, hd, _, -, rfl⟩ := h
    exact .pair rfl rfl (strays_of_loweredExpr lhs hlhs hc) (strays_of_loweredExpr rhs hrhs hd)
      rfl rfl rfl
  | .logical lhs _ rhs _, _, hb, h => by
    obtain ⟨hlhs, hrhs⟩ := List.forall_mem_append.1 hb
    obtain ⟨c, d, hc, hd, _, -, rfl⟩ := h
    exact .pair rfl rfl (strays_of_loweredExpr lhs hlhs hc) (strays_of_loweredExpr rhs hrhs hd)
      rfl rfl rfl
  | .table fields _, _, hb, h => by
    rcases h with ⟨es, hes, _, -, rfl⟩ | ⟨ps, hps, _, -, rfl⟩
    · exact .intro rfl rfl (strays_of_loweredElements fields hb hes)
    · exact .intro rfl rfl (strays_of_loweredProperties fields hb hps)
  | .call base args _, _, hb, h => by
    obtain ⟨hbase, hargs⟩ := List.forall_mem_append.1 hb
    obtain ⟨callee, as, hcallee, has, _, -, rfl⟩ := h
    have hcallee := strays_of_loweredExpr base hbase hcallee
    have has := strays_of_loweredExprs args hargs has
    refine .intro rfl rfl ?_
    simp [hcallee.1, hcallee.2, has.2, Source.Expr.inner]
    omega
  | .stringCall base argument _, _, hb, h | .tableCall base argument _, _, hb, h => by
    obtain ⟨hbase, hargument⟩ := List.forall_mem_append.1 hb
    obtain ⟨callee, arg, hcallee, harg, _, -, rfl⟩ := h
    have hcallee := strays_of_loweredExpr base hbase hcallee
    have harg := strays_of_loweredExpr argument hargument harg
    refine .intro rfl rfl ?_
    simp [hcallee.1, hcallee.2, harg.2, Source.Expr.inner]
    omega
  | .function func span, _, hb, h => by
    obtain ⟨_, f, -, hf, _, -, rfl⟩ := h
    refine .intro rfl rfl ?_
    simp [strays_of_loweredFunction hb hf, Source.Expr.inner]

theorem strays_of_loweredExprs : ∀ (es : List Source.Expr) {as : List Target.Expr},
    Strays ctx p n (Source.innerOfExprs es) → LoweredExprs ctx p tags es as → ItemStrays n es as
  | [], _, _, h => by
    cases h
    exact ⟨rfl, rfl⟩
  | e :: es, _, hb, h => by
    obtain ⟨he, hes⟩ := List.forall_mem_append.1 hb
    obtain ⟨a, as, ha, has, rfl⟩ := h
    exact .cons (strays_of_loweredExpr e he ha) (strays_of_loweredExprs es hes has)

theorem strays_of_loweredElements : ∀ (fs : List Source.Field) {as : List Target.Expr},
    Strays ctx p n (Source.innerOfFields fs) → LoweredElements ctx p tags fs as →
    spreads (Target.itemScalars as) =
      varargs (Source.scalarsOfFields fs) + total n (Source.innerOfFields fs)
  | [], _, _, h => by
    cases h
    rfl
  | .positional value _ :: fs, _, hb, h => by
    obtain ⟨hvalue, hrest⟩ := List.forall_mem_append.1 hb
    obtain ⟨a, as, ha, has, rfl⟩ := h
    have ha := strays_of_loweredExpr value hvalue ha
    simp [ha.2, strays_of_loweredElements fs hrest has, Source.innerOfFields]
    omega

theorem strays_of_loweredProperties : ∀ (fs : List Source.Field) {ps : List Target.Property},
    Strays ctx p n (Source.innerOfFields fs) → LoweredProperties ctx p tags fs ps →
    spreads (Target.propertyScalars ps) =
      varargs (Source.scalarsOfFields fs) + total n (Source.innerOfFields fs)
  | [], _, _, h => by
    cases h
    rfl
  | .named _ value _ :: fs, _, hb, h => by
    obtain ⟨hvalue, hrest⟩ := List.forall_mem_append.1 hb
    obtain ⟨v, ps, hv, hps, rfl⟩ := h
    have hv := strays_of_loweredExpr value hvalue hv
    simp [hv.1, hv.2, strays_of_loweredProperties fs hrest hps, Source.innerOfFields]
    omega
  | .keyed key value _ :: fs, _, hb, h => by
    obtain ⟨hkey, hb⟩ := List.forall_mem_append.1 hb
    obtain ⟨hvalue, hrest⟩ := List.forall_mem_append.1 hb
    obtain ⟨k, v, ps, hk, hv, hps, rfl⟩ := h
    have hk := strays_of_loweredExpr key hkey hk
    have hv := strays_of_loweredExpr value hvalue hv
    simp [hk.1, hk.2, hv.1, hv.2, strays_of_loweredProperties fs hrest hps, Source.innerOfFields]
    omega

end

/-! ### Statements -/

/-- Values that are joined are astray only if there is one of them. -/
def joinedStrays (as : List Target.Expr) : Nat := spreads (lone as) + spreads (Target.itemScalars as)

theorem ItemStrays.joined {es : List Source.Expr} {as : List Target.Expr} (h : ItemStrays n es as) :
    joinedStrays as =
      varargs (lone es) + varargs (Source.scalarsOf es) + total n (Source.innerOfExprs es) := by
  obtain ⟨hsame, hinside⟩ := h
  have hlone : spreads (lone as) = varargs (lone es) := by
    rcases es with _ | ⟨e, _ | ⟨e', es⟩⟩ <;> rcases as with _ | ⟨a, _ | ⟨a', as⟩⟩ <;>
      simp_all [lone]
  rw [joinedStrays, hlone, hinside, Nat.add_assoc]

section Statement

variable {top : Bool} {span : Span}

theorem strays_of_joinedValues {as : List Target.Expr} {value : Option Target.Expr}
    (h : JoinedValues p span value as) :
    spreads (Target.optionScalars value) = joinedStrays as := by
  rcases as with _ | ⟨a, _ | ⟨a', as⟩⟩
  · cases h
    rfl
  · cases h
    simp [joinedStrays, lone]
  · obtain ⟨_, ⟨_, -, rfl⟩, rfl⟩ := h
    simp [joinedStrays, lone, Target.Expr.isSpread]

theorem strays_of_joinedTargets {as : List Target.Expr} {a : Target.Expr}
    (h : JoinedTargets p span a as) : spreads (a :: a.scalars) = joinedStrays as := by
  rcases as with _ | ⟨b, _ | ⟨b', as⟩⟩
  · obtain ⟨_, -, rfl⟩ := h
    rfl
  · cases h
    simp [joinedStrays, lone]
  · obtain ⟨_, -, rfl⟩ := h
    simp [joinedStrays, lone, Target.Expr.isSpread]

theorem strays_of_assignedValue {value : Option Target.Expr} {a : Target.Expr}
    (h : AssignedValue p span a value) :
    spreads (a :: a.scalars) = spreads (Target.optionScalars value) := by
  cases value with
  | some e =>
    cases h
    rfl
  | none =>
    obtain ⟨_, -, rfl⟩ := h
    rfl

theorem strays_of_loweredAssignment {target value : Target.Expr} {t : Target.Stmt}
    (h : LoweredAssignment p span target value t) :
    spreads t.scalars = spreads (target :: target.scalars) + spreads (value :: value.scalars) := by
  obtain ⟨_, ⟨_, -, rfl⟩, _, -, rfl⟩ := h
  simp [Target.Expr.isSpread, Nat.add_assoc]

/-- The counter, built once for the test and once for the update, is no spread. -/
theorem strays_of_loweredLoop {var : Source.Name} {first last : Target.Expr}
    {amount : Option Target.Expr} {body : List Target.Stmt} {t : Target.Stmt}
    (h : LoweredLoop p span var first last amount body t) :
    spreads t.scalars = spreads (first :: first.scalars) + spreads (last :: last.scalars) +
      spreads (Target.optionScalars amount) + spreads (Target.stmtScalars body) := by
  obtain ⟨_, _, _, update, ⟨_, -, rfl⟩, ⟨_, -, rfl⟩, ⟨_, -, rfl⟩, hupdate, _, -, rfl⟩ := h
  cases amount with
  | none =>
    obtain ⟨_, -, rfl⟩ := hupdate
    simp [Target.VarDecl.scalars, Target.Expr.isSpread]
    omega
  | some amount =>
    obtain ⟨_, -, rfl⟩ := hupdate
    simp [Target.VarDecl.scalars, Target.Expr.isSpread]
    omega

theorem strays_of_loweredStep {step : Option Source.Expr} {amount : Option Target.Expr}
    (hb : Strays ctx p n (Source.innerOfExprs step.toList)) (h : LoweredStep ctx p tags step amount) :
    spreads (Target.optionScalars amount) = varargs step.toList +
      varargs (Source.scalarsOf step.toList) + total n (Source.innerOfExprs step.toList) := by
  cases step with
  | none =>
    cases h
    rfl
  | some step =>
    rw [Option.toList_some, Source.innerOfExprs_singleton] at hb
    obtain ⟨a, ha, rfl⟩ := h
    rw [Target.optionScalars, (strays_of_loweredExpr step hb ha).single]
    simp [Source.innerOfExprs]

theorem strays_of_loweredIterable {es : List Source.Expr} {a : Target.Expr}
    (hb : Strays ctx p n (Source.innerOfExprs es)) (h : LoweredIterable ctx p tags span es a) :
    spreads (a :: a.scalars) =
      varargs es + varargs (Source.scalarsOf es) + total n (Source.innerOfExprs es) := by
  rcases es with _ | ⟨e, _ | ⟨e', es⟩⟩
  · obtain ⟨_, -, rfl⟩ := h
    rfl
  · rw [Source.innerOfExprs_singleton] at hb
    rw [(strays_of_loweredExpr e hb h).single]
    simp [Source.innerOfExprs]
  · exact absurd h id

theorem strays_of_loweredElse {o : Option Block} {last : Target.Else}
    (hb : Strays ctx p n o.toList) (h : LoweredElse ctx p o last) :
    spreads last.scalars = total n o.toList := by
  cases o with
  | none =>
    cases h
    rfl
  | some block =>
    obtain ⟨out, hout, rfl⟩ := h
    exact hb block List.mem_cons_self out hout

theorem strays_of_loweredClauses {cs : List Source.Clause} {last branch : Target.Else}
    (hb : Strays ctx p n (Source.innerOfClauses cs)) (h : LoweredClauses ctx p tags last cs branch) :
    spreads branch.scalars = varargs (Source.conditions cs) +
      varargs (Source.scalarsOf (Source.conditions cs)) + total n (Source.innerOfClauses cs) +
      spreads last.scalars := by
  induction cs generalizing branch with
  | nil =>
    cases h
    exact (Nat.zero_add _).symm
  | cons c cs ih =>
    obtain ⟨cond, block⟩ := c
    obtain ⟨hcond, hb⟩ := List.forall_mem_append.1 hb
    obtain ⟨hblock, hcs⟩ := List.forall_mem_cons.1 hb
    obtain ⟨c, body, rest, _, hc, hbody, hrest, ⟨_, -, rfl⟩, rfl⟩ := h
    have hc := strays_of_loweredExpr cond hcond hc
    simp [Target.Else.scalars, hc.1, hc.2, hblock body hbody, ih hcs hrest, Source.conditions,
      Source.innerOfClauses]
    omega

attribute [local simp] Source.Stmt.scalars Source.Stmt.singles Source.Stmt.operands
  Source.Stmt.inner Source.scalarsOf_append

/-- A statement has as many spreads astray as there are `...` for single values, and as `n` counts
in its blocks. -/
def StmtStrays (n : Block → Nat) (s : Source.Stmt) (t : Target.Stmt) : Prop :=
  spreads t.scalars = varargs s.scalars + total n s.inner

theorem strays_of_loweredStmt : ∀ (s : Source.Stmt) {t : Target.Stmt}, Strays ctx p n s.inner →
    LoweredStmt ctx p top tags s t → StmtStrays n s t
  | .localDecl names init span, _, hb, h => by
    obtain ⟨_, es, value, -, hes, hvalue, _, -, rfl⟩ := h
    rw [StmtStrays, Target.Stmt.scalars, Target.VarDecl.scalars, strays_of_joinedValues hvalue,
      (strays_of_loweredExprs init hb hes).joined]
    simp
  | .assign targets init span, _, hb, h => by
    obtain ⟨htargets, hinit⟩ := List.forall_mem_append.1 hb
    obtain ⟨lhs, target, es, value, v, hlhs, htarget, hes, hvalue, hv, h⟩ := h
    rw [StmtStrays, strays_of_loweredAssignment h, strays_of_joinedTargets htarget,
      (strays_of_loweredExprs targets htargets hlhs).joined, strays_of_assignedValue hv,
      strays_of_joinedValues hvalue, (strays_of_loweredExprs init hinit hes).joined]
    simp
    omega
  | .call e span, _, hb, h => by
    obtain ⟨a, ha, _, -, rfl⟩ := h
    rw [StmtStrays, Target.Stmt.scalars, (strays_of_loweredExpr e hb ha).single]
    simp
  | .functionDecl (.ident name _) _ func span, _, hb, h => by
    obtain ⟨_, f, -, hf, _, -, rfl⟩ := h
    simp [StmtStrays, strays_of_loweredFunction hb hf, Source.Expr.isVararg, Source.Expr.inner]
  | .functionDecl (.member base indexer member memberSpan) _ func span, _, hb, h => by
    obtain ⟨hname, hbody⟩ := List.forall_mem_append.1 hb
    obtain ⟨_, object, target, f, _, -, hobject, htarget, hf, ⟨_, -, rfl⟩, h⟩ := h
    -- the target is what is built for the name as an expression
    have htarget := strays_of_loweredExpr (.member base indexer member memberSpan) hname
      ⟨object, hobject, htarget⟩
    rw [StmtStrays, strays_of_loweredAssignment h, htarget.single]
    simp [strays_of_loweredFunction hbody hf, Target.Expr.isSpread]
    omega
  | .returnStmt values span, _, hb, h => by
    obtain ⟨es, value, hes, hvalue, h⟩ := h
    have hscalars : varargs (lone values) + varargs (Source.scalarsOf values) +
        total n (Source.innerOfExprs values) = spreads (Target.optionScalars value) := by
      rw [strays_of_joinedValues hvalue, (strays_of_loweredExprs values hb hes).joined]
    rcases h with ⟨v, -, rfl, _, -, rfl⟩ | ⟨-, _, -, rfl⟩
    · simp [StmtStrays, hscalars]
    · simp [StmtStrays, hscalars]
  | .ifStmt cond thenBlock clauses elseBlock span, _, hb, h => by
    obtain ⟨hcond, hb⟩ := List.forall_mem_append.1 hb
    obtain ⟨hthen, hb⟩ := List.forall_mem_cons.1 hb
    obtain ⟨hclauses, helse⟩ := List.forall_mem_append.1 hb
    obtain ⟨c, body, last, branch, hc, hbody, hlast, hbranch, _, -, rfl⟩ := h
    have hc := strays_of_loweredExpr cond hcond hc
    simp [StmtStrays, hc.1, hc.2, hthen body hbody, strays_of_loweredClauses hclauses hbranch,
      strays_of_loweredElse helse hlast]
    omega
  | .whileLoop cond block span, _, hb, h => by
    obtain ⟨hcond, hblock⟩ := List.forall_mem_append.1 hb
    obtain ⟨c, body, hc, hbody, _, -, rfl⟩ := h
    have hc := strays_of_loweredExpr cond hcond hc
    simp [StmtStrays, hc.1, hc.2, hblock block List.mem_cons_self body hbody]
    omega
  | .forNumeric var start stop step block span, _, hb, h => by
    obtain ⟨hstart, hb⟩ := List.forall_mem_append.1 hb
    obtain ⟨hstop, hb⟩ := List.forall_mem_append.1 hb
    obtain ⟨hstep, hblock⟩ := List.forall_mem_append.1 hb
    obtain ⟨first, last, amount, body, hfirst, hlast, hamount, hbody, h⟩ := h
    rw [StmtStrays, strays_of_loweredLoop h, (strays_of_loweredExpr start hstart hfirst).single,
      (strays_of_loweredExpr stop hstop hlast).single, strays_of_loweredStep hstep hamount,
      hblock block List.mem_cons_self body hbody]
    simp
    omega
  | .forGeneric vars iterators block span, _, hb, h => by
    obtain ⟨hiterators, hblock⟩ := List.forall_mem_append.1 hb
    obtain ⟨iterable, body, hiterable, hbody, _, -, rfl⟩ := h
    have hiterable := strays_of_loweredIterable hiterators hiterable
    rw [Target.spreads_cons] at hiterable
    simp [StmtStrays, hblock block List.mem_cons_self body hbody]
    omega
  | .breakStmt span, _, _, h => by
    obtain ⟨_, -, rfl⟩ := h
    simp [StmtStrays]

end Statement

/-! ### Blocks -/

/-- The `...` for single values in statements, and what `n` counts in their blocks. -/
def countedIn (n : Block → Nat) (xs : List (Source.Stmt × List Comment)) : Nat :=
  (xs.map fun x => varargs x.1.scalars + total n x.1.inner).sum

theorem countedIn_cons (x : Source.Stmt × List Comment) (xs : List (Source.Stmt × List Comment)) :
    countedIn n (x :: xs) = varargs x.1.scalars + total n x.1.inner + countedIn n xs :=
  List.sum_cons

/-- Members and other statements together count as much as all. -/
theorem countedIn_members_others (xs : List (Source.Stmt × List Comment)) :
    countedIn n (members xs) + countedIn n (others xs) = countedIn n xs := by
  rw [countedIn, countedIn, ← List.sum_append, ← List.map_append]
  exact ((perm_members_others xs).map _).sum_nat

theorem strays_of_loweredStmts {top : Bool} {keep : Source.Stmt → Bool} {floor : Nat}
    {ss : List Source.Stmt} {ts : List Target.Stmt} (hb : ∀ s ∈ ss, Strays ctx p n s.inner)
    (h : LoweredStmts ctx p top keep floor ss ts) :
    spreads (Target.stmtScalars ts) =
      countedIn n ((Source.commentedFrom ctx.comments floor ss).filter fun x => keep x.1) := by
  induction ss generalizing floor ts with
  | nil =>
    cases h
    rfl
  | cons s ss ih =>
    obtain ⟨hs, hss⟩ := List.forall_mem_cons.1 hb
    rw [LoweredStmts] at h
    rw [Source.commentedFrom, List.filter_cons]
    split at h
    next hkeep =>
      obtain ⟨t, ts, ht, hts, rfl⟩ := h
      rw [if_pos hkeep, countedIn_cons, Target.stmtScalars, Target.spreads_append,
        strays_of_loweredStmt s hs ht, ih hss hts]
    next hkeep =>
      rw [if_neg hkeep]
      exact ih hss h

section Members

variable {floor : Nat} {s : Source.Stmt} {ss : List Source.Stmt}

theorem strays_of_loweredExport {t : Target.Stmt} (hs : s.WellFormed)
    (hb : Strays ctx p n s.inner) (h : LoweredExport ctx p tags s t) : StmtStrays n s t := by
  cases s with
  | functionDecl name isLocal func span =>
    rw [Source.Stmt.inner_functionDecl hs] at hb
    cases name with
    | member base indexer member =>
      obtain ⟨_, f, -, hf, _, -, rfl⟩ := h
      rw [StmtStrays, Source.Stmt.varargs_functionDecl hs, Source.Stmt.inner_functionDecl hs]
      simp [strays_of_loweredFunction hb hf]
    | _ => exact absurd h id
  | _ => exact absurd h id

theorem strays_of_loweredExports {ts : List Target.Stmt}
    (hss : ∀ s ∈ ss, s.WellFormed ∧ Strays ctx p n s.inner)
    (h : LoweredExports ctx p floor ss ts) : spreads (Target.stmtScalars ts) =
      countedIn n (members (Source.commentedFrom ctx.comments floor ss)) := by
  induction ss generalizing floor ts with
  | nil =>
    cases h
    rfl
  | cons s ss ih =>
    obtain ⟨⟨hs, hb⟩, hss⟩ := List.forall_mem_cons.1 hss
    rw [LoweredExports] at h
    rw [Source.commentedFrom]
    split at h
    next hmember =>
      obtain ⟨t, ts, ht, hts, rfl⟩ := h
      rw [members_cons hmember, countedIn_cons, Target.stmtScalars, Target.spreads_append,
        strays_of_loweredExport hs hb ht, ih hss hts]
    next hmember =>
      rw [members_cons_of_not hmember]
      exact ih hss h

theorem strays_of_loweredMethod {m : Target.Method} (hs : s.WellFormed)
    (hb : Strays ctx p n s.inner) (h : LoweredMethod ctx p tags s m) :
    spreads (Target.methodScalars [m]) = varargs s.scalars + total n s.inner := by
  cases s with
  | functionDecl name isLocal func span =>
    rw [Source.Stmt.varargs_functionDecl hs, Source.Stmt.inner_functionDecl hs]
    rw [Source.Stmt.inner_functionDecl hs] at hb
    cases name with
    | member base indexer member =>
      obtain ⟨_, f, -, hf, _, -, rfl⟩ := h
      simp [Target.methodScalars, strays_of_loweredFunction hb hf]
    | _ => exact absurd h id
  | _ => exact absurd h id

theorem strays_of_loweredMethods {ms : List Target.Method}
    (hss : ∀ s ∈ ss, s.WellFormed ∧ Strays ctx p n s.inner)
    (h : LoweredMethods ctx p floor ss ms) : spreads (Target.methodScalars ms) =
      countedIn n (members (Source.commentedFrom ctx.comments floor ss)) := by
  induction ss generalizing floor ms with
  | nil =>
    cases h
    rfl
  | cons s ss ih =>
    obtain ⟨⟨hs, hb⟩, hss⟩ := List.forall_mem_cons.1 hss
    rw [LoweredMethods] at h
    rw [Source.commentedFrom]
    split at h
    next hmember =>
      obtain ⟨m, ms, hm, hms, rfl⟩ := h
      have hm := strays_of_loweredMethod hs hb hm
      obtain ⟨id, name, isStatic, func⟩ := m
      rw [members_cons hmember, countedIn_cons, ← hm, ← ih hss hms]
      simp [Target.methodScalars]
    next hmember =>
      rw [members_cons_of_not hmember]
      exact ih hss h

end Members

end Trees

/-- The statements in a block that are lowered, at every depth. -/
def reached (ctx : Context) (top : Bool) (b : Block) : List Source.Stmt :=
  (survivors ctx false top b ++ (documented ctx false top b).flatMap fun x =>
    survivors ctx false false x.1.body).map Prod.fst

/-- The `...` for single values in a block, at every depth. -/
def strayVarargs (ctx : Context) (top : Bool) (b : Block) : Nat :=
  varargs ((reached ctx top b).flatMap Source.Stmt.scalars)

/-- The same in given statements, without the blocks in them. -/
def ownVarargs (xs : List (Source.Stmt × List Comment)) : Nat :=
  varargs (xs.flatMap fun x => x.1.scalars)

theorem strayVarargs_eq_own (ctx : Context) (top : Bool) (b : Block) :
    strayVarargs ctx top b = ownVarargs (survivors ctx false top b) +
      ((documented ctx false top b).map fun f =>
        ownVarargs (survivors ctx false false f.1.body)).sum := by
  rw [strayVarargs, reached, List.flatMap_map, List.flatMap_append, Source.varargs_append,
    List.flatMap_assoc]
  exact congrArg (ownVarargs (survivors ctx false top b) + ·) List.countP_flatMap

/-- They are those in the statements of the block and those in the blocks inside. -/
theorem strayVarargs_eq (ctx : Context) (top : Bool) (b : Block) :
    strayVarargs ctx top b =
      countedIn (strayVarargs ctx false) (survivors ctx false top b) := by
  have hwithin (tags : List Tag) (fs : List Source.Function) :
      ((within ctx false tags fs).map fun f => ownVarargs (survivors ctx false false f.1.body)).sum =
        total (strayVarargs ctx false) (fs.map Source.Function.body) := by
    induction fs with
    | nil => rfl
    | cons f fs ih =>
      rw [within_cons, List.map_cons, List.map_append, List.sum_cons, List.sum_append, ih,
        List.map_cons, total_cons, strayVarargs_eq_own, Nat.add_assoc]
  rw [strayVarargs_eq_own, documented_eq]
  induction survivors ctx false top b with
  | nil => rfl
  | cons x xs ih =>
    rw [countedIn_cons, ← ih, gathered_cons, List.map_append, List.sum_append, hwithin,
      Source.Stmt.map_body_scopes, ownVarargs, List.flatMap_cons, Source.varargs_append, ownVarargs]
    omega

/-- What is built for a block has no other spreads that are no elements and no arguments. -/
theorem strays_of_loweredBlock {ctx : Context} {p : Provenance} {top : Bool} {b : Block}
    {out : List Target.Stmt} (hb : b.WellFormed) (h : LoweredBlock ctx p top b out) :
    spreads (Target.stmtScalars out) = strayVarargs ctx top b := by
  induction b using Block.innerInduction generalizing top out with
  | step b ih =>
    obtain ⟨start, stmts⟩ := b
    obtain ⟨hstmts, -⟩ := Source.wellFormedStmts_iff.1 hb
    have hstrays : ∀ s ∈ stmts, Strays ctx p (strayVarargs ctx false) s.inner :=
      fun s hs c hc _ hout =>
        ih s hs c hc (Source.Stmt.wellFormed_inner (hstmts s hs) c hc) hout
    rw [strayVarargs_eq]
    have hplain (hshape : shapeOf ctx top start stmts = .plain) :
        spreads (Target.stmtScalars out) = countedIn (strayVarargs ctx false)
          (survivors ctx false top (.mk start stmts)) := by
      rw [survivors_of_plain hshape,
        ← List.filter_true (Source.commentedFrom ctx.comments start stmts)]
      exact strays_of_loweredStmts hstrays ((loweredBlock_plain hshape).1 h)
    cases stmts with
    | nil => exact hplain rfl
    | cons first rest =>
      obtain ⟨-, hrest⟩ := List.forall_mem_cons.1 hstrays
      have hmembers : ∀ s ∈ rest, s.WellFormed ∧ Strays ctx p (strayVarargs ctx false) s.inner :=
        fun s hs => ⟨hstmts s (List.mem_cons_of_mem _ hs), hrest s hs⟩
      rcases shapeOf_cons_cases ctx top start first rest with
        ⟨hshape, -⟩ | ⟨hshape, -⟩ | ⟨name, _, _, span, -, hshape, -⟩
      · exact hplain hshape
      · obtain ⟨exports, ts, hexports, hts, rfl⟩ := (loweredBlock_module hshape).1 h
        rw [survivors_of_rewritten (by simp [hshape]), ← countedIn_members_others,
          Target.stmtScalars_append, Target.spreads_append,
          strays_of_loweredExports hmembers hexports, strays_of_loweredStmts hrest hts]
        rfl
      · obtain ⟨methods, _, ts, hmethods, ⟨_, -, rfl⟩, hts, rfl⟩ := (loweredBlock_class hshape).1 h
        rw [survivors_of_rewritten (by simp [hshape]), ← countedIn_members_others,
          Target.stmtScalars, Target.Stmt.scalars, Target.spreads_append,
          strays_of_loweredMethods hmembers hmethods, strays_of_loweredStmts hrest hts]
        rfl

/-- Lowering a block makes no other spreads that are no elements and no arguments. -/
theorem strays_lowerBlock (ctx : Context) (p : Provenance) (top : Bool) (b : Block)
    (hb : b.WellFormed) :
    Builds p (lowerBlock ctx top b) fun out =>
      spreads (Target.stmtScalars out) = strayVarargs ctx top b :=
  (lowered_lowerBlock b).mono fun _ hout => strays_of_loweredBlock hb hout

/-- **All spreads are elements of arrays or arguments of calls exactly if no `...` stands for a
single value**, in whatever statement that is lowered. -/
theorem lowerChunk_spreads_fit_iff {source : String} {module classmod : Bool}
    {chunk : Source.Chunk} {st st' : State} {out : List Target.Stmt}
    (hparse : Source.parse source = .ok chunk)
    (hrun : lowerChunk module classmod chunk st = .ok out st') :
    (∀ e ∈ Target.stmtScalars out, e.isSpread = false) ↔
      ∀ s ∈ reached ⟨module, classmod, chunk.comments⟩ true chunk.body, ∀ e ∈ s.scalars,
        e.isVararg = false := by
  have hlowered : lowerBlock ⟨module, classmod, chunk.comments⟩ true chunk.body .initial =
      .ok out st' := hrun
  have hcount := (strays_lowerBlock ⟨module, classmod, chunk.comments⟩ st'.provenance true
    chunk.body (Source.wellFormed_of_parse hparse) .initial out st' hlowered).2 fun _ _ _ => rfl
  have hspreads : (∀ e ∈ Target.stmtScalars out, e.isSpread = false) ↔
      spreads (Target.stmtScalars out) = 0 := by
    simp [spreads]
  rw [hspreads, hcount, strayVarargs, varargs, List.countP_eq_zero, List.forall_mem_flatMap]
  simp

/-- Every `...` is an argument or an element. -/
def passedVararg : String := "f(..., 1)\nlocal t = \x7b...\x7d"

theorem lowerChunk_spreads_passedVararg :
    ∃ chunk out st', Source.parse passedVararg = .ok chunk ∧
      lowerChunk false false chunk .initial = .ok out st' ∧
      (∀ e ∈ Target.stmtScalars out, e.isSpread = false) ∧
      ∀ s ∈ reached ⟨false, false, chunk.comments⟩ true chunk.body, ∀ e ∈ s.scalars,
        e.isVararg = false := by
  have hscalars : inspect? false false (fun out _ => decide (∀ e ∈ Target.stmtScalars out,
      e.isSpread = false)) passedVararg = some true := by decide +kernel
  obtain ⟨chunk, out, st', hparse, hrun, hview⟩ := exists_of_inspect? hscalars
  have hfit := of_decide_eq_true hview
  exact ⟨chunk, out, st', hparse, hrun, hfit, (lowerChunk_spreads_fit_iff hparse hrun).1 hfit⟩

/-- The only value for two names is `...`. -/
def splitVararg : String := "local a, b = ..."

/-- It becomes a spread that is the initial value of the declaration. -/
theorem lowerChunk_strays_splitVararg :
    ∃ chunk out st', Source.parse splitVararg = .ok chunk ∧
      lowerChunk false false chunk .initial = .ok out st' ∧
      (Target.stmtScalars out).map Target.Expr.isSpread = [true, false] ∧
      ¬∀ e ∈ Target.stmtScalars out, e.isSpread = false := by
  have hscalars : inspect? false false (fun out _ => (Target.stmtScalars out).map
      Target.Expr.isSpread) splitVararg = some [true, false] := by decide +kernel
  obtain ⟨chunk, out, st', hparse, hrun, hview⟩ := exists_of_inspect? hscalars
  refine ⟨chunk, out, st', hparse, hrun, hview, fun hfit => ?_⟩
  have hmem : true ∈ (Target.stmtScalars out).map Target.Expr.isSpread := by
    rw [hview]
    exact List.mem_cons_self
  obtain ⟨e, he, hspread⟩ := List.mem_map.1 hmem
  exact Bool.false_ne_true ((hfit e he).symm.trans hspread)

end Lowering

end LuaTranspiler
