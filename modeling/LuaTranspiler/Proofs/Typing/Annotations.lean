import LuaTranspiler.Proofs.Lowering.Documented
import LuaTranspiler.Proofs.Lowering.Lowered
import LuaTranspiler.Proofs.Typing.Values
import LuaTranspiler.Proofs.Typing.Walk

/-!
# The types of a program

The types in a program are those that its doc tags write: basic types, unions of basic types, and
tuples of these for several returned values. All of them are regular, and so is what is inferred
from them. Hence the checker decides inclusion of the sets of values wherever it compares types.

* `Target.Stmt.Annotated R`: all types written in a statement satisfy `R`
* `regular_writtenType`, `annotated_of_loweredBlock`: the types of a built tree are regular
* `regular_of_infer?`: so are the types inferred from them
* `Checker.Regular`: the types that a checker keeps and reports are regular
* `isAssignable_iff_subset`: assignability is inclusion
-/

namespace LuaTranspiler

universe u

namespace Target

/-! ### Annotations of a tree -/

section Annotated

variable (R : Ty → Prop)

mutual

/-- Whether all types that are written in an expression, at every depth, satisfy `R`. -/
def Expr.Annotated : Expr → Prop
  | .ident .. | .number .. | .string .. | .bool .. => True
  | .member _ object _ => object.Annotated
  | .element _ object index => object.Annotated ∧ index.Annotated
  | .binary _ lhs _ rhs => lhs.Annotated ∧ rhs.Annotated
  | .unary _ _ operand | .increment _ operand => operand.Annotated
  | .assign _ target _ value => target.Annotated ∧ value.Annotated
  | .spread _ value => value.Annotated
  | .array _ elements => exprsAnnotated elements
  | .object _ properties => propertiesAnnotated properties
  | .call _ callee args => callee.Annotated ∧ exprsAnnotated args
  | .function _ func => func.Annotated

/-- The same for expressions. -/
def exprsAnnotated : List Expr → Prop
  | [] => True
  | e :: es => e.Annotated ∧ exprsAnnotated es

/-- The same for the properties of an object. -/
def propertiesAnnotated : List Property → Prop
  | [] => True
  | .named _ value :: ps => value.Annotated ∧ propertiesAnnotated ps
  | .computed key value :: ps => key.Annotated ∧ value.Annotated ∧ propertiesAnnotated ps

/-- The same for a function: for the types of its parameters, its return type and its body. -/
def Function.Annotated : Function → Prop
  | .mk params returnType body =>
    (∀ p ∈ params, ∀ ty ∈ p.ty, R ty) ∧ (∀ ty ∈ returnType, R ty) ∧ stmtsAnnotated body

/-- The same for a declaration. -/
def VarDecl.Annotated : VarDecl → Prop
  | .mk _ _ ty none => ∀ t ∈ ty, R t
  | .mk _ _ ty (some e) => (∀ t ∈ ty, R t) ∧ e.Annotated

/-- The same for a method. -/
def Method.Annotated : Method → Prop
  | .mk _ _ _ func => func.Annotated

/-- The same for methods. -/
def methodsAnnotated : List Method → Prop
  | [] => True
  | m :: ms => m.Annotated ∧ methodsAnnotated ms

/-- The same for what follows the block of an `if`. -/
def Else.Annotated : Else → Prop
  | .none => True
  | .elseIf s => s.Annotated
  | .block body => stmtsAnnotated body

/-- The same for a statement. -/
def Stmt.Annotated : Stmt → Prop
  | .var _ decl => decl.Annotated
  | .functionDecl _ _ _ func => func.Annotated
  | .classDecl _ _ methods => methodsAnnotated methods
  | .expr _ e | .exportAssign _ e | .returnStmt _ (some e) => e.Annotated
  | .returnStmt _ none | .breakStmt _ => True
  | .ifStmt _ cond thenBlock elseBranch =>
    cond.Annotated ∧ stmtsAnnotated thenBlock ∧ elseBranch.Annotated
  | .forLoop _ init test update body =>
    init.Annotated ∧ test.Annotated ∧ update.Annotated ∧ stmtsAnnotated body
  | .forOf _ _ iterable body => iterable.Annotated ∧ stmtsAnnotated body
  | .whileLoop _ cond body => cond.Annotated ∧ stmtsAnnotated body

/-- The same for statements. -/
def stmtsAnnotated : List Stmt → Prop
  | [] => True
  | s :: ss => s.Annotated ∧ stmtsAnnotated ss

end

variable {R}

theorem annotated_varDecl {kind : VarKind} {binding : Binding} {ty : Option Ty}
    {init : Option Expr} : (VarDecl.mk kind binding ty init).Annotated R ↔
      (∀ t ∈ ty, R t) ∧ ∀ e ∈ init, e.Annotated R := by
  cases init <;> simp [VarDecl.Annotated]

theorem annotated_returnStmt {id : Nat} {value : Option Expr} :
    (Stmt.returnStmt id value).Annotated R ↔ ∀ e ∈ value, e.Annotated R := by
  cases value <;> simp [Stmt.Annotated]

theorem stmtsAnnotated_append {ss ts : List Stmt} :
    stmtsAnnotated R (ss ++ ts) ↔ stmtsAnnotated R ss ∧ stmtsAnnotated R ts := by
  induction ss with
  | nil => simp [stmtsAnnotated]
  | cons s ss ih => simp [stmtsAnnotated, ih, and_assoc]

end Annotated

end Target

namespace Lowering

/-! ### Types that tags write -/

/-- What holds of every single result holds of all results, and there are as many as arguments. -/
theorem forall_mem_of_mapM {α β : Type} {f : α → Except Error β} {P : β → Prop}
    (hf : ∀ a b, f a = .ok b → P b) {as : List α} {bs : List β} (h : as.mapM f = .ok bs) :
    (∀ b ∈ bs, P b) ∧ bs.length = as.length := by
  induction as generalizing bs with
  | nil =>
    cases h
    simp
  | cons a as ih =>
    rw [List.mapM_cons] at h
    cases ha : f a with
    | error e => simp [ha, bind, Except.bind] at h
    | ok b =>
      cases has : as.mapM f with
      | error e => simp [ha, has, bind, Except.bind] at h
      | ok bs' =>
        simp only [ha, has, bind, Except.bind, pure, Except.pure, Except.ok.injEq] at h
        subst h
        obtain ⟨hall, hlength⟩ := ih has
        exact ⟨List.forall_mem_cons.2 ⟨hf a b ha, hall⟩, by simp [hlength]⟩

theorem flat_basicType (span : Span) (name : String) (ty : Ty)
    (h : basicType span name = .ok ty) : ty.flat = true := by
  unfold basicType basicType? at h
  split at h
  next t ht =>
    cases h
    split at ht <;> cases ht <;> rfl
  next => cases h

/-- A tag writes a basic type or a union of two or more. -/
theorem writtenType_cases {P : Ty → Prop} {span : Span} {s : String} {ty : Ty}
    (hP : ∀ name t, basicType span name = .ok t → P t) (h : writtenType span s = .ok ty) :
    P ty ∨ ∃ ts, ty = .union ts ∧ 2 ≤ ts.length ∧ ∀ t ∈ ts, P t := by
  unfold writtenType at h
  cases hts : (typeNames s).mapM (basicType span) with
  | error e => simp [hts, bind, Except.bind] at h
  | ok ts =>
    obtain ⟨hall, hlength⟩ := forall_mem_of_mapM hP hts
    simp only [hts, bind, Except.bind, pure, Except.pure] at h
    rcases ts with _ | ⟨t, _ | ⟨u, us⟩⟩
    · exact absurd (by simpa [typeNames] using hlength.symm) (Text.splitAt_ne_nil '|' s.toList)
    · cases h
      exact .inl (hall ty (by simp))
    · cases h
      exact .inr ⟨_, rfl, by simp, hall⟩

/-- Tags write nothing, one type, or a tuple of two or more for the returned values. -/
theorem writtenReturnType_cases {P : Ty → Prop} {span : Span} {tags : List Tag} {ty : Ty}
    (hP : ∀ s t, writtenType span s = .ok t → P t) (h : writtenReturnType span tags = .ok ty) :
    ty = .void ∨ P ty ∨ ∃ ts, ty = .tuple ts ∧ 2 ≤ ts.length ∧ ∀ t ∈ ts, P t := by
  unfold writtenReturnType at h
  cases hts : (Tag.returnTypes tags).mapM (writtenType span) with
  | error e => simp [hts, bind, Except.bind] at h
  | ok ts =>
    obtain ⟨hall, -⟩ := forall_mem_of_mapM hP hts
    simp only [hts, bind, Except.bind, pure, Except.pure] at h
    rcases ts with _ | ⟨t, _ | ⟨u, us⟩⟩
    · cases h
      exact .inl rfl
    · cases h
      exact .inr (.inl (hall ty (by simp)))
    · cases h
      exact .inr (.inr ⟨_, rfl, by simp, hall⟩)

theorem flat_writtenType (span : Span) (s : String) (ty : Ty)
    (h : writtenType span s = .ok ty) : ty.flat = true := by
  obtain hflat | ⟨ts, rfl, hlength, hflat⟩ := writtenType_cases (flat_basicType span) h
  · exact hflat
  · exact Ty.flat_union.2 ⟨List.ne_nil_of_length_pos (by omega), hflat⟩

theorem regular_writtenType (span : Span) (s : String) (ty : Ty)
    (h : writtenType span s = .ok ty) : ty.regular = true :=
  Ty.regular_of_flat (flat_writtenType span s ty h)

theorem regular_writtenReturnType {span : Span} {tags : List Tag} {ty : Ty}
    (h : writtenReturnType span tags = .ok ty) : ty.regular = true := by
  obtain rfl | hregular | ⟨ts, rfl, -, hregular⟩ :=
    writtenReturnType_cases (regular_writtenType span) h
  · rfl
  · exact hregular
  · exact Ty.regular_tuple.2 hregular

theorem regular_writtenLocalType {span : Span} {tags : List Tag} {names : List Source.Name}
    {ty : Option Ty} (h : writtenLocalType span tags names = .ok ty) :
    ∀ t ∈ ty, t.regular = true := by
  unfold writtenLocalType at h
  split at h
  next type _ =>
    cases htype : writtenType span type with
    | error e => simp [htype, Functor.map, Except.map] at h
    | ok t =>
      simp only [htype, Functor.map, Except.map, Except.ok.injEq] at h
      subst h
      simpa using regular_writtenType span type t htype
  next =>
    cases h
    rintro _ ⟨⟩

/-! ### Types of a built tree -/

section Lowered

variable {ctx : Context} {p : Provenance} {span : Span}

/-- Whether a type is regular, as a property that annotations may have. -/
abbrev IsRegular (ty : Ty) : Prop := ty.regular = true

theorem annotated_of_loweredLiteral {value : Source.Literal} {a : Target.Expr}
    (h : LoweredLiteral p span a value) : a.Annotated IsRegular := by
  cases value with
  | number | string | bool | nil =>
    obtain ⟨_, -, rfl⟩ := h
    trivial
  | vararg =>
    obtain ⟨_, ⟨_, -, rfl⟩, _, -, rfl⟩ := h
    trivial

theorem annotated_of_loweredUnary {op : Source.UnaryOp} {e a : Target.Expr}
    (he : e.Annotated IsRegular) (h : LoweredUnary p span e a op) : a.Annotated IsRegular := by
  cases op with
  | len | not | neg | bitNot =>
    obtain ⟨_, -, rfl⟩ := h
    exact he

theorem annotated_of_joinedValues {es : List Target.Expr} {o : Option Target.Expr}
    (hes : Target.exprsAnnotated IsRegular es) (h : JoinedValues p span o es) :
    ∀ e ∈ o, e.Annotated IsRegular := by
  rcases es with _ | ⟨e, _ | ⟨e', es⟩⟩
  · cases h
    rintro _ ⟨⟩
  · cases h
    rintro _ ⟨⟩
    exact hes.1
  · obtain ⟨_, ⟨_, -, rfl⟩, rfl⟩ := h
    rintro _ ⟨⟩
    exact hes

theorem annotated_of_joinedTargets {es : List Target.Expr} {a : Target.Expr}
    (hes : Target.exprsAnnotated IsRegular es) (h : JoinedTargets p span a es) :
    a.Annotated IsRegular := by
  rcases es with _ | ⟨e, _ | ⟨e', es⟩⟩
  · obtain ⟨_, -, rfl⟩ := h
    exact hes
  · cases h
    exact hes.1
  · obtain ⟨_, -, rfl⟩ := h
    exact hes

theorem annotated_of_assignedValue {o : Option Target.Expr} {a : Target.Expr}
    (ho : ∀ e ∈ o, e.Annotated IsRegular) (h : AssignedValue p span a o) :
    a.Annotated IsRegular := by
  cases o with
  | none =>
    obtain ⟨_, -, rfl⟩ := h
    trivial
  | some e =>
    cases h
    exact ho _ rfl

theorem annotated_of_loweredAssignment {target value : Target.Expr} {t : Target.Stmt}
    (h : LoweredAssignment p span target value t) (htarget : target.Annotated IsRegular)
    (hvalue : value.Annotated IsRegular) : t.Annotated IsRegular := by
  obtain ⟨_, ⟨_, -, rfl⟩, _, -, rfl⟩ := h
  exact ⟨htarget, hvalue⟩

theorem annotated_of_loweredLoop {var : Source.Name} {first last : Target.Expr}
    {amount : Option Target.Expr} {body : List Target.Stmt} {t : Target.Stmt}
    (hfirst : first.Annotated IsRegular) (hlast : last.Annotated IsRegular)
    (hamount : ∀ a ∈ amount, a.Annotated IsRegular)
    (hbody : Target.stmtsAnnotated IsRegular body)
    (h : LoweredLoop p span var first last amount body t) : t.Annotated IsRegular := by
  obtain ⟨_, _, _, update, ⟨_, -, rfl⟩, ⟨_, -, rfl⟩, ⟨_, -, rfl⟩, hupdate, _, -, rfl⟩ := h
  have hupdate : update.Annotated IsRegular := by
    cases amount with
    | none =>
      obtain ⟨_, -, rfl⟩ := hupdate
      trivial
    | some amount =>
      obtain ⟨_, -, rfl⟩ := hupdate
      exact ⟨trivial, hamount _ rfl⟩
  exact ⟨⟨by simp, hfirst⟩, ⟨trivial, hlast⟩, hupdate, hbody⟩

theorem regular_of_loweredParams {tags : List Tag} {xs : List Source.Param}
    {ys : List Target.Param} (h : List.Forall₂ (LoweredParam tags) xs ys) :
    ∀ y ∈ ys, ∀ ty ∈ y.ty, IsRegular ty := by
  induction h with
  | nil => simp
  | @cons x y xs ys hy _ ih =>
    refine List.forall_mem_cons.2 ⟨fun ty hty => ?_, ih⟩
    obtain ⟨type, -, htype⟩ := hy.ty ty hty
    exact regular_writtenType x.span type ty htype

mutual

theorem annotated_of_loweredExpr : ∀ (e : Source.Expr) {tags : List Tag} {a : Target.Expr},
    LoweredExpr ctx p tags e a → a.Annotated IsRegular
  | .ident _ _, _, _, h => by
    obtain ⟨_, -, rfl⟩ := h
    trivial
  | .literal _ _, _, _, h => annotated_of_loweredLiteral h
  | .member base _ _ _, _, _, h => by
    obtain ⟨object, hobject, _, -, rfl⟩ := h
    have hbase : object.Annotated IsRegular := annotated_of_loweredExpr base hobject
    exact hbase
  | .index base index _, _, _, h => by
    obtain ⟨_, _, hobject, hindex, _, -, rfl⟩ := h
    exact ⟨annotated_of_loweredExpr base hobject, annotated_of_loweredExpr index hindex⟩
  | .unary _ operand _, _, _, h => by
    obtain ⟨_, he, h⟩ := h
    exact annotated_of_loweredUnary (annotated_of_loweredExpr operand he) h
  | .binary lhs _ rhs _, _, _, h => by
    obtain ⟨_, _, _, -, hlhs, hrhs, _, -, rfl⟩ := h
    exact ⟨annotated_of_loweredExpr lhs hlhs, annotated_of_loweredExpr rhs hrhs⟩
  | .logical lhs _ rhs _, _, _, h => by
    obtain ⟨_, _, hlhs, hrhs, _, -, rfl⟩ := h
    exact ⟨annotated_of_loweredExpr lhs hlhs, annotated_of_loweredExpr rhs hrhs⟩
  | .table fields _, _, _, h => by
    rcases h with ⟨_, hes, _, -, rfl⟩ | ⟨_, hps, _, -, rfl⟩
    · exact annotated_of_loweredElements fields hes
    · exact annotated_of_loweredProperties fields hps
  | .call base args _, _, _, h => by
    obtain ⟨_, _, hcallee, hargs, _, -, rfl⟩ := h
    exact ⟨annotated_of_loweredExpr base hcallee, annotated_of_loweredExprs args hargs⟩
  | .stringCall base argument _, _, _, h | .tableCall base argument _, _, _, h => by
    obtain ⟨_, _, hcallee, harg, _, -, rfl⟩ := h
    exact ⟨annotated_of_loweredExpr base hcallee, annotated_of_loweredExpr argument harg, trivial⟩
  | .function func _, _, _, h => by
    obtain ⟨_, _, hty, hf, _, -, rfl⟩ := h
    exact annotated_of_loweredFunction func (fun t ht => regular_writtenReturnType (hty t ht)) hf

theorem annotated_of_loweredExprs : ∀ (es : List Source.Expr) {tags : List Tag}
    {as : List Target.Expr}, LoweredExprs ctx p tags es as → Target.exprsAnnotated IsRegular as
  | [], _, _, h => by
    cases h
    trivial
  | e :: es, _, _, h => by
    obtain ⟨_, _, hb, hbs, rfl⟩ := h
    exact ⟨annotated_of_loweredExpr e hb, annotated_of_loweredExprs es hbs⟩

theorem annotated_of_loweredElements : ∀ (fs : List Source.Field) {tags : List Tag}
    {as : List Target.Expr}, LoweredElements ctx p tags fs as → Target.exprsAnnotated IsRegular as
  | [], _, _, h => by
    cases h
    trivial
  | .positional value _ :: fs, _, _, h => by
    obtain ⟨_, _, hb, hbs, rfl⟩ := h
    exact ⟨annotated_of_loweredExpr value hb, annotated_of_loweredElements fs hbs⟩

theorem annotated_of_loweredProperties : ∀ (fs : List Source.Field) {tags : List Tag}
    {ps : List Target.Property}, LoweredProperties ctx p tags fs ps →
    Target.propertiesAnnotated IsRegular ps
  | [], _, _, h => by
    cases h
    trivial
  | .named _ value _ :: fs, _, _, h => by
    obtain ⟨_, _, hv, hqs, rfl⟩ := h
    exact ⟨annotated_of_loweredExpr value hv, annotated_of_loweredProperties fs hqs⟩
  | .keyed key value _ :: fs, _, _, h => by
    obtain ⟨_, _, _, hk, hv, hqs, rfl⟩ := h
    exact ⟨annotated_of_loweredExpr key hk, annotated_of_loweredExpr value hv,
      annotated_of_loweredProperties fs hqs⟩

theorem annotated_of_loweredFunction : ∀ (func : Source.Function) {tags : List Tag}
    {method : Bool} {ty : Option Ty} {f : Target.Function}, (∀ t ∈ ty, IsRegular t) →
    LoweredFunction ctx p tags method ty func f → f.Annotated IsRegular
  | .mk _ body, _, method, _, _, hty, h => by
    obtain ⟨ps, _, hps, hout, rfl⟩ := h
    have hparams := regular_of_loweredParams hps
    refine ⟨?_, hty, annotated_of_loweredBlock body hout⟩
    cases method with
    | false => exact hparams
    | true => exact List.forall_mem_cons.2 ⟨by simp [selfParam], hparams⟩

theorem annotated_of_loweredStmt : ∀ (s : Source.Stmt) {top : Bool} {tags : List Tag}
    {t : Target.Stmt}, LoweredStmt ctx p top tags s t → t.Annotated IsRegular
  | .localDecl _ init _, _, _, _, h => by
    obtain ⟨_, _, _, hty, hes, hvalue, _, -, rfl⟩ := h
    exact Target.annotated_varDecl.2 ⟨regular_writtenLocalType hty,
      annotated_of_joinedValues (annotated_of_loweredExprs init hes) hvalue⟩
  | .assign targets init _, _, _, _, h => by
    obtain ⟨_, _, _, _, _, hlhs, htarget, hes, hvalue, hv, h⟩ := h
    have hvalues := annotated_of_joinedValues (annotated_of_loweredExprs init hes) hvalue
    exact annotated_of_loweredAssignment h
      (annotated_of_joinedTargets (annotated_of_loweredExprs targets hlhs) htarget)
      (annotated_of_assignedValue hvalues hv)
  | .call call _, _, _, _, h => by
    obtain ⟨_, he, _, -, rfl⟩ := h
    exact annotated_of_loweredExpr call he
  | .functionDecl (.ident _ _) _ func _, _, _, _, h => by
    obtain ⟨ty, _, hty, hf, _, -, rfl⟩ := h
    exact annotated_of_loweredFunction func (by simpa using regular_writtenReturnType hty) hf
  | .functionDecl (.member base _ _ _) _ func _, _, _, _, h => by
    obtain ⟨ty, object, _, _, _, hty, hobject, ⟨_, -, rfl⟩, hf, ⟨_, -, rfl⟩, h⟩ := h
    have hbase : object.Annotated IsRegular := annotated_of_loweredExpr base hobject
    exact annotated_of_loweredAssignment h hbase
      (annotated_of_loweredFunction func (by simpa using regular_writtenReturnType hty) hf)
  | .returnStmt values _, _, _, _, h => by
    obtain ⟨_, _, hes, hvalue, h⟩ := h
    have hvalues := annotated_of_joinedValues (annotated_of_loweredExprs values hes) hvalue
    rcases h with ⟨v, -, rfl, _, -, rfl⟩ | ⟨-, _, -, rfl⟩
    · exact hvalues v rfl
    · exact Target.annotated_returnStmt.2 hvalues
  | .ifStmt cond thenBlock clauses elseBlock _, _, _, _, h => by
    obtain ⟨_, _, _, _, hc, hbody, hlast, hbranch, _, -, rfl⟩ := h
    exact ⟨annotated_of_loweredExpr cond hc, annotated_of_loweredBlock thenBlock hbody,
      annotated_of_loweredClauses clauses (annotated_of_loweredElse elseBlock hlast) hbranch⟩
  | .whileLoop cond block _, _, _, _, h => by
    obtain ⟨_, _, hc, hbody, _, -, rfl⟩ := h
    exact ⟨annotated_of_loweredExpr cond hc, annotated_of_loweredBlock block hbody⟩
  | .forNumeric _ start stop step block _, _, _, _, h => by
    obtain ⟨_, _, _, _, hfirst, hlast, hamount, hbody, h⟩ := h
    exact annotated_of_loweredLoop (annotated_of_loweredExpr start hfirst)
      (annotated_of_loweredExpr stop hlast) (annotated_of_loweredStep step hamount)
      (annotated_of_loweredBlock block hbody) h
  | .forGeneric _ iterators block _, _, _, _, h => by
    obtain ⟨_, _, hiterable, hbody, _, -, rfl⟩ := h
    exact ⟨annotated_of_loweredIterable iterators hiterable, annotated_of_loweredBlock block hbody⟩
  | .breakStmt _, _, _, _, h => by
    obtain ⟨_, -, rfl⟩ := h
    trivial

theorem annotated_of_loweredElse : ∀ (o : Option Source.Block) {last : Target.Else},
    LoweredElse ctx p o last → last.Annotated IsRegular
  | none, _, h => by
    cases h
    trivial
  | some block, _, h => by
    obtain ⟨_, hout, rfl⟩ := h
    exact annotated_of_loweredBlock block hout

theorem annotated_of_loweredStep : ∀ (o : Option Source.Expr) {tags : List Tag}
    {amount : Option Target.Expr}, LoweredStep ctx p tags o amount →
    ∀ a ∈ amount, a.Annotated IsRegular
  | none, _, _, h => by
    cases h
    rintro _ ⟨⟩
  | some step, _, _, h => by
    obtain ⟨_, ha, rfl⟩ := h
    rintro _ ⟨⟩
    exact annotated_of_loweredExpr step ha

theorem annotated_of_loweredIterable : ∀ (es : List Source.Expr) {tags : List Tag} {span : Span}
    {a : Target.Expr}, LoweredIterable ctx p tags span es a → a.Annotated IsRegular
  | [], _, _, _, h => by
    obtain ⟨_, -, rfl⟩ := h
    trivial
  | [e], _, _, _, h => annotated_of_loweredExpr e h

theorem annotated_of_loweredClauses : ∀ (cs : List Source.Clause) {tags : List Tag}
    {last branch : Target.Else}, last.Annotated IsRegular →
    LoweredClauses ctx p tags last cs branch → branch.Annotated IsRegular
  | [], _, _, _, hlast, h => by
    cases h
    exact hlast
  | .mk cond block :: cs, _, _, _, hlast, h => by
    obtain ⟨_, _, _, _, hc, hbody, hrest, ⟨_, -, rfl⟩, rfl⟩ := h
    exact ⟨annotated_of_loweredExpr cond hc, annotated_of_loweredBlock block hbody,
      annotated_of_loweredClauses cs hlast hrest⟩

theorem annotated_of_loweredStmts : ∀ (ss : List Source.Stmt) {top : Bool}
    {keep : Source.Stmt → Bool} {floor : Nat} {ts : List Target.Stmt},
    LoweredStmts ctx p top keep floor ss ts → Target.stmtsAnnotated IsRegular ts
  | [], _, _, _, _, h => by
    cases h
    trivial
  | s :: ss, _, _, _, _, h => by
    rw [LoweredStmts] at h
    split at h
    · obtain ⟨_, _, hu, hus, rfl⟩ := h
      exact ⟨annotated_of_loweredStmt s hu, annotated_of_loweredStmts ss hus⟩
    · exact annotated_of_loweredStmts ss h

theorem annotated_of_loweredExport : ∀ (s : Source.Stmt) {tags : List Tag} {t : Target.Stmt},
    s.isMemberDecl = true → LoweredExport ctx p tags s t → t.Annotated IsRegular
  | .functionDecl (.member _ _ _ _) _ func _, _, _, _, h => by
    obtain ⟨ty, _, hty, hf, _, -, rfl⟩ := h
    exact annotated_of_loweredFunction func (by simpa using regular_writtenReturnType hty) hf

theorem annotated_of_loweredExports : ∀ (ss : List Source.Stmt) {floor : Nat}
    {ts : List Target.Stmt}, LoweredExports ctx p floor ss ts → Target.stmtsAnnotated IsRegular ts
  | [], _, _, h => by
    cases h
    trivial
  | s :: ss, _, _, h => by
    rw [LoweredExports] at h
    split at h
    next hmember =>
      obtain ⟨_, _, hu, hus, rfl⟩ := h
      exact ⟨annotated_of_loweredExport s hmember hu, annotated_of_loweredExports ss hus⟩
    next => exact annotated_of_loweredExports ss h

theorem annotated_of_loweredMethod : ∀ (s : Source.Stmt) {tags : List Tag} {m : Target.Method},
    s.isMemberDecl = true → LoweredMethod ctx p tags s m → m.Annotated IsRegular
  | .functionDecl (.member _ _ _ _) _ func _, _, _, _, h => by
    obtain ⟨ty, _, hty, hf, _, -, rfl⟩ := h
    exact annotated_of_loweredFunction func (by simpa using regular_writtenReturnType hty) hf

theorem annotated_of_loweredMethods : ∀ (ss : List Source.Stmt) {floor : Nat}
    {ms : List Target.Method}, LoweredMethods ctx p floor ss ms →
    Target.methodsAnnotated IsRegular ms
  | [], _, _, h => by
    cases h
    trivial
  | s :: ss, _, _, h => by
    rw [LoweredMethods] at h
    split at h
    next hmember =>
      obtain ⟨_, _, hm, hns, rfl⟩ := h
      exact ⟨annotated_of_loweredMethod s hmember hm, annotated_of_loweredMethods ss hns⟩
    next => exact annotated_of_loweredMethods ss h

theorem annotated_of_loweredBlock : ∀ (b : Source.Block) {top : Bool} {out : List Target.Stmt},
    LoweredBlock ctx p top b out → Target.stmtsAnnotated IsRegular out
  | .mk _ [], _, _, h => by
    cases (loweredBlock_plain rfl).1 h
    trivial
  | .mk start (first :: rest), top, _, h => by
    rcases shapeOf_cons_cases ctx top start first rest with
      ⟨hshape, -⟩ | ⟨hshape, -⟩ | ⟨_, _, _, _, -, hshape, -⟩
    · exact annotated_of_loweredStmts (first :: rest) ((loweredBlock_plain hshape).1 h)
    · obtain ⟨_, _, hexports, hothers, rfl⟩ := (loweredBlock_module hshape).1 h
      exact Target.stmtsAnnotated_append.2 ⟨annotated_of_loweredExports rest hexports,
        annotated_of_loweredStmts rest hothers⟩
    · obtain ⟨_, _, _, hmethods, ⟨_, -, rfl⟩, hothers, rfl⟩ := (loweredBlock_class hshape).1 h
      exact ⟨annotated_of_loweredMethods rest hmethods, annotated_of_loweredStmts rest hothers⟩

end

end Lowered

end Lowering

/-! ### Inferred types -/

namespace Scopes

/-- All types of declared names are regular. -/
def Regular (ss : Scopes) : Prop := ∀ s ∈ ss, ∀ d ∈ s, ∀ ty ∈ d.2, ty.regular = true

theorem Regular.lookup? {ss : Scopes} (h : ss.Regular) {name : String} {ty : Ty}
    (hname : ss.lookup? name = some (some ty)) : ty.regular = true := by
  obtain ⟨s, hs, hlookup⟩ := List.exists_of_findSome?_eq_some hname
  obtain ⟨l, r, rfl, -⟩ := List.lookup_eq_some_iff.1 hlookup
  exact h _ hs (name, some ty) (by simp) ty rfl

theorem Regular.declare {ss : Scopes} (h : ss.Regular) (name : String) {ty : Option Ty}
    (hty : ∀ t ∈ ty, t.regular = true) : (ss.declare name ty).Regular := by
  cases ss with
  | nil => exact h
  | cons s ss =>
    obtain ⟨hs, hss⟩ := List.forall_mem_cons.1 h
    exact List.forall_mem_cons.2 ⟨List.forall_mem_cons.2 ⟨hty, hs⟩, hss⟩

theorem pop_subset (ss : Scopes) : ss.pop ⊆ ss := by
  rcases ss with _ | ⟨s, _ | ⟨s', ss⟩⟩
  · exact List.Subset.refl _
  · exact List.Subset.refl _
  · exact List.subset_cons_self _ _

end Scopes

namespace Target

mutual

/-- What is inferred from regular types is regular. -/
theorem regular_of_infer? {scopes : Scopes} (hscopes : scopes.Regular) :
    ∀ (e : Expr) {ty : Ty}, infer? scopes e = some ty → ty.regular = true
  | .number .., _, h | .string .., _, h | .bool .., _, h | .unary _ .not _, _, h
  | .unary _ .neg _, _, h | .unary _ .bitNot _, _, h | .increment .., _, h => by
    cases h
    rfl
  | .ident _ name, ty, h => by
    rw [infer?, identType?] at h
    split at h
    next declared hname => exact hscopes.lookup? (h ▸ hname)
    next =>
      split at h <;> cases h
      rfl
  | .binary _ lhs op rhs, ty, h => by
    cases op with
    | add =>
      simp only [infer?] at h
      split at h
      next a b _ _ =>
        unfold sumType? at h
        split at h <;> cases h <;> rfl
      next => cases h
    | sub | mul | div | mod | pow | strictEq | strictNotEq | less | lessEq | greater | greaterEq =>
      cases h
      rfl
    | and | or => cases h
  | .assign _ _ _ value, ty, h => regular_of_infer? hscopes value h
  | .array _ elements, ty, h => by
    rw [infer?] at h
    obtain ⟨ts, hts, rfl⟩ := Option.map_eq_some_iff.1 h
    exact Ty.regular_tuple.2 (regular_of_inferAll? hscopes elements hts)
  | .member .., _, h | .element .., _, h | .spread .., _, h | .object .., _, h | .call .., _, h
  | .function .., _, h => by cases h

theorem regular_of_inferAll? {scopes : Scopes} (hscopes : scopes.Regular) :
    ∀ (es : List Expr) {ts : List Ty}, inferAll? scopes es = some ts → ∀ t ∈ ts, t.regular = true
  | [], ts, h => by
    cases h
    simp
  | e :: es, ts, h => by
    rw [inferAll?] at h
    split at h
    next t ts' ht hts =>
      cases h
      exact List.forall_mem_cons.2
        ⟨regular_of_infer? hscopes e ht, regular_of_inferAll? hscopes es hts⟩
    next => cases h

end

end Target

/-! ### The types that a checker keeps -/

namespace Checker

open Target
open Lowering (IsRegular)

/-- All types of declared names and of the functions around are regular, and every finding is about
two regular types of which one does not fit the other. -/
structure Regular (c : Checker) : Prop where
  scopes : c.scopes.Regular
  returns : ∀ r ∈ c.returns, ∀ ty ∈ r, ty.regular = true
  mismatches : ∀ m ∈ c.mismatches,
    m.found.regular = true ∧ m.expected.regular = true ∧ m.found.isAssignable m.expected = false

namespace Regular

variable {c : Checker}

theorem initial (p : Provenance) : (initial p).Regular :=
  ⟨by simp [Checker.initial, Scopes.Regular], by simp [Checker.initial],
    by simp [Checker.initial]⟩

theorem push (h : c.Regular) : c.push.Regular :=
  { h with scopes := List.forall_mem_cons.2 ⟨by simp, h.scopes⟩ }

theorem pop (h : c.Regular) : c.pop.Regular :=
  { h with scopes := fun s hs => h.scopes s (c.scopes.pop_subset hs) }

theorem declare (h : c.Regular) (name : String) {ty : Option Ty} (hty : ∀ t ∈ ty, IsRegular t) :
    (c.declare name ty).Regular :=
  { h with scopes := h.scopes.declare name hty }

theorem declareAll (h : c.Regular) (names : List String) : (declareAll names c).Regular := by
  induction names generalizing c with
  | nil => exact h
  | cons name names ih => exact ih (h.declare name (by simp))

theorem declareBinding (h : c.Regular) {ty : Option Ty} (hty : ∀ t ∈ ty, IsRegular t)
    (binding : Binding) : (c.declareBinding ty binding).Regular := by
  cases binding with
  | ident name => exact h.declare name hty
  | array names => exact h.declareAll names

theorem declareParams (h : c.Regular) {params : List Param}
    (hparams : ∀ p ∈ params, ∀ ty ∈ p.ty, IsRegular ty) : (declareParams params c).Regular := by
  induction params generalizing c with
  | nil => exact h
  | cons p ps ih =>
    obtain ⟨hp, hps⟩ := List.forall_mem_cons.1 hparams
    refine ih (h.declare p.name ?_) hps
    split
    · simp
    · exact hp

theorem enter (h : c.Regular) {params : List Param} {returnType : Option Ty}
    (hparams : ∀ p ∈ params, ∀ ty ∈ p.ty, IsRegular ty) (hreturn : ∀ t ∈ returnType, IsRegular t) :
    (c.enter params returnType).Regular := by
  have hdeclared := h.push.declareParams hparams
  exact { hdeclared with returns := List.forall_mem_cons.2 ⟨hreturn, hdeclared.returns⟩ }

theorem leave (h : c.Regular) : c.leave.Regular :=
  { h.pop with returns := fun r hr => h.returns r (List.mem_of_mem_tail hr) }

theorem expect (h : c.Regular) (e : Expr) {expected : Ty} (hexpected : IsRegular expected)
    (span : Span) : (c.expect e expected span).Regular := by
  rw [Checker.expect]
  split
  · exact h
  next found hfound =>
    split
    · exact h
    next hmisfit =>
      refine { h with mismatches := List.forall_mem_append.2 ⟨h.mismatches, ?_⟩ }
      simpa using ⟨regular_of_infer? h.scopes e hfound, hexpected, Bool.eq_false_iff.2 hmisfit⟩

theorem expectDeclared (h : c.Regular) (e : Expr) {expected : Option Ty}
    (hexpected : ∀ t ∈ expected, IsRegular t) (span : Span) :
    (c.expectDeclared e expected span).Regular := by
  cases expected with
  | none => exact h
  | some ty => exact h.expect e (hexpected ty rfl) span

end Regular

mutual

theorem regular_expr : ∀ (e : Expr), e.Annotated IsRegular → ∀ {c : Checker}, c.Regular →
    (expr e c).Regular
  | .ident .., _, _, hc | .number .., _, _, hc | .string .., _, _, hc | .bool .., _, _, hc => hc
  | .member _ object _, he, _, hc => regular_expr object he hc
  | .element _ object index, he, _, hc =>
    regular_expr index he.2 (regular_expr object he.1 hc)
  | .binary _ lhs _ rhs, he, _, hc => regular_expr rhs he.2 (regular_expr lhs he.1 hc)
  | .unary _ _ operand, he, _, hc | .increment _ operand, he, _, hc => regular_expr operand he hc
  | .assign id target op value, he, c, hc => by
    have hvalue := regular_expr value he.2 hc
    by_cases hname : ∃ i name, target = .ident i name ∧ op = .assign
    · obtain ⟨i, name, rfl, rfl⟩ := hname
      refine hvalue.expectDeclared value (fun t ht => ?_) _
      exact hvalue.scopes.lookup? (Option.join_eq_some_iff.1 ht)
    · rw [expr_assign hname]
      exact regular_expr target he.1 hvalue
  | .spread _ value, he, _, hc => regular_expr value he hc
  | .array _ elements, he, _, hc => regular_exprs elements he hc
  | .object _ properties, he, _, hc => regular_properties properties he hc
  | .call _ callee args, he, _, hc => regular_exprs args he.2 (regular_expr callee he.1 hc)
  | .function _ func, he, _, hc => regular_function func he hc

theorem regular_exprs : ∀ (es : List Expr), exprsAnnotated IsRegular es → ∀ {c : Checker},
    c.Regular → (exprs es c).Regular
  | [], _, _, hc => hc
  | e :: es, hes, _, hc => regular_exprs es hes.2 (regular_expr e hes.1 hc)

theorem regular_properties : ∀ (ps : List Property), propertiesAnnotated IsRegular ps →
    ∀ {c : Checker}, c.Regular → (propertyValues ps c).Regular
  | [], _, _, hc => hc
  | .named _ value :: ps, hps, _, hc => regular_properties ps hps.2 (regular_expr value hps.1 hc)
  | .computed _ value :: ps, hps, _, hc =>
    regular_properties ps hps.2.2 (regular_expr value hps.2.1 hc)

theorem regular_function : ∀ (func : Function), func.Annotated IsRegular → ∀ {c : Checker},
    c.Regular → (function func c).Regular
  | .mk _ _ body, hfunc, _, hc =>
    (regular_block body hfunc.2.2 (hc.enter hfunc.1 hfunc.2.1)).leave

theorem regular_varDecl (span : Span) : ∀ (decl : VarDecl), decl.Annotated IsRegular →
    ∀ {c : Checker}, c.Regular → (varDecl span decl c).Regular
  | .mk _ binding _ none, hdecl, _, hc => hc.declareBinding hdecl binding
  | .mk _ binding _ (some e), hdecl, _, hc =>
    ((regular_expr e hdecl.2 hc).expectDeclared e hdecl.1 span).declareBinding hdecl.1 binding

theorem regular_methods : ∀ (ms : List Method), methodsAnnotated IsRegular ms → ∀ {c : Checker},
    c.Regular → (methods ms c).Regular
  | [], _, _, hc => hc
  | .mk _ _ _ func :: ms, hms, _, hc => regular_methods ms hms.2 (regular_function func hms.1 hc)

theorem regular_else : ∀ (branch : Else), branch.Annotated IsRegular → ∀ {c : Checker},
    c.Regular → (elseBranch branch c).Regular
  | .none, _, _, hc => hc
  | .elseIf s, hbranch, _, hc => regular_stmt s hbranch hc
  | .block body, hbranch, _, hc => (regular_block body hbranch hc.push).pop

theorem regular_stmt : ∀ (s : Stmt), s.Annotated IsRegular → ∀ {c : Checker}, c.Regular →
    (stmt s c).Regular
  | .var _ decl, hs, _, hc => regular_varDecl _ decl hs hc
  | .functionDecl _ name _ func, hs, _, hc => regular_function func hs (hc.declare name (by simp))
  | .classDecl _ name ms, hs, _, hc => regular_methods ms hs (hc.declare name (by simp))
  | .expr _ e, hs, _, hc | .exportAssign _ e, hs, _, hc => regular_expr e hs hc
  | .returnStmt _ none, _, _, hc | .breakStmt _, _, _, hc => hc
  | .returnStmt _ (some e), hs, c, hc => by
    have he := regular_expr e hs hc
    refine he.expectDeclared e (fun t ht => ?_) _
    exact he.returns _ (List.mem_of_mem_head? (Option.join_eq_some_iff.1 ht)) t rfl
  | .ifStmt _ cond thenBlock branch, hs, _, hc =>
    regular_else branch hs.2.2 (regular_block thenBlock hs.2.1 (regular_expr cond hs.1 hc).push).pop
  | .forLoop id init test update body, hs, c, hc => by
    have hinit := regular_varDecl (c.push.provenance.get id) init hs.1 hc.push
    have hupdate := regular_expr update hs.2.2.1 (regular_expr test hs.2.1 hinit)
    exact (regular_block body hs.2.2.2 hupdate.push).pop.pop
  | .forOf _ binding iterable body, hs, _, hc => by
    have hnone : ∀ t ∈ (none : Option Ty), IsRegular t := by simp
    have hbinding := (regular_expr iterable hs.1 hc).push.declareBinding hnone binding
    exact (regular_block body hs.2 hbinding.push).pop.pop
  | .whileLoop _ cond body, hs, _, hc =>
    (regular_block body hs.2 (regular_expr cond hs.1 hc).push).pop

theorem regular_block : ∀ (ss : List Stmt), stmtsAnnotated IsRegular ss → ∀ {c : Checker},
    c.Regular → (block ss c).Regular
  | [], _, _, hc => hc
  | s :: ss, hss, _, hc => regular_block ss hss.2 (regular_stmt s hss.1 hc)

end

end Checker

/-! ### Assignability and inclusion -/

/-- **Assignability is inclusion of sets of values.** What fits is included, and between regular
types what is included fits. All types of a built program are regular, so are all types inferred
from regular ones, and each finding in the program is about a type with a value that the expected
type does not have. -/
theorem isAssignable_iff_subset {V : Type u} (s : Sorts V) :
    (∀ found expected : Ty, found.isAssignable expected = true →
      s.values found ⊆ s.values expected) ∧
    (∀ found expected : Ty, found.regular = true → expected.regular = true →
      s.values found ⊆ s.values expected → found.isAssignable expected = true) ∧
    (∀ (module classmod : Bool) (chunk : Source.Chunk) (st st' : Lowering.State)
      (out : List Target.Stmt), Lowering.lowerChunk module classmod chunk st = .ok out st' →
      Target.stmtsAnnotated (fun ty => ty.regular = true) out ∧
        ∀ m ∈ check out st'.provenance, m.found.regular = true ∧ m.expected.regular = true ∧
          ∃ v ∈ s.values m.found, v ∉ s.values m.expected) ∧
    ∀ (scopes : Scopes) (e : Target.Expr) (ty : Ty), scopes.Regular →
      Target.infer? scopes e = some ty → ty.regular = true := by
  refine ⟨fun _ _ => Sorts.values_subset, fun _ _ => Sorts.isAssignable_of_subset, ?_,
    fun _ e _ hscopes => Target.regular_of_infer? hscopes e⟩
  intro module classmod chunk st st' out hrun
  have hlowered : Lowering.lowerBlock ⟨module, classmod, chunk.comments⟩ true chunk.body .initial =
      .ok out st' := hrun
  have hbuilt : Lowering.LoweredBlock ⟨module, classmod, chunk.comments⟩ st'.provenance true
      chunk.body out :=
    (Lowering.lowered_lowerBlock chunk.body _ out st' hlowered).2 fun _ _ _ => rfl
  have hannotated := Lowering.annotated_of_loweredBlock chunk.body hbuilt
  refine ⟨hannotated, fun m hm => ?_⟩
  have hchecked := Checker.regular_block out hannotated (.initial st'.provenance)
  obtain ⟨hfound, hexpected, hmisfit⟩ := hchecked.mismatches m hm
  refine ⟨hfound, hexpected, Set.not_subset.1 fun hsubset => ?_⟩
  exact Bool.eq_false_iff.1 hmisfit (Sorts.isAssignable_of_subset hfound hexpected hsubset)

/-- A number or nothing and a string are to be returned, and they are returned the other way. -/
def swappedPair : String :=
  "-- @treturn number|nil\n-- @treturn string\nlocal function f()\n  return 'a', nil\nend"

/-- The returned pair is of the type that is inferred for it, which has pairs that the declared type
does not have. A pair with something undefined in it fits where nothing may be returned in its
place. -/
theorem isAssignable_iff_subset_swappedPair :
    (∃ chunk out st', Source.parse swappedPair = .ok chunk ∧
      Lowering.lowerChunk false false chunk .initial = .ok out st' ∧
      Target.stmtsAnnotated (fun ty => ty.regular = true) out ∧
      ∃ m ∈ check out st'.provenance, m.found = .tuple [.string, .undefined] ∧
        m.expected = .tuple [.union [.number, .undefined], .string] ∧
        ∃ v ∈ Value.sorts.values m.found, v ∉ Value.sorts.values m.expected) ∧
    (Value.sorts.values (.tuple [.undefined, .string]) ⊆
        Value.sorts.values (.tuple [.void, .string]) ∧
      (Ty.tuple [.undefined, .string]).isAssignable (.tuple [.void, .string]) = true) ∧
    Target.infer? [[("x", some .void)]] (.array 0 [.ident 1 "x", .string 2 "a"]) =
      some (.tuple [.void, .string]) ∧ (Ty.tuple [.void, .string]).regular = true := by
  obtain ⟨hsound, hcomplete, hprogram, hinferred⟩ := isAssignable_iff_subset Value.sorts
  refine ⟨?_, ?_, ?_⟩
  · have hview : Lowering.inspect? false false (fun out st => (check out st.provenance).map
        fun m => (m.found, m.expected)) swappedPair = some
          [(.tuple [.string, .undefined], .tuple [.union [.number, .undefined], .string])] := by
      decide +kernel
    obtain ⟨chunk, out, st', hparse, hrun, hview⟩ := Lowering.exists_of_inspect? hview
    obtain ⟨hannotated, hfindings⟩ := hprogram false false chunk _ st' out hrun
    obtain ⟨m, hm, htypes⟩ : ∃ m ∈ check out st'.provenance, (m.found, m.expected) =
        (Ty.tuple [.string, .undefined], Ty.tuple [.union [.number, .undefined], .string]) :=
      List.mem_map.1 (by simp [hview])
    obtain ⟨hfound, hexpected⟩ := Prod.mk.inj htypes
    exact ⟨chunk, out, st', hparse, hrun, hannotated, m, hm, hfound, hexpected,
      (hfindings m hm).2.2⟩
  · have hsubset : Value.sorts.values (.tuple [.undefined, .string]) ⊆
        Value.sorts.values (.tuple [.void, .string]) :=
      hsound _ _ (by simp [Ty.isAssignable, Ty.pairsAssignable])
    exact ⟨hsubset, hcomplete _ _ rfl rfl hsubset⟩
  · have hinfer : Target.infer? [[("x", some .void)]] (.array 0 [.ident 1 "x", .string 2 "a"]) =
        some (.tuple [.void, .string]) := rfl
    exact ⟨hinfer, hinferred _ _ _ (by simp [Scopes.Regular, Ty.regular]) hinfer⟩

end LuaTranspiler
