import LuaTranspiler.Proofs.Lowering.Lowered
import LuaTranspiler.Proofs.Lowering.Support
import LuaTranspiler.Proofs.Source.Leaves
import LuaTranspiler.Proofs.Target.Boundaries
import LuaTranspiler.Proofs.Target.LineMap

/-!
# Tokens of translated expressions

What is built for a tree of legible names and numbers is sound, so its text is split into the tokens
that were printed, unless a member of a numeral without a point is taken somewhere in it.

* `sound_of_loweredExpr`, `sound_of_loweredBlock`: names and numbers are taken over as they are
* `tokensOf_lowered_iff`: when the text of an expression is split as printed
* `tokensOf_length_of_five`: the length of a number is not
-/

namespace LuaTranspiler.Lowering

open Source (Block Legible)
open Target.Expr (Sound)

variable {ctx : Context} {p : Provenance} {span : Span}

/-! ### Parts -/

theorem isName_identName {name : String} (h : IsName name) : IsName (identName name) := by
  unfold identName
  split
  · decide
  · exact h

theorem isName_undefined : IsName "undefined" := by decide

theorem isName_vararg : IsName "vararg" := by decide

theorem sound_of_loweredLiteral {value : Source.Literal} {a : Target.Expr}
    (hvalue : (Source.Lexeme.literal value).Legible) (h : LoweredLiteral p span a value) :
    a.Everywhere Sound IsName := by
  cases value with
  | number n =>
    obtain ⟨_, -, rfl⟩ := h
    exact hvalue
  | string | bool =>
    obtain ⟨_, -, rfl⟩ := h
    trivial
  | nil =>
    obtain ⟨_, -, rfl⟩ := h
    exact isName_undefined
  | vararg =>
    obtain ⟨_, ⟨id, -, rfl⟩, _, -, rfl⟩ := h
    exact ⟨⟨id, _, rfl⟩, isName_vararg⟩

theorem sound_of_loweredUnary {op : Source.UnaryOp} {e a : Target.Expr}
    (he : e.Everywhere Sound IsName) (h : LoweredUnary p span e a op) :
    a.Everywhere Sound IsName := by
  cases op with
  | len =>
    obtain ⟨_, -, rfl⟩ := h
    have hlength : IsName "length" := by decide
    exact ⟨hlength, he⟩
  | not | neg | bitNot =>
    obtain ⟨_, -, rfl⟩ := h
    exact ⟨trivial, he⟩

theorem sound_of_joinedValues {o : Option Target.Expr} {es : List Target.Expr}
    (hes : Target.exprsEverywhere Sound IsName es) (h : JoinedValues p span o es) :
    ∀ a ∈ o, a.Everywhere Sound IsName := by
  rcases es with _ | ⟨e, _ | ⟨e', es⟩⟩
  · cases h
    rintro _ ⟨⟩
  · cases h
    rintro _ ⟨⟩
    exact hes.1
  · obtain ⟨_, ⟨_, -, rfl⟩, rfl⟩ := h
    rintro _ ⟨⟩
    exact ⟨trivial, hes⟩

theorem sound_of_joinedTargets {a : Target.Expr} {es : List Target.Expr}
    (hes : Target.exprsEverywhere Sound IsName es) (h : JoinedTargets p span a es) :
    a.Everywhere Sound IsName := by
  rcases es with _ | ⟨e, _ | ⟨e', es⟩⟩
  · obtain ⟨_, -, rfl⟩ := h
    exact ⟨trivial, hes⟩
  · cases h
    exact hes.1
  · obtain ⟨_, -, rfl⟩ := h
    exact ⟨trivial, hes⟩

theorem sound_of_assignedValue {a : Target.Expr} {o : Option Target.Expr}
    (ho : ∀ a ∈ o, a.Everywhere Sound IsName) (h : AssignedValue p span a o) :
    a.Everywhere Sound IsName := by
  cases o with
  | none =>
    obtain ⟨_, -, rfl⟩ := h
    exact isName_undefined
  | some e =>
    cases h
    exact ho _ rfl

theorem sound_of_loweredAssignment {target value : Target.Expr} {t : Target.Stmt}
    (h : LoweredAssignment p span target value t) (htarget : target.Everywhere Sound IsName)
    (hvalue : value.Everywhere Sound IsName) : t.Everywhere Sound IsName := by
  obtain ⟨_, ⟨_, -, rfl⟩, _, -, rfl⟩ := h
  exact ⟨trivial, htarget, hvalue⟩

theorem sound_of_loweredLoop {var : Source.Name} {first last : Target.Expr}
    {amount : Option Target.Expr} {body : List Target.Stmt} {t : Target.Stmt}
    (hvar : IsName var.text) (hfirst : first.Everywhere Sound IsName)
    (hlast : last.Everywhere Sound IsName) (hamount : ∀ a ∈ amount, a.Everywhere Sound IsName)
    (hbody : Target.stmtsEverywhere Sound IsName body)
    (h : LoweredLoop p span var first last amount body t) : t.Everywhere Sound IsName := by
  obtain ⟨_, _, _, _, ⟨_, -, rfl⟩, ⟨_, -, rfl⟩, ⟨_, -, rfl⟩, hupdate, _, -, rfl⟩ := h
  refine ⟨⟨by simpa [Target.Binding.boundNames] using hvar, hfirst⟩, ⟨trivial, hvar, hlast⟩, ?_,
    hbody⟩
  cases amount with
  | none =>
    obtain ⟨_, -, rfl⟩ := hupdate
    exact ⟨trivial, hvar⟩
  | some a =>
    obtain ⟨_, -, rfl⟩ := hupdate
    exact ⟨trivial, hvar, hamount a rfl⟩

theorem isName_of_loweredParams {tags : List Tag} {xs : List Source.Param} {ys : List Target.Param}
    (hxs : ∀ x ∈ xs, x.lexeme.Legible) (h : List.Forall₂ (LoweredParam tags) xs ys) :
    ∀ y ∈ ys, IsName y.name := by
  induction h with
  | nil => simp
  | @cons x y xs ys hy _ ih =>
    obtain ⟨hx, hxs⟩ := List.forall_mem_cons.1 hxs
    refine List.forall_mem_cons.2 ⟨?_, ih hxs⟩
    rw [hy.name]
    cases x with
    | named name span => exact hx
    | vararg span => exact isName_vararg

theorem isName_of_bindingOf {names : List Source.Name} (h : ∀ n ∈ names, IsName n.text) :
    ∀ s ∈ (bindingOf names).boundNames, IsName s := by
  unfold bindingOf
  split <;> simpa [Target.Binding.boundNames] using h

/-! ### Trees -/

mutual

theorem sound_of_loweredExpr : ∀ (e : Source.Expr) {tags : List Tag} {a : Target.Expr},
    Legible e.lexemes → LoweredExpr ctx p tags e a → a.Everywhere Sound IsName
  | .ident name span, _, _, he, h => by
    obtain ⟨_, -, rfl⟩ := h
    exact isName_identName (by simpa [Source.Expr.lexemes] using he)
  | .literal value span, _, _, he, h =>
    sound_of_loweredLiteral (by simpa [Source.Expr.lexemes] using he) h
  | .member base _ name span, _, _, he, h => by
    obtain ⟨hbase, hname⟩ : Legible base.lexemes ∧ IsName name.text := by
      simpa [Source.Expr.lexemes] using he
    obtain ⟨object, hobject, _, -, rfl⟩ := h
    exact ⟨hname, sound_of_loweredExpr base hbase hobject⟩
  | .index base index span, _, _, he, h => by
    obtain ⟨hbase, hindex⟩ : Legible base.lexemes ∧ Legible index.lexemes := by
      simpa [Source.Expr.lexemes] using he
    obtain ⟨object, i, hobject, hi, _, -, rfl⟩ := h
    exact ⟨trivial, sound_of_loweredExpr base hbase hobject, sound_of_loweredExpr index hindex hi⟩
  | .unary op operand span, _, _, he, h => by
    have hoperand : Legible operand.lexemes := by simpa [Source.Expr.lexemes] using he
    obtain ⟨e, he, h⟩ := h
    exact sound_of_loweredUnary (sound_of_loweredExpr operand hoperand he) h
  | .binary lhs op rhs span, _, _, he, h => by
    obtain ⟨hlhs, hrhs⟩ : Legible lhs.lexemes ∧ Legible rhs.lexemes := by
      simpa [Source.Expr.lexemes] using he
    obtain ⟨b, _, c, -, hb, hc, _, -, rfl⟩ := h
    exact ⟨trivial, sound_of_loweredExpr lhs hlhs hb, sound_of_loweredExpr rhs hrhs hc⟩
  | .logical lhs op rhs span, _, _, he, h => by
    obtain ⟨hlhs, hrhs⟩ : Legible lhs.lexemes ∧ Legible rhs.lexemes := by
      simpa [Source.Expr.lexemes] using he
    obtain ⟨b, c, hb, hc, _, -, rfl⟩ := h
    exact ⟨trivial, sound_of_loweredExpr lhs hlhs hb, sound_of_loweredExpr rhs hrhs hc⟩
  | .table fields span, _, _, he, h => by
    have hfields : ∀ f ∈ fields, Legible f.lexemes := by simpa [Source.Expr.lexemes] using he
    rcases h with ⟨es, hes, _, -, rfl⟩ | ⟨ps, hps, _, -, rfl⟩
    · exact ⟨trivial, sound_of_loweredElements fields hfields hes⟩
    · exact ⟨trivial, sound_of_loweredProperties fields hfields hps⟩
  | .call base args span, _, _, he, h => by
    obtain ⟨hbase, hargs⟩ : Legible base.lexemes ∧ ∀ e ∈ args, Legible e.lexemes := by
      simpa [Source.Expr.lexemes] using he
    obtain ⟨callee, as, hcallee, has, _, -, rfl⟩ := h
    exact ⟨trivial, sound_of_loweredExpr base hbase hcallee, sound_of_loweredExprs args hargs has⟩
  | .stringCall base argument span, _, _, he, h | .tableCall base argument span, _, _, he, h => by
    obtain ⟨hbase, hargument⟩ : Legible base.lexemes ∧ Legible argument.lexemes := by
      simpa [Source.Expr.lexemes] using he
    obtain ⟨callee, arg, hcallee, harg, _, -, rfl⟩ := h
    exact ⟨trivial, sound_of_loweredExpr base hbase hcallee,
      sound_of_loweredExpr argument hargument harg, trivial⟩
  | .function func span, _, _, he, h => by
    have hfunc : Legible func.lexemes := by simpa [Source.Expr.lexemes] using he
    obtain ⟨_, f, -, hf, _, -, rfl⟩ := h
    exact ⟨trivial, sound_of_loweredFunction func hfunc hf⟩

theorem sound_of_loweredExprs : ∀ (es : List Source.Expr) {tags : List Tag}
    {as : List Target.Expr}, (∀ e ∈ es, Legible e.lexemes) → LoweredExprs ctx p tags es as →
    Target.exprsEverywhere Sound IsName as
  | [], _, _, _, h => by
    cases h
    trivial
  | e :: es, _, _, hes, h => by
    obtain ⟨he, hes⟩ := List.forall_mem_cons.1 hes
    obtain ⟨b, bs, hb, hbs, rfl⟩ := h
    exact ⟨sound_of_loweredExpr e he hb, sound_of_loweredExprs es hes hbs⟩

theorem sound_of_loweredElements : ∀ (fs : List Source.Field) {tags : List Tag}
    {as : List Target.Expr}, (∀ f ∈ fs, Legible f.lexemes) → LoweredElements ctx p tags fs as →
    Target.exprsEverywhere Sound IsName as
  | [], _, _, _, h => by
    cases h
    trivial
  | .positional value _ :: fs, _, _, hfs, h => by
    obtain ⟨hvalue, hfs⟩ := List.forall_mem_cons.1 hfs
    obtain ⟨b, bs, hb, hbs, rfl⟩ := h
    exact ⟨sound_of_loweredExpr value hvalue hb, sound_of_loweredElements fs hfs hbs⟩

theorem sound_of_loweredProperties : ∀ (fs : List Source.Field) {tags : List Tag}
    {ps : List Target.Property}, (∀ f ∈ fs, Legible f.lexemes) →
    LoweredProperties ctx p tags fs ps → Target.propertiesEverywhere Sound IsName ps
  | [], _, _, _, h => by
    cases h
    trivial
  | .named key value _ :: fs, _, _, hfs, h => by
    obtain ⟨⟨hkey, hvalue⟩, hfs⟩ :
        (IsName key.text ∧ Legible value.lexemes) ∧ ∀ f ∈ fs, Legible f.lexemes := by
      simpa [Source.Field.lexemes] using hfs
    obtain ⟨v, qs, hv, hqs, rfl⟩ := h
    exact ⟨hkey, sound_of_loweredExpr value hvalue hv, sound_of_loweredProperties fs hfs hqs⟩
  | .keyed key value _ :: fs, _, _, hfs, h => by
    obtain ⟨⟨hkey, hvalue⟩, hfs⟩ :
        (Legible key.lexemes ∧ Legible value.lexemes) ∧ ∀ f ∈ fs, Legible f.lexemes := by
      simpa [Source.Field.lexemes] using hfs
    obtain ⟨k, v, qs, hk, hv, hqs, rfl⟩ := h
    exact ⟨sound_of_loweredExpr key hkey hk, sound_of_loweredExpr value hvalue hv,
      sound_of_loweredProperties fs hfs hqs⟩

theorem sound_of_loweredFunction : ∀ (func : Source.Function) {tags : List Tag} {method : Bool}
    {ty : Option Ty} {f : Target.Function}, Legible func.lexemes →
    LoweredFunction ctx p tags method ty func f → f.Everywhere Sound IsName
  | .mk params body, _, method, _, _, hfunc, h => by
    obtain ⟨hparams, hbody⟩ : (∀ x ∈ params, x.lexeme.Legible) ∧ Legible body.lexemes := by
      simpa [Source.Function.lexemes] using hfunc
    obtain ⟨ps, out, hps, hout, rfl⟩ := h
    have hnames := isName_of_loweredParams hparams hps
    refine ⟨?_, sound_of_loweredBlock body hbody hout⟩
    cases method with
    | false => exact hnames
    | true => exact List.forall_mem_cons.2 ⟨by decide, hnames⟩

theorem sound_of_loweredStmt : ∀ (s : Source.Stmt) {top : Bool} {tags : List Tag}
    {t : Target.Stmt}, Legible s.lexemes → LoweredStmt ctx p top tags s t →
    t.Everywhere Sound IsName
  | .localDecl names init span, _, _, _, hs, h => by
    obtain ⟨hnames, hinit⟩ := Source.legible_localDecl.1 hs
    obtain ⟨_, es, value, -, hes, hvalue, _, -, rfl⟩ := h
    exact Target.everywhere_varDecl.2 ⟨isName_of_bindingOf hnames,
      sound_of_joinedValues (sound_of_loweredExprs init hinit hes) hvalue⟩
  | .assign targets init span, _, _, _, hs, h => by
    obtain ⟨htargets, hinit⟩ :
        (∀ e ∈ targets, Legible e.lexemes) ∧ ∀ e ∈ init, Legible e.lexemes := by
      simpa [Source.Stmt.lexemes] using hs
    obtain ⟨lhs, target, es, value, v, hlhs, htarget, hes, hvalue, hv, h⟩ := h
    have hvalues := sound_of_joinedValues (sound_of_loweredExprs init hinit hes) hvalue
    exact sound_of_loweredAssignment h
      (sound_of_joinedTargets (sound_of_loweredExprs targets htargets hlhs) htarget)
      (sound_of_assignedValue hvalues hv)
  | .call call span, _, _, _, hs, h => by
    obtain ⟨e, he, _, -, rfl⟩ := h
    exact sound_of_loweredExpr call (by simpa [Source.Stmt.lexemes] using hs) he
  | .functionDecl (.ident ident _) _ func span, _, _, _, hs, h => by
    obtain ⟨hident, hfunc⟩ := Source.legible_functionDecl.1 hs
    obtain ⟨_, f, -, hf, _, -, rfl⟩ := h
    exact ⟨by simpa [Source.Expr.lexemes] using hident, sound_of_loweredFunction func hfunc hf⟩
  | .functionDecl (.member base indexer member memberSpan) _ func span, _, _, _, hs, h => by
    obtain ⟨hname, hfunc⟩ := Source.legible_functionDecl.1 hs
    obtain ⟨hbase, hmember⟩ : Legible base.lexemes ∧ IsName member.text := by
      simpa [Source.Expr.lexemes] using hname
    obtain ⟨_, object, _, f, _, -, hobject, ⟨_, -, rfl⟩, hf, ⟨_, -, rfl⟩, h⟩ := h
    exact sound_of_loweredAssignment h ⟨hmember, sound_of_loweredExpr base hbase hobject⟩
      ⟨trivial, sound_of_loweredFunction func hfunc hf⟩
  | .returnStmt values span, _, _, _, hs, h => by
    have hvalues : ∀ e ∈ values, Legible e.lexemes := by simpa [Source.Stmt.lexemes] using hs
    obtain ⟨es, value, hes, hvalue, h⟩ := h
    have hsound := sound_of_joinedValues (sound_of_loweredExprs values hvalues hes) hvalue
    rcases h with ⟨v, -, rfl, _, -, rfl⟩ | ⟨-, _, -, rfl⟩
    · exact hsound v rfl
    · exact Target.everywhere_returnStmt.2 hsound
  | .ifStmt cond thenBlock clauses elseBlock span, _, _, _, hs, h => by
    obtain ⟨hcond, hthen, hclauses, helse⟩ : Legible cond.lexemes ∧ Legible thenBlock.lexemes ∧
        (∀ c ∈ clauses, Legible c.lexemes) ∧ Legible (Source.elseLexemes elseBlock) := by
      simpa [Source.Stmt.lexemes] using hs
    obtain ⟨c, body, last, branch, hc, hbody, hlast, hbranch, _, -, rfl⟩ := h
    exact ⟨sound_of_loweredExpr cond hcond hc, sound_of_loweredBlock thenBlock hthen hbody,
      sound_of_loweredClauses clauses hclauses (sound_of_loweredElse elseBlock helse hlast) hbranch⟩
  | .whileLoop cond block span, _, _, _, hs, h => by
    obtain ⟨hcond, hblock⟩ : Legible cond.lexemes ∧ Legible block.lexemes := by
      simpa [Source.Stmt.lexemes] using hs
    obtain ⟨c, body, hc, hbody, _, -, rfl⟩ := h
    exact ⟨sound_of_loweredExpr cond hcond hc, sound_of_loweredBlock block hblock hbody⟩
  | .forNumeric var start stop step block span, _, _, _, hs, h => by
    obtain ⟨hvar, hstart, hstop, hstep, hblock⟩ : IsName var.text ∧ Legible start.lexemes ∧
        Legible stop.lexemes ∧ Legible (Source.stepLexemes step) ∧ Legible block.lexemes := by
      simpa [Source.Stmt.lexemes] using hs
    obtain ⟨first, last, amount, body, hfirst, hlast, hamount, hbody, h⟩ := h
    exact sound_of_loweredLoop hvar (sound_of_loweredExpr start hstart hfirst)
      (sound_of_loweredExpr stop hstop hlast) (sound_of_loweredStep step hstep hamount)
      (sound_of_loweredBlock block hblock hbody) h
  | .forGeneric vars iterators block span, _, _, _, hs, h => by
    obtain ⟨hvars, hiterators, hblock⟩ : (∀ n ∈ vars, IsName n.text) ∧
        (∀ e ∈ iterators, Legible e.lexemes) ∧ Legible block.lexemes := by
      simpa [Source.Stmt.lexemes] using hs
    obtain ⟨iterable, body, hiterable, hbody, _, -, rfl⟩ := h
    exact ⟨by simpa [Target.Binding.boundNames] using hvars,
      sound_of_loweredIterable iterators hiterators hiterable,
      sound_of_loweredBlock block hblock hbody⟩
  | .breakStmt span, _, _, _, _, h => by
    obtain ⟨_, -, rfl⟩ := h
    trivial

theorem sound_of_loweredElse : ∀ (o : Option Block) {last : Target.Else},
    Legible (Source.elseLexemes o) → LoweredElse ctx p o last → last.Everywhere Sound IsName
  | none, _, _, h => by
    cases h
    trivial
  | some block, _, ho, h => by
    obtain ⟨out, hout, rfl⟩ := h
    exact sound_of_loweredBlock block (by simpa [Source.elseLexemes] using ho) hout

theorem sound_of_loweredStep : ∀ (o : Option Source.Expr) {tags : List Tag}
    {amount : Option Target.Expr}, Legible (Source.stepLexemes o) →
    LoweredStep ctx p tags o amount → ∀ a ∈ amount, a.Everywhere Sound IsName
  | none, _, _, _, h => by
    cases h
    rintro _ ⟨⟩
  | some step, _, _, ho, h => by
    obtain ⟨a, ha, rfl⟩ := h
    rintro _ ⟨⟩
    exact sound_of_loweredExpr step (by simpa [Source.stepLexemes] using ho) ha

theorem sound_of_loweredIterable : ∀ (es : List Source.Expr) {tags : List Tag} {span : Span}
    {a : Target.Expr}, (∀ e ∈ es, Legible e.lexemes) → LoweredIterable ctx p tags span es a →
    a.Everywhere Sound IsName
  | [], _, _, _, _, h => by
    obtain ⟨_, -, rfl⟩ := h
    exact isName_undefined
  | [e], _, _, _, hes, h => sound_of_loweredExpr e (hes e (by simp)) h

theorem sound_of_loweredClauses : ∀ (cs : List Source.Clause) {tags : List Tag}
    {last branch : Target.Else}, (∀ c ∈ cs, Legible c.lexemes) → last.Everywhere Sound IsName →
    LoweredClauses ctx p tags last cs branch → branch.Everywhere Sound IsName
  | [], _, _, _, _, hlast, h => by
    cases h
    exact hlast
  | .mk cond block :: cs, _, _, _, hcs, hlast, h => by
    obtain ⟨⟨hcond, hblock⟩, hcs⟩ :
        (Legible cond.lexemes ∧ Legible block.lexemes) ∧ ∀ c ∈ cs, Legible c.lexemes := by
      simpa [Source.Clause.lexemes] using hcs
    obtain ⟨c, body, rest, _, hc, hbody, hrest, ⟨_, -, rfl⟩, rfl⟩ := h
    exact ⟨sound_of_loweredExpr cond hcond hc, sound_of_loweredBlock block hblock hbody,
      sound_of_loweredClauses cs hcs hlast hrest⟩

theorem sound_of_loweredStmts : ∀ (ss : List Source.Stmt) {top : Bool} {keep : Source.Stmt → Bool}
    {floor : Nat} {ts : List Target.Stmt}, (∀ s ∈ ss, Legible s.lexemes) →
    LoweredStmts ctx p top keep floor ss ts → Target.stmtsEverywhere Sound IsName ts
  | [], _, _, _, _, _, h => by
    cases h
    trivial
  | s :: ss, _, keep, _, _, hss, h => by
    obtain ⟨hs, hss⟩ := List.forall_mem_cons.1 hss
    rw [LoweredStmts] at h
    split at h
    · obtain ⟨u, us, hu, hus, rfl⟩ := h
      exact ⟨sound_of_loweredStmt s hs hu, sound_of_loweredStmts ss hss hus⟩
    · exact sound_of_loweredStmts ss hss h

theorem sound_of_loweredExport : ∀ (s : Source.Stmt) {tags : List Tag} {t : Target.Stmt},
    Legible s.lexemes → s.isMemberDecl = true → LoweredExport ctx p tags s t →
    t.Everywhere Sound IsName
  | .functionDecl (.member base indexer member _) _ func span, _, _, hs, _, h => by
    obtain ⟨hname, hfunc⟩ := Source.legible_functionDecl.1 hs
    obtain ⟨-, hmember⟩ : Legible base.lexemes ∧ IsName member.text := by
      simpa [Source.Expr.lexemes] using hname
    obtain ⟨_, f, -, hf, _, -, rfl⟩ := h
    exact ⟨hmember, sound_of_loweredFunction func hfunc hf⟩

theorem sound_of_loweredExports : ∀ (ss : List Source.Stmt) {floor : Nat} {ts : List Target.Stmt},
    (∀ s ∈ ss, Legible s.lexemes) → LoweredExports ctx p floor ss ts →
    Target.stmtsEverywhere Sound IsName ts
  | [], _, _, _, h => by
    cases h
    trivial
  | s :: ss, _, _, hss, h => by
    obtain ⟨hs, hss⟩ := List.forall_mem_cons.1 hss
    rw [LoweredExports] at h
    split at h
    next hmember =>
      obtain ⟨u, us, hu, hus, rfl⟩ := h
      exact ⟨sound_of_loweredExport s hs hmember hu, sound_of_loweredExports ss hss hus⟩
    next => exact sound_of_loweredExports ss hss h

theorem sound_of_loweredMethod : ∀ (s : Source.Stmt) {tags : List Tag} {m : Target.Method},
    Legible s.lexemes → s.isMemberDecl = true → LoweredMethod ctx p tags s m →
    m.Everywhere Sound IsName
  | .functionDecl (.member base indexer member _) _ func span, _, _, hs, _, h => by
    obtain ⟨hname, hfunc⟩ := Source.legible_functionDecl.1 hs
    obtain ⟨-, hmember⟩ : Legible base.lexemes ∧ IsName member.text := by
      simpa [Source.Expr.lexemes] using hname
    obtain ⟨_, f, -, hf, _, -, rfl⟩ := h
    exact ⟨hmember, sound_of_loweredFunction func hfunc hf⟩

theorem sound_of_loweredMethods : ∀ (ss : List Source.Stmt) {floor : Nat}
    {ms : List Target.Method}, (∀ s ∈ ss, Legible s.lexemes) → LoweredMethods ctx p floor ss ms →
    Target.methodsEverywhere Sound IsName ms
  | [], _, _, _, h => by
    cases h
    trivial
  | s :: ss, _, _, hss, h => by
    obtain ⟨hs, hss⟩ := List.forall_mem_cons.1 hss
    rw [LoweredMethods] at h
    split at h
    next hmember =>
      obtain ⟨m, ns, hm, hns, rfl⟩ := h
      exact ⟨sound_of_loweredMethod s hs hmember hm, sound_of_loweredMethods ss hss hns⟩
    next => exact sound_of_loweredMethods ss hss h

theorem sound_of_loweredBlock : ∀ (b : Block) {top : Bool} {out : List Target.Stmt},
    Legible b.lexemes → LoweredBlock ctx p top b out → Target.stmtsEverywhere Sound IsName out
  | .mk start [], _, _, _, h => by
    cases (loweredBlock_plain rfl).1 h
    trivial
  | .mk start (first :: rest), top, _, hb, h => by
    have hall : ∀ s ∈ first :: rest, Legible s.lexemes := by
      simpa [Source.Block.lexemes] using hb
    obtain ⟨hfirst, hrest⟩ := List.forall_mem_cons.1 hall
    rcases shapeOf_cons_cases ctx top start first rest with
      ⟨hshape, -⟩ | ⟨hshape, -⟩ | ⟨name, names, init, _, hlocal, hshape, -⟩
    · exact sound_of_loweredStmts (first :: rest) hall ((loweredBlock_plain hshape).1 h)
    · obtain ⟨exports, others, hexports, hothers, rfl⟩ := (loweredBlock_module hshape).1 h
      exact Target.stmtsEverywhere_append.2 ⟨sound_of_loweredExports rest hrest hexports,
        sound_of_loweredStmts rest hrest hothers⟩
    · obtain ⟨methods, _, others, hmethods, ⟨_, -, rfl⟩, hothers, rfl⟩ :=
        (loweredBlock_class hshape).1 h
      -- the class is named like the variable that the block starts with
      have hname : IsName name.text := by
        rw [hlocal] at hfirst
        exact (Source.legible_localDecl.1 hfirst).1 name (by simp)
      exact ⟨⟨hname, sound_of_loweredMethods rest hrest hmethods⟩,
        sound_of_loweredStmts rest hrest hothers⟩

end

/-! ### Printed expressions -/

open Target (AnyName IsPrinted tokensOf)

section Inspect

variable {α : Type} {view : Target.Expr → α} {source : String} {value : α}

/-- What is seen of the expression that a source is translated to, if it is. -/
def inspectExpr? (view : Target.Expr → α) (source : String) : Option α :=
  match Source.parseExpr source with
  | .ok (e, _) =>
    match lowerExpr ⟨false, false, []⟩ [] e .initial with
    | .ok a _ => some (view a)
    | .error .. => none
  | .error _ => none

theorem exists_of_inspectExpr? (h : inspectExpr? view source = some value) :
    ∃ e c a st, Source.parseExpr source = .ok (e, c) ∧
      lowerExpr ⟨false, false, []⟩ [] e .initial = .ok a st ∧ view a = value := by
  unfold inspectExpr? at h
  cases hparse : Source.parseExpr source with
  | error err => simp [hparse] at h
  | ok pair =>
    obtain ⟨e, c⟩ := pair
    cases hlower : lowerExpr ⟨false, false, []⟩ [] e .initial with
    | error err st => simp [hparse, hlower] at h
    | ok a st =>
      simp only [hparse, hlower, Option.some.injEq] at h
      exact ⟨e, c, a, st, rfl, hlower, h⟩

end Inspect

/-- **What the actions of an expression that is read and translated write is the text of its pieces;
each token printed is one that the text is split into, types apart, and the text is split into these
and no others exactly if nowhere in the expression a member is taken of a numeral without a
point.** -/
theorem tokensOf_lowered_iff {s : String} {e : Source.Expr} {c : Cursor} {tags : List Tag}
    {st st' : State} {a : Target.Expr} (hparse : Source.parseExpr s = .ok (e, c))
    (hlower : lowerExpr ctx tags e st = .ok a st') (n : Nat) :
    (∀ provenance, Target.WritesPieces provenance n a.actions (a.pieces n)) ∧
      (∀ t ∈ Piece.tokens (a.pieces n), IsPrinted t) ∧
      (tokensOf (Piece.code (a.pieces n)) = (Piece.tokens (a.pieces n)).flatMap tokensOf ↔
        a.Everywhere Target.Expr.Parted AnyName) := by
  have hbuilt : LoweredExpr ctx st'.provenance tags e a :=
    (lowered_lowerExpr e st a st' hlower).2 fun _ _ _ => rfl
  have hsound := sound_of_loweredExpr e (Source.legible_of_parseExpr hparse) hbuilt
  have hsplits := (a.splits n hsound).closes ⟨Target.stops_nil, by simp⟩
  refine ⟨fun _ => Target.writesPieces_expr a, hsplits.isPrinted, ?_⟩
  simpa [Piece.chars, tokensOf] using hsplits.cut_iff []

/-- Signs, dots and points that stand side by side keep apart. -/
theorem tokensOf_lowered_nested : ∃ e c a st,
    Source.parseExpr "f(- -x ^ #t, 5 .. \x7b...\x7d, function(a) return (0.5).y end)" = .ok (e, c) ∧
      lowerExpr ⟨false, false, []⟩ [] e .initial = .ok a st ∧
      Piece.code (a.pieces 0) =
        "f(- -(x ** t.length), 5 + [...vararg], function (a) \x7b\n    return 0.5.y;\n\x7d)" ∧
      (∀ provenance, Target.WritesPieces provenance 0 a.actions (a.pieces 0)) ∧
      (∀ t ∈ Piece.tokens (a.pieces 0), IsPrinted t) ∧
      a.Everywhere Target.Expr.Parted AnyName := by
  have h : inspectExpr? (fun a => (Piece.code (a.pieces 0), decide (tokensOf
      (Piece.code (a.pieces 0)) = (Piece.tokens (a.pieces 0)).flatMap tokensOf)))
      "f(- -x ^ #t, 5 .. \x7b...\x7d, function(a) return (0.5).y end)" =
        some ("f(- -(x ** t.length), 5 + [...vararg], function (a) \x7b\n    return 0.5.y;\n\x7d)",
          true) := by
    decide +kernel
  obtain ⟨e, c, a, st, hparse, hlower, hview⟩ := exists_of_inspectExpr? h
  rw [Prod.mk.injEq, decide_eq_true_eq] at hview
  obtain ⟨hwritten, hprinted, hiff⟩ := tokensOf_lowered_iff hparse hlower 0
  exact ⟨e, c, a, st, hparse, hlower, hview.1, hwritten, hprinted, hiff.1 hview.2⟩

/-- A numeral without a point takes the point of the member behind it. -/
theorem tokensOf_length_of_five : ∃ e c a st,
    Source.parseExpr "#5" = .ok (e, c) ∧ lowerExpr ⟨false, false, []⟩ [] e .initial = .ok a st ∧
      (Target.Writer.run none .initial a.actions).out = "5.length" ∧
      Piece.tokens (a.pieces 0) = ["5", ".", "length"] ∧
      tokensOf (Piece.code (a.pieces 0)) = ["5.", "length"] := by
  have h : inspectExpr? (fun a => ((Target.Writer.run none .initial a.actions).out,
      Piece.tokens (a.pieces 0), tokensOf (Piece.code (a.pieces 0)))) "#5" =
        some ("5.length", ["5", ".", "length"], ["5.", "length"]) := by decide +kernel
  obtain ⟨e, c, a, st, hparse, hlower, hview⟩ := exists_of_inspectExpr? h
  rw [Prod.mk.injEq, Prod.mk.injEq] at hview
  exact ⟨e, c, a, st, hparse, hlower, hview⟩

end LuaTranspiler.Lowering
