import LuaTranspiler.Typing.Checker

/-!
# What checking a tree does

Every block that checking enters it leaves again. So the names declared inside are forgotten, and
what stays of a statement are the names that it declares in the block it stands in. Findings are
only added, one for each misfit that is met on the way.

The walk passes by the computed keys of objects, so what is said of the findings concerns the
statements outside of them.

* `Stmt.declares`: the names that a statement adds to the block it stands in
* `Stmt.statements`: the statements of a tree, at every depth
* `Stmt.finding?`: what is to be found in the declaration of a variable
* `Checked names ts c c'`, `Checks names ts f`: a part of the walk that declares `names` and meets
  the statements `ts`
* `checks_expr`, `checks_stmt`, `checks_block`: one case for each kind of expression and statement
-/

namespace LuaTranspiler

namespace Target

/-! ### Declared names -/

/-- The names that a declaration with type `ty` binds, in order. Only a name by itself takes the
type. -/
def Binding.declares (ty : Option Ty) : Binding → List (String × Option Ty)
  | ident name => [(name, ty)]
  | array names => names.map (·, none)

/-- The names that a declaration binds. -/
def VarDecl.declares : VarDecl → List (String × Option Ty)
  | mk _ binding ty _ => binding.declares ty

mutual

/-- The names that a statement adds to the block it stands in. What follows `else if` stands in the
same block. -/
def Stmt.declares : Stmt → List (String × Option Ty)
  | .var _ decl => decl.declares
  | .functionDecl _ name _ _ | .classDecl _ name _ => [(name, none)]
  | .ifStmt _ _ _ branch => branch.declares
  | .expr .. | .returnStmt .. | .exportAssign .. | .forLoop .. | .forOf .. | .whileLoop ..
  | .breakStmt _ => []

/-- The names that the last part of an `if` adds to the block that the `if` stands in. -/
def Else.declares : Else → List (String × Option Ty)
  | .elseIf s => s.declares
  | .none | .block _ => []

end

/-! ### The statements of a tree -/

mutual

/-- The statements in the functions inside an expression. Those in the computed keys of objects are
counted only with `keys`. -/
def Expr.statements (keys : Bool) : Expr → List Stmt
  | .ident .. | .number .. | .string .. | .bool .. => []
  | .member _ object _ => object.statements keys
  | .element _ object index => object.statements keys ++ index.statements keys
  | .binary _ lhs _ rhs => lhs.statements keys ++ rhs.statements keys
  | .unary _ _ operand | .increment _ operand => operand.statements keys
  | .assign _ target _ value => target.statements keys ++ value.statements keys
  | .spread _ value => value.statements keys
  | .array _ elements => exprStatements keys elements
  | .object _ properties => propertyStatements keys properties
  | .call _ callee args => callee.statements keys ++ exprStatements keys args
  | .function _ func => func.statements keys

/-- The same for expressions. -/
def exprStatements (keys : Bool) : List Expr → List Stmt
  | [] => []
  | e :: es => e.statements keys ++ exprStatements keys es

/-- The same for properties. -/
def propertyStatements (keys : Bool) : List Property → List Stmt
  | [] => []
  | .named _ value :: ps => value.statements keys ++ propertyStatements keys ps
  | .computed key value :: ps =>
    (if keys then key.statements keys else []) ++
      (value.statements keys ++ propertyStatements keys ps)

/-- The statements in a function. -/
def Function.statements (keys : Bool) : Function → List Stmt
  | .mk _ _ body => statementsOf keys body

/-- The statements in the initial value of a declaration. -/
def VarDecl.statements (keys : Bool) : VarDecl → List Stmt
  | .mk _ _ _ none => []
  | .mk _ _ _ (some e) => e.statements keys

/-- The statements in methods. -/
def methodStatements (keys : Bool) : List Method → List Stmt
  | [] => []
  | .mk _ _ _ func :: ms => func.statements keys ++ methodStatements keys ms

/-- The statements in what follows the block of an `if`. -/
def Else.statements (keys : Bool) : Else → List Stmt
  | .none => []
  | .elseIf s => s.statements keys
  | .block body => statementsOf keys body

/-- A statement and those inside it. -/
def Stmt.statements (keys : Bool) : Stmt → List Stmt
  | .var id decl => .var id decl :: decl.statements keys
  | .functionDecl id name exported func =>
    .functionDecl id name exported func :: func.statements keys
  | .classDecl id name methods => .classDecl id name methods :: methodStatements keys methods
  | .expr id e => .expr id e :: e.statements keys
  | .returnStmt id none => [.returnStmt id none]
  | .returnStmt id (some e) => .returnStmt id (some e) :: e.statements keys
  | .exportAssign id e => .exportAssign id e :: e.statements keys
  | .ifStmt id cond thenBlock branch =>
    .ifStmt id cond thenBlock branch ::
      (cond.statements keys ++ (statementsOf keys thenBlock ++ branch.statements keys))
  | .forLoop id init test update body =>
    .forLoop id init test update body :: (init.statements keys ++
      (test.statements keys ++ (update.statements keys ++ statementsOf keys body)))
  | .forOf id binding iterable body =>
    .forOf id binding iterable body :: (iterable.statements keys ++ statementsOf keys body)
  | .whileLoop id cond body =>
    .whileLoop id cond body :: (cond.statements keys ++ statementsOf keys body)
  | .breakStmt id => [.breakStmt id]

/-- Statements and those inside them. -/
def statementsOf (keys : Bool) : List Stmt → List Stmt
  | [] => []
  | s :: ss => s.statements keys ++ statementsOf keys ss

end

theorem statementsOf_eq_flatMap (keys : Bool) (ss : List Stmt) :
    statementsOf keys ss = ss.flatMap (Stmt.statements keys) := by
  induction ss with
  | nil => rfl
  | cons s ss ih => rw [statementsOf, ih, List.flatMap_cons]

/-! ### What is to be found -/

/-- The type of a literal. -/
def Expr.literalType? : Expr → Option Ty
  | .number .. => some .number
  | .string .. => some .string
  | .bool .. => some .boolean
  | _ => none

theorem infer?_of_literal {e : Expr} {ty : Ty} (h : e.literalType? = some ty) (scopes : Scopes) :
    infer? scopes e = some ty := by
  cases e <;> simp_all [Expr.literalType?, infer?]

/-- The misfit of a declaration at `span`, if its initial value is a literal that does not fit. -/
def VarDecl.finding? (span : Span) : VarDecl → Option Mismatch
  | .mk _ _ (some ty) (some e) =>
    (e.literalType?.filter fun found => !found.isAssignable ty).map (⟨ty, ·, span⟩)
  | .mk .. => none

/-- The misfit of a statement, if it declares a variable. -/
def Stmt.finding? (p : Provenance) : Stmt → Option Mismatch
  | .var id decl => decl.finding? (p.get id)
  | _ => none

end Target

namespace Checker

open Target

variable {c c₁ c₂ : Checker} {a b : List (String × Option Ty)} {ts us : List Stmt}
  {f g : Checker → Checker}

/-! ### A part of the walk -/

/-- The state `c'` after a part of the walk that began in the state `c`. The innermost block has
gained `names`, all else is as it was, and the findings of the statements `ts` have been made. -/
structure Checked (names : List (String × Option Ty)) (ts : List Stmt) (c c' : Checker) :
    Prop where
  scopes : ∃ top below, c.scopes = top :: below ∧ c'.scopes = (names.reverse ++ top) :: below
  returns : c'.returns = c.returns
  provenance : c'.provenance = c.provenance
  mismatches : c.mismatches <+: c'.mismatches
  found : ∀ t ∈ ts, ∀ m ∈ t.finding? c.provenance, m ∈ c'.mismatches

namespace Checked

theorem ne_nil (h : Checked a ts c c₁) : c₁.scopes ≠ [] := by
  obtain ⟨_, _, -, h⟩ := h.scopes
  simp [h]

theorem refl (hc : c.scopes ≠ []) : Checked [] [] c c := by
  obtain ⟨top, below, hscopes⟩ := List.exists_cons_of_ne_nil hc
  exact ⟨⟨top, below, hscopes, hscopes⟩, rfl, rfl, List.prefix_rfl, List.forall_mem_nil _⟩

theorem trans (h : Checked a ts c c₁) (h' : Checked b us c₁ c₂) :
    Checked (a ++ b) (ts ++ us) c c₂ where
  scopes := by
    obtain ⟨top, below, hc, hc₁⟩ := h.scopes
    obtain ⟨top₁, below₁, hc₁', hc₂⟩ := h'.scopes
    obtain ⟨rfl, rfl⟩ : a.reverse ++ top = top₁ ∧ below = below₁ := by simpa [hc₁] using hc₁'
    exact ⟨top, below, hc, by simp [hc₂]⟩
  returns := h'.returns.trans h.returns
  provenance := h'.provenance.trans h.provenance
  mismatches := h.mismatches.trans h'.mismatches
  found := by
    refine List.forall_mem_append.2 ⟨fun t ht m hm => ?_, fun t ht m hm => ?_⟩
    · exact h'.mismatches.subset (h.found t ht m hm)
    · exact h'.found t ht m (by rwa [h.provenance])

theorem mono (h : Checked a ts c c₁) (hsub : us ⊆ ts) : Checked a us c c₁ :=
  { h with found := fun t ht => h.found t (hsub ht) }

theorem declare (hc : c.scopes ≠ []) (name : String) (ty : Option Ty) :
    Checked [(name, ty)] [] c (c.declare name ty) := by
  obtain ⟨top, below, hscopes⟩ := List.exists_cons_of_ne_nil hc
  refine ⟨⟨top, below, hscopes, ?_⟩, rfl, rfl, List.prefix_rfl, List.forall_mem_nil _⟩
  simp [Checker.declare, hscopes, Scopes.declare]

theorem declareAll (hc : c.scopes ≠ []) (names : List String) :
    Checked (names.map (·, none)) [] c (declareAll names c) := by
  induction names generalizing c with
  | nil => exact .refl hc
  | cons name names ih =>
    have hname := declare hc name none
    exact hname.trans (ih hname.ne_nil)

theorem declareBinding (hc : c.scopes ≠ []) (ty : Option Ty) (binding : Binding) :
    Checked (binding.declares ty) [] c (c.declareBinding ty binding) := by
  cases binding with
  | ident name => exact .declare hc name ty
  | array names => exact .declareAll hc names

theorem expect (hc : c.scopes ≠ []) (e : Expr) (expected : Ty) (span : Span) :
    Checked [] [] c (c.expect e expected span) := by
  have hrefl := Checked.refl hc
  rw [Checker.expect]
  split
  · exact hrefl
  · split
    · exact hrefl
    · exact { hrefl with mismatches := List.prefix_append _ _, found := List.forall_mem_nil _ }

theorem expectDeclared (hc : c.scopes ≠ []) (e : Expr) (expected : Option Ty) (span : Span) :
    Checked [] [] c (c.expectDeclared e expected span) := by
  cases expected with
  | none => exact .refl hc
  | some ty => exact .expect hc e ty span

end Checked

/-- The outermost block is never left, but every other one is. -/
theorem pop_of_ne_nil {ss : Scopes} (h : ss ≠ []) (s : Scope) : Scopes.pop (s :: ss) = ss := by
  obtain ⟨top, below, rfl⟩ := List.exists_cons_of_ne_nil h
  rfl

/-- What is declared in a block is forgotten behind it. -/
theorem Checked.nested (hc : c.scopes ≠ []) (h : Checked a ts c.push c₁) :
    Checked [] ts c c₁.pop := by
  obtain ⟨top, below, hscopes⟩ := List.exists_cons_of_ne_nil hc
  obtain ⟨_, _, hpush, hc₁⟩ := h.scopes
  cases hpush
  refine ⟨⟨top, below, hscopes, ?_⟩, h.returns, h.provenance, h.mismatches, h.found⟩
  rw [pop, hc₁, pop_of_ne_nil hc, hscopes]
  rfl

/-- Entering a function opens a block with its parameters. -/
theorem enter_scopes (params : List Param) (returnType : Option Ty) (c : Checker) :
    ∃ top, c.enter params returnType =
      { c with scopes := top :: c.scopes, returns := returnType :: c.returns } := by
  suffices h : ∀ (ps : List Param) (top : Scope), ∃ top',
      declareParams ps { c with scopes := top :: c.scopes } =
        { c with scopes := top' :: c.scopes } by
    obtain ⟨top, htop⟩ := h params []
    refine ⟨top, ?_⟩
    rw [enter, push, Scopes.push, htop]
  intro ps
  induction ps with
  | nil => exact fun top => ⟨top, rfl⟩
  | cons p ps ih => exact fun top => ih _

/-- What is declared in a function is forgotten behind it. -/
theorem Checked.function (hc : c.scopes ≠ []) {params : List Param} {returnType : Option Ty}
    (h : Checked a ts (c.enter params returnType) c₁) : Checked [] ts c c₁.leave := by
  obtain ⟨top, below, hscopes⟩ := List.exists_cons_of_ne_nil hc
  obtain ⟨params, henter⟩ := enter_scopes params returnType c
  rw [henter] at h
  obtain ⟨_, _, hfunction, hc₁⟩ := h.scopes
  cases hfunction
  refine ⟨⟨top, below, hscopes, ?_⟩, ?_, h.provenance, h.mismatches, h.found⟩
  · rw [leave, hc₁, pop_of_ne_nil hc, hscopes]
    rfl
  · rw [leave, h.returns]
    rfl

/-! ### Trees -/

/-- The part of the walk that `f` is declares `names` and meets `ts`, wherever it begins. -/
def Checks (names : List (String × Option Ty)) (ts : List Stmt) (f : Checker → Checker) : Prop :=
  ∀ c, c.scopes ≠ [] → Checked names ts c (f c)

namespace Checks

theorem skip : Checks [] [] fun c => c := fun _ hc => .refl hc

theorem comp (hf : Checks a ts f) (hg : Checks b us g) :
    Checks (a ++ b) (ts ++ us) fun c => g (f c) := by
  intro c hc
  have h := hf c hc
  exact h.trans (hg _ h.ne_nil)

theorem nested (hf : Checks a ts f) : Checks [] ts fun c => (f c.push).pop :=
  fun _ hc => .nested hc (hf _ (List.cons_ne_nil _ _))

theorem declare (name : String) (ty : Option Ty) :
    Checks [(name, ty)] [] (Checker.declare name ty) := fun _ hc => .declare hc name ty

/-- A statement that has no finding of its own. -/
theorem cons {s : Stmt} (hf : Checks a ts f) (hs : ∀ p, s.finding? p = none) :
    Checks a (s :: ts) f := by
  intro c hc
  have h := hf c hc
  refine { h with found := List.forall_mem_cons.2 ⟨?_, h.found⟩ }
  simp [hs]

end Checks

/-- An assignment to anything but a name walks over its target. -/
theorem expr_assign {id : Nat} {target value : Expr} {op : AssignOp}
    (h : ¬∃ i name, target = .ident i name ∧ op = .assign) :
    expr (.assign id target op value) c = expr target (expr value c) := by
  rw [expr]
  exact fun i name htarget hop => h ⟨i, name, htarget, hop⟩

theorem expr_of_literal {e : Expr} {ty : Ty} (h : e.literalType? = some ty) : expr e c = c := by
  cases e with
  | number | string | bool => rfl
  | ident | member | element | binary | unary | increment | assign | spread | array | object | call
  | function => cases h

/-- A literal that does not fit is found when its declaration is checked. -/
theorem mem_varDecl {decl : VarDecl} {span : Span} {m : Mismatch} (hc : c.scopes ≠ [])
    (hm : m ∈ decl.finding? span) : m ∈ (varDecl span decl c).mismatches := by
  obtain ⟨kind, binding, ty, init⟩ := decl
  cases ty with
  | none => cases hm
  | some ty =>
    cases init with
    | none => cases hm
    | some e =>
      obtain ⟨found, hfound, rfl⟩ := Option.map_eq_some_iff.1 hm
      obtain ⟨hliteral, hmisfit⟩ := Option.filter_eq_some_iff.1 hfound
      have hexpect : ⟨ty, found, span⟩ ∈ (c.expect e ty span).mismatches := by
        rw [Checker.expect, infer?, infer?_of_literal hliteral]
        simp_all
      have hopen := (Checked.expect hc e ty span).ne_nil
      have hbinding := (Checked.declareBinding hopen (some ty) binding).mismatches.subset hexpect
      rw [varDecl]
      simpa [expr_of_literal hliteral, Checker.expectDeclared] using hbinding

mutual

theorem checks_expr : ∀ e : Expr, Checks [] (e.statements false) (expr e)
  | .ident .. | .number .. | .string .. | .bool .. => .skip
  | .member _ object _ => checks_expr object
  | .element _ object index => (checks_expr object).comp (checks_expr index)
  | .binary _ lhs _ rhs => (checks_expr lhs).comp (checks_expr rhs)
  | .unary _ _ operand | .increment _ operand => checks_expr operand
  | .assign id target op value => fun c hc => by
    have hvalue := checks_expr value c hc
    have htarget := checks_expr target _ hvalue.ne_nil
    by_cases hname : ∃ i name, target = .ident i name ∧ op = .assign
    · obtain ⟨i, name, rfl, rfl⟩ := hname
      have hexpect := hvalue.trans (.expectDeclared hvalue.ne_nil value
        ((expr value c).lookup? name).join ((expr value c).provenance.get id))
      exact hexpect.mono fun t ht => by simpa [Expr.statements] using ht
    · rw [expr_assign hname]
      exact (hvalue.trans htarget).mono fun t ht => by simpa [Expr.statements, or_comm] using ht
  | .spread _ value => checks_expr value
  | .array _ elements => checks_exprs elements
  | .object _ properties => checks_properties properties
  | .call _ callee args => (checks_expr callee).comp (checks_exprs args)
  | .function _ func => checks_function func

theorem checks_exprs : ∀ es : List Expr, Checks [] (exprStatements false es) (exprs es)
  | [] => .skip
  | e :: es => (checks_expr e).comp (checks_exprs es)

theorem checks_properties : ∀ ps : List Property,
    Checks [] (propertyStatements false ps) (propertyValues ps)
  | [] => .skip
  | .named _ value :: ps | .computed _ value :: ps =>
    (checks_expr value).comp (checks_properties ps)

theorem checks_function : ∀ func : Function, Checks [] (func.statements false) (function func)
  | .mk params returnType body => fun c hc => by
    refine .function hc (checks_block body (c.enter params returnType) ?_)
    obtain ⟨top, henter⟩ := enter_scopes params returnType c
    simp [henter]

theorem checks_varDecl (span : Span) : ∀ decl : VarDecl,
    Checks decl.declares (decl.statements false) (varDecl span decl)
  | .mk _ binding ty none => fun _ hc => .declareBinding hc ty binding
  | .mk _ binding ty (some e) => fun c hc => by
    have he := checks_expr e c hc
    have hexpect := he.trans (.expectDeclared he.ne_nil e ty span)
    have hbinding := hexpect.trans (.declareBinding hexpect.ne_nil ty binding)
    simp only [List.append_nil, List.nil_append] at hbinding
    exact hbinding

theorem checks_methods : ∀ ms : List Method, Checks [] (methodStatements false ms) (methods ms)
  | [] => .skip
  | .mk _ _ _ func :: ms => (checks_function func).comp (checks_methods ms)

theorem checks_else : ∀ branch : Else,
    Checks branch.declares (branch.statements false) (elseBranch branch)
  | .none => .skip
  | .elseIf s => checks_stmt s
  | .block body => (checks_block body).nested

theorem checks_stmt : ∀ s : Stmt, Checks s.declares (s.statements false) (stmt s)
  | .var id decl => fun c hc => by
    have h := checks_varDecl (c.provenance.get id) decl c hc
    exact { h with found := List.forall_mem_cons.2 ⟨fun m hm => mem_varDecl hc hm, h.found⟩ }
  | .functionDecl id name exported func =>
    .cons ((Checks.declare name none).comp (checks_function func)) fun _ => rfl
  | .classDecl id name ms =>
    .cons ((Checks.declare name none).comp (checks_methods ms)) fun _ => rfl
  | .expr id e | .exportAssign id e => .cons (checks_expr e) fun _ => rfl
  | .returnStmt id none | .breakStmt id => Checks.skip.cons fun _ => rfl
  | .returnStmt id (some e) => by
    refine .cons (fun c hc => ?_) fun _ => rfl
    have he := checks_expr e c hc
    have hexpect := he.trans (.expectDeclared he.ne_nil e (expr e c).returnType?
      ((expr e c).provenance.get e.id))
    rw [List.append_nil, List.append_nil] at hexpect
    exact hexpect
  | .ifStmt id cond thenBlock branch =>
    .cons ((checks_expr cond).comp ((checks_block thenBlock).nested.comp (checks_else branch)))
      fun _ => rfl
  | .forLoop id init test update body => fun c hc => by
    have hheader := (checks_varDecl (c.provenance.get id) init).comp
      ((checks_expr test).comp ((checks_expr update).comp (checks_block body).nested))
    exact hheader.nested.cons (fun _ => rfl) c hc
  | .forOf id binding iterable body => by
    have hbinding : Checks _ [] (·.declareBinding none binding) :=
      fun _ hc => .declareBinding hc none binding
    exact .cons ((checks_expr iterable).comp (hbinding.comp (checks_block body).nested).nested)
      fun _ => rfl
  | .whileLoop id cond body =>
    .cons ((checks_expr cond).comp (checks_block body).nested) fun _ => rfl

theorem checks_block : ∀ ss : List Stmt,
    Checks (ss.flatMap Stmt.declares) (statementsOf false ss) (block ss)
  | [] => .skip
  | s :: ss => (checks_stmt s).comp (checks_block ss)

end

end Checker

end LuaTranspiler
