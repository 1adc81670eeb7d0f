import LuaTranspiler.Proofs.Lowering.Documented
import LuaTranspiler.Proofs.Source.Shape

/-!
# What is reported about parameters

A parameter is reported unless exactly one tag of its statement gives it a type. Lowering makes the
reports of a function before those of its body and meets every function that is not lost in a
rewrite once, so the reports are known from the source alone. The functions that are built take the
parameters of these functions in the same order, with the types of the first tags.

* `report?`, `warning?`: what is to be reported of a parameter
* `Target.Stmt.headers`: the parameters of the functions in a tree, at every depth
* `Emits`: the parameters that a function is built with
* `Reports ds m post`: `m` makes the reports `ds`, and what it builds satisfies `post`
* `Tells xs m headers`: `m` reports the functions `xs` and builds them with their parameters
* `reports_lowerExpr`, `reports_lowerStmt`, `tells_lowerBlock`: one case for each kind of tree
* `lowerChunk_reports_exactly`: the reports of a whole source
-/

namespace LuaTranspiler

/-! ### Tags for a parameter -/

/-- Whether a tag gives a type to the parameter `name`. -/
def Tag.isTypeOf (name : String) : Tag → Bool
  | .typedParam n _ _ => n = name
  | _ => false

theorem Tag.length_paramTypes (name : String) (tags : List Tag) :
    (Tag.paramTypes name tags).length = tags.countP (Tag.isTypeOf name) := by
  induction tags with
  | nil => rfl
  | cons tag tags ih =>
    simp only [Tag.paramTypes] at ih
    cases tag with
    | typedParam n ty description =>
      by_cases hn : n = name <;> simp [Tag.paramTypes, Tag.isTypeOf, hn, ih]
    | param | returns | typedReturn | varType | classmod | module =>
      simp [Tag.paramTypes, Tag.isTypeOf, ih]

/-! ### Parameters in trees -/

namespace Target

mutual

/-- The parameters of the functions in an expression, at every depth. -/
def Expr.headers : Expr → List (List Param)
  | .ident .. | .number .. | .string .. | .bool .. => []
  | .member _ object _ => object.headers
  | .element _ object index => object.headers ++ index.headers
  | .binary _ lhs _ rhs => lhs.headers ++ rhs.headers
  | .unary _ _ operand | .increment _ operand => operand.headers
  | .assign _ target _ value => target.headers ++ value.headers
  | .spread _ value => value.headers
  | .array _ elements => exprHeaders elements
  | .object _ properties => propertyHeaders properties
  | .call _ callee args => callee.headers ++ exprHeaders args
  | .function _ func => func.headers

/-- The same for expressions. -/
def exprHeaders : List Expr → List (List Param)
  | [] => []
  | e :: es => e.headers ++ exprHeaders es

/-- The same for an expression that may be missing. -/
def optionHeaders : Option Expr → List (List Param)
  | none => []
  | some e => e.headers

/-- The same for properties. -/
def propertyHeaders : List Property → List (List Param)
  | [] => []
  | .named _ value :: ps => value.headers ++ propertyHeaders ps
  | .computed key value :: ps => key.headers ++ (value.headers ++ propertyHeaders ps)

/-- The parameters of a function, and those of the functions in its body. -/
def Function.headers : Function → List (List Param)
  | .mk params _ body => params :: stmtHeaders body

/-- The same for the initial value of a declaration. -/
def VarDecl.headers : VarDecl → List (List Param)
  | .mk _ _ _ init => optionHeaders init

/-- The same for methods. -/
def methodHeaders : List Method → List (List Param)
  | [] => []
  | .mk _ _ _ func :: ms => func.headers ++ methodHeaders ms

/-- The same for what follows the block of an `if`. -/
def Else.headers : Else → List (List Param)
  | .none => []
  | .elseIf s => s.headers
  | .block body => [] :: stmtHeaders body

/-- The same for a statement. A block that is not the body of a function has no parameters. -/
def Stmt.headers : Stmt → List (List Param)
  | .var _ decl => decl.headers
  | .functionDecl _ _ _ func => func.headers
  | .classDecl _ _ methods => methodHeaders methods
  | .expr _ e => e.headers
  | .returnStmt _ value => optionHeaders value
  | .exportAssign _ value => value.headers
  | .ifStmt _ cond thenBlock branch =>
    cond.headers ++ ([] :: (stmtHeaders thenBlock ++ branch.headers))
  | .forLoop _ init test update body =>
    init.headers ++ (test.headers ++ (update.headers ++ ([] :: stmtHeaders body)))
  | .forOf _ _ iterable body => iterable.headers ++ ([] :: stmtHeaders body)
  | .whileLoop _ cond body => cond.headers ++ ([] :: stmtHeaders body)
  | .breakStmt _ => []

/-- The same for statements. -/
def stmtHeaders : List Stmt → List (List Param)
  | [] => []
  | s :: ss => s.headers ++ stmtHeaders ss

end

theorem stmtHeaders_append (ss ts : List Stmt) :
    stmtHeaders (ss ++ ts) = stmtHeaders ss ++ stmtHeaders ts := by
  induction ss with
  | nil => rfl
  | cons s ss ih => simp [stmtHeaders, ih]

end Target

namespace Lowering

open Source (Block Comment Function)

/-! ### What is to be reported -/

/-- What is reported of a parameter of a function in a statement with the given tags. -/
def report? (tags : List Tag) (p : Source.Param) : Option Diagnostic :=
  match tags.countP (Tag.isTypeOf p.tagName) with
  | 0 => some (.untyped p.tagName p.span)
  | 1 => none
  | _ => some (.manyTypes p.tagName p.span)

/-- How that reads: the line and column of the parameter, and whether it has no type or several. -/
def warning? (tags : List Tag) (p : Source.Param) : Option String :=
  match tags.countP (Tag.isTypeOf p.tagName) with
  | 0 => some (p.span.text ++ " Parameter " ++ p.tagName ++ " does not have a type signature. " ++
      "Use \"@tparam <type> " ++ p.tagName ++ "\" to define this.")
  | 1 => none
  | _ => some (p.span.text ++ " Many @tparams found for parameter " ++ p.tagName ++
      ". Using the first one.")

theorem map_message_report? (tags : List Tag) (p : Source.Param) :
    (report? tags p).map Diagnostic.message = warning? tags p := by
  unfold report? warning?
  split <;> rfl

/-- The reports of a function with the tags of its statement. -/
def reports (x : Function × List Tag) : List Diagnostic := x.1.params.filterMap (report? x.2)

/-- How the reports of a function read. -/
def warnings (x : Function × List Tag) : List String := x.1.params.filterMap (warning? x.2)

theorem map_message_reports (xs : List (Function × List Tag)) :
    (xs.flatMap reports).map Diagnostic.message = xs.flatMap warnings := by
  rw [List.map_flatMap]
  refine congrArg (List.flatMap · xs) (funext fun x => ?_)
  rw [reports, List.map_filterMap, warnings]
  exact congrArg (List.filterMap · _) (funext (map_message_report? x.2))

/-- A parameter as it is built, with a type that it may have. -/
def builtParam (ty : Option Ty) : Source.Param → Target.Param
  | .named name _ => ⟨name, false, ty⟩
  | .vararg _ => ⟨"vararg", true, ty⟩

/-- What is built of a parameter: it has the type that the first tag for it writes, if any. -/
inductive EmittedAs (tags : List Tag) (p : Source.Param) : Target.Param → Prop
  | untyped : Tag.paramTypes p.tagName tags = [] → EmittedAs tags p (builtParam none p)
  | typed {type types ty} : Tag.paramTypes p.tagName tags = type :: types →
      writtenType p.span type = .ok ty → EmittedAs tags p (builtParam (some ty) p)

/-- A function is built with parameters for its own. Before them it may take the value that it is
called on. -/
def Emits (x : Function × List Tag) (qs : List Target.Param) : Prop :=
  ∃ ps, List.Forall₂ (EmittedAs x.2) x.1.params ps ∧ (qs = ps ∨ qs = selfParam :: ps)

/-! ### Steps that report -/

section Reports

variable {α β : Type} {ds ds' : List Diagnostic} {m : Lower α} {q : α → Lower β} {post : α → Prop}
  {post' : β → Prop}

/-- If `m` succeeds, then it has added the reports `ds`, and what it builds satisfies `post`. -/
def Reports (ds : List Diagnostic) (m : Lower α) (post : α → Prop) : Prop :=
  ∀ st a st', m st = .ok a st' → st'.diagnostics = st.diagnostics ++ ds ∧ post a

namespace Reports

theorem pure {a : α} (h : post a) : Reports [] (pure a) post := by
  rintro st _ _ ⟨⟩
  exact ⟨(List.append_nil _).symm, h⟩

theorem throw {e : Error} : Reports ds (throw e) post := by
  rintro st _ _ ⟨⟩

theorem node {span : Span} {build : Nat → α} (h : ∀ id, post (build id)) :
    Reports [] (node span build) post := by
  rintro st _ _ ⟨⟩
  exact ⟨(List.append_nil _).symm, h _⟩

theorem diagnose (d : Diagnostic) : Reports [d] (diagnose d) fun _ => True := by
  rintro st _ _ ⟨⟩
  exact ⟨rfl, trivial⟩

theorem ofExcept {r : Except Error α} : Reports [] (ofExcept r) fun a => r = .ok a := by
  cases r with
  | ok a => exact .pure rfl
  | error e => exact .throw

theorem bind (hm : Reports ds m post) (hq : ∀ a, post a → Reports ds' (q a) post') :
    Reports (ds ++ ds') (m >>= q) post' := by
  intro st b st₂ h
  simp only [Bind.bind, EStateM.bind] at h
  split at h
  next a st₁ ha =>
    obtain ⟨hds, hpost⟩ := hm st a st₁ ha
    obtain ⟨hds', hpost'⟩ := hq a hpost st₁ b st₂ h
    exact ⟨by rw [hds', hds, List.append_assoc], hpost'⟩
  next => cases h

/-- The rest reports nothing. -/
theorem last (hm : Reports ds m post) (hq : ∀ a, post a → Reports [] (q a) post') :
    Reports ds (m >>= q) post' := by
  simpa using hm.bind hq

/-- The first step reports nothing. -/
theorem after (hm : Reports [] m post) (hq : ∀ a, post a → Reports ds (q a) post') :
    Reports ds (m >>= q) post' := by
  simpa using hm.bind hq

theorem map {g : α → β} (hm : Reports ds m fun a => post' (g a)) : Reports ds (g <$> m) post' := by
  rw [← bind_pure_comp]
  exact hm.last fun a ha => .pure ha

theorem mono {post' : α → Prop} (hm : Reports ds m post) (himp : ∀ a, post a → post' a) :
    Reports ds m post' := by
  intro st a st' h
  obtain ⟨hds, hpost⟩ := hm st a st' h
  exact ⟨hds, himp a hpost⟩

end Reports

end Reports

/-! ### Parameters -/

theorem reports_lowerParam (tags : List Tag) (p : Source.Param) :
    Reports (report? tags p).toList (lowerParam tags p) (EmittedAs tags p) := by
  have hbuilt (ty : Option Ty) (h : EmittedAs tags p (builtParam ty p)) :
      Reports [] (match p with
        | .named name _ => return ⟨name, false, ty⟩
        | .vararg _ => return ⟨"vararg", true, ty⟩) (EmittedAs tags p) := by
    cases p <;> exact .pure h
  have htyped {type : String} {types : List String}
      (htypes : Tag.paramTypes p.tagName tags = type :: types) :
      Reports [] (some <$> ofExcept (writtenType p.span type) : Lower (Option Ty))
        fun ty => EmittedAs tags p (builtParam ty p) :=
    .map (Reports.ofExcept.mono fun ty hty => .typed htypes hty)
  unfold lowerParam report?
  rw [← Tag.length_paramTypes]
  cases htypes : Tag.paramTypes p.tagName tags with
  | nil =>
    refine (Reports.diagnose _).last fun _ _ => ?_
    exact Reports.after (.pure (.untyped htypes)) fun ty hty => hbuilt ty hty
  | cons type types =>
    cases types with
    | nil => exact (htyped htypes).after fun ty hty => hbuilt ty hty
    | cons type' types =>
      refine (Reports.diagnose _).last fun _ _ => ?_
      exact (htyped htypes).after fun ty hty => hbuilt ty hty

theorem reports_lowerParams (tags : List Tag) (ps : List Source.Param) :
    Reports (ps.filterMap (report? tags)) (lowerParams tags ps)
      (List.Forall₂ (EmittedAs tags) ps) := by
  induction ps with
  | nil => exact .pure .nil
  | cons p ps ih =>
    have hcons : (p :: ps).filterMap (report? tags) =
        (report? tags p).toList ++ ps.filterMap (report? tags) := by
      cases h : report? tags p <;> simp [h]
    rw [hcons, lowerParams]
    exact (reports_lowerParam tags p).bind fun q hq => ih.last fun qs hqs => .pure (.cons hq hqs)

/-! ### Expressions -/

section Trees

variable {ctx : Context} {tags : List Tag} {fs : List Function} {b : Block} {bs : List Block}

attribute [local simp] Target.Expr.headers Target.exprHeaders Target.propertyHeaders
  Target.Stmt.headers

/-- The reports of the functions `fs` of a statement and of those in their bodies, in the order of
the lowering. -/
def reportsIn (ctx : Context) (tags : List Tag) (fs : List Function) : List Diagnostic :=
  (within ctx true tags fs).flatMap reports

/-- The functions `fs` of a statement and those in their bodies are built with parameters for their
own, in the order of the lowering. -/
def EmitsIn (ctx : Context) (tags : List Tag) (fs : List Function)
    (headers : List (List Target.Param)) : Prop :=
  List.Forall₂ Emits (within ctx true tags fs) headers

@[simp] theorem reportsIn_nil : reportsIn ctx tags [] = [] := rfl

@[simp] theorem reportsIn_append {gs : List Function} :
    reportsIn ctx tags (fs ++ gs) = reportsIn ctx tags fs ++ reportsIn ctx tags gs := by
  rw [reportsIn, within_append, List.flatMap_append, reportsIn, reportsIn]

theorem EmitsIn.nil : EmitsIn ctx tags [] [] := List.Forall₂.nil

theorem EmitsIn.append {gs : List Function} {hs hs' : List (List Target.Param)}
    (h : EmitsIn ctx tags fs hs) (h' : EmitsIn ctx tags gs hs') :
    EmitsIn ctx tags (fs ++ gs) (hs ++ hs') := by
  rw [EmitsIn, within_append]
  exact List.rel_append h h'

/-- If `m` succeeds, then it has reported the functions `xs` and built them with their parameters. -/
def Tells {α : Type} (xs : List (Function × List Tag)) (m : Lower α)
    (headers : α → List (List Target.Param)) : Prop :=
  Reports (xs.flatMap reports) m fun a => List.Forall₂ Emits xs (headers a)

/-- The lowering of each of these blocks, as an inner block, tells of the functions in it. -/
def Told (ctx : Context) (bs : List Block) : Prop :=
  ∀ b ∈ bs, Tells (documented ctx true false b) (lowerBlock ctx false b) Target.stmtHeaders

/-- A block that is no body of a function has nothing to report of its own. -/
theorem reports_bare (hb : Told ctx [b]) :
    Reports (reportsIn ctx tags [b.bare]) (lowerBlock ctx false b) fun out =>
      EmitsIn ctx tags [b.bare] ([] :: Target.stmtHeaders out) := by
  have hreports : reportsIn ctx tags [b.bare] = (documented ctx true false b).flatMap reports := by
    simp [reportsIn, reports]
  rw [hreports]
  refine (hb b List.mem_cons_self).mono fun out hout => ?_
  rw [EmitsIn, within_cons, within_nil, List.append_nil]
  exact .cons ⟨[], .nil, .inl rfl⟩ hout

theorem reports_lowerFunction {method : Bool} {ty : Option Ty} {func : Function}
    (hb : Told ctx [func.body]) :
    Reports (reportsIn ctx tags [func]) (lowerFunction ctx tags method ty func) fun f =>
      EmitsIn ctx tags [func] f.headers := by
  obtain ⟨params, body⟩ := func
  have hreports : reportsIn ctx tags [.mk params body] = params.filterMap (report? tags) ++
      (documented ctx true false body).flatMap reports := by
    simp [reportsIn, reports, Source.Function.params, Source.Function.body]
  rw [hreports, lowerFunction]
  refine (reports_lowerParams tags params).bind fun ps hps => ?_
  refine (hb body List.mem_cons_self).last fun stmts hstmts => .pure ?_
  rw [EmitsIn, within_cons, within_nil, List.append_nil]
  refine .cons ⟨ps, hps, ?_⟩ hstmts
  cases method with
  | true => exact .inr rfl
  | false => exact .inl rfl

theorem reports_ident {span : Span} {text : String} :
    Reports [] (node span (.ident · text)) fun e : Target.Expr => e.headers = [] :=
  .node fun _ => by simp

theorem reports_lowerUnary {span : Span} (e : Target.Expr) (op : Source.UnaryOp) :
    Reports [] (lowerUnary span e op) fun a => a.headers = e.headers := by
  cases op <;> rw [lowerUnary] <;> refine .node fun _ => ?_ <;> simp

theorem reports_lowerLiteral {span : Span} (value : Source.Literal) :
    Reports [] (lowerLiteral span value) fun a => a.headers = [] := by
  cases value with
  | vararg => exact reports_ident.after fun rest hrest => .node fun _ => by simp [hrest]
  | number | string | bool | nil =>
    rw [lowerLiteral]
    exact .node fun _ => by simp

mutual

theorem reports_lowerExpr : ∀ e : Source.Expr, Told ctx e.inner →
    Reports (reportsIn ctx tags e.functions) (lowerExpr ctx tags e) fun a =>
      EmitsIn ctx tags e.functions a.headers
  | .ident .., _ => by
    rw [lowerExpr, Source.Expr.functions]
    refine reports_ident.mono fun a ha => ?_
    rw [ha]
    exact .nil
  | .literal value span, _ => by
    rw [lowerExpr, Source.Expr.functions]
    refine (reports_lowerLiteral value).mono fun a ha => ?_
    rw [ha]
    exact .nil
  | .member base .., hb => by
    rw [lowerExpr, Source.Expr.functions]
    refine (reports_lowerExpr base hb).last fun object hobject => .node fun id => ?_
    simpa using hobject
  | .index base index _, hb => by
    obtain ⟨hbase, hindex⟩ := List.forall_mem_append.1 hb
    rw [lowerExpr, Source.Expr.functions, reportsIn_append]
    refine (reports_lowerExpr base hbase).bind fun object hobject => ?_
    refine (reports_lowerExpr index hindex).last fun i hi => .node fun id => ?_
    simpa using hobject.append hi
  | .unary op operand _, hb => by
    rw [lowerExpr, Source.Expr.functions]
    refine (reports_lowerExpr operand hb).last fun e he => ?_
    refine (reports_lowerUnary e op).mono fun a ha => ?_
    rwa [ha]
  | .binary lhs op rhs _, hb => by
    obtain ⟨hlhs, hrhs⟩ := List.forall_mem_append.1 hb
    rw [lowerExpr, Source.Expr.functions, reportsIn_append]
    split
    · exact .throw
    · refine (reports_lowerExpr lhs hlhs).bind fun a ha => ?_
      refine (reports_lowerExpr rhs hrhs).last fun b hb => .node fun id => ?_
      simpa using ha.append hb
  | .logical lhs _ rhs _, hb => by
    obtain ⟨hlhs, hrhs⟩ := List.forall_mem_append.1 hb
    rw [lowerExpr, Source.Expr.functions, reportsIn_append]
    refine (reports_lowerExpr lhs hlhs).bind fun a ha => ?_
    refine (reports_lowerExpr rhs hrhs).last fun b hb => .node fun id => ?_
    simpa using ha.append hb
  | .table fields _, hb => by
    rw [lowerExpr, Source.Expr.functions]
    split
    · split
      next hall =>
        refine (reports_lowerElements fields (List.all_eq_true.1 hall) hb).last fun as has => ?_
        exact .node fun id => by simpa using has
      next => exact .throw
    next hnone =>
      have hkeyed : ∀ f ∈ fields, f.isPositional = false := by simpa using hnone
      refine (reports_lowerProperties fields hkeyed hb).last fun ps hps => ?_
      exact .node fun id => by simpa using hps
  | .call base args _, hb => by
    obtain ⟨hbase, hargs⟩ := List.forall_mem_append.1 hb
    rw [lowerExpr, Source.Expr.functions, reportsIn_append]
    refine (reports_lowerExpr base hbase).bind fun callee hcallee => ?_
    refine (reports_lowerExprs args hargs).last fun as has => .node fun id => ?_
    simpa using hcallee.append has
  | .stringCall base argument _, hb | .tableCall base argument _, hb => by
    obtain ⟨hbase, hargument⟩ := List.forall_mem_append.1 hb
    rw [lowerExpr, Source.Expr.functions, reportsIn_append]
    refine (reports_lowerExpr base hbase).bind fun callee hcallee => ?_
    refine (reports_lowerExpr argument hargument).last fun a ha => .node fun id => ?_
    simpa using hcallee.append ha
  | .function func span, hb => by
    have hfunction : ∀ ty, Reports (reportsIn ctx tags [func]) (do
        let f ← lowerFunction ctx tags false ty func
        node span (Target.Expr.function · f)) fun a => EmitsIn ctx tags [func] a.headers := by
      intro ty
      refine (reports_lowerFunction hb).last fun f hf => .node fun id => ?_
      simpa using hf
    rw [lowerExpr, Source.Expr.functions]
    split
    · have hnone : Reports [] (pure none : Lower (Option Ty)) fun _ => True := .pure trivial
      exact hnone.after fun ty _ => hfunction ty
    · have hwritten : Reports [] (some <$> ofExcept (writtenReturnType span tags) :
          Lower (Option Ty)) fun _ => True := .map (Reports.ofExcept.mono fun _ _ => trivial)
      exact hwritten.after fun ty _ => hfunction ty

theorem reports_lowerExprs : ∀ es : List Source.Expr, Told ctx (Source.innerOfExprs es) →
    Reports (reportsIn ctx tags (Source.functionsOf es)) (lowerExprs ctx tags es) fun as =>
      EmitsIn ctx tags (Source.functionsOf es) (Target.exprHeaders as)
  | [], _ => by
    rw [lowerExprs, Source.functionsOf]
    exact .pure .nil
  | e :: es, hb => by
    obtain ⟨he, hes⟩ := List.forall_mem_append.1 hb
    rw [lowerExprs, Source.functionsOf, reportsIn_append]
    refine (reports_lowerExpr e he).bind fun a ha => ?_
    refine (reports_lowerExprs es hes).last fun as has => .pure ?_
    simpa using ha.append has

theorem reports_lowerElements : ∀ fs : List Source.Field, (∀ f ∈ fs, f.isPositional = true) →
    Told ctx (Source.innerOfFields fs) →
    Reports (reportsIn ctx tags (Source.functionsOfFields fs)) (lowerElements ctx tags fs) fun as =>
      EmitsIn ctx tags (Source.functionsOfFields fs) (Target.exprHeaders as)
  | [], _, _ => by
    rw [lowerElements, Source.functionsOfFields]
    exact .pure .nil
  | .positional value _ :: fs, hfs, hb => by
    obtain ⟨hvalue, hrest⟩ := List.forall_mem_append.1 hb
    rw [lowerElements, Source.functionsOfFields, reportsIn_append]
    refine (reports_lowerExpr value hvalue).bind fun a ha => ?_
    refine (reports_lowerElements fs (List.forall_mem_cons.1 hfs).2 hrest).last fun as has => ?_
    exact .pure (by simpa using ha.append has)
  | .keyed .. :: fs, hfs, _ | .named .. :: fs, hfs, _ => nomatch (List.forall_mem_cons.1 hfs).1

theorem reports_lowerProperties : ∀ fs : List Source.Field, (∀ f ∈ fs, f.isPositional = false) →
    Told ctx (Source.innerOfFields fs) →
    Reports (reportsIn ctx tags (Source.functionsOfFields fs)) (lowerProperties ctx tags fs)
      fun ps => EmitsIn ctx tags (Source.functionsOfFields fs) (Target.propertyHeaders ps)
  | [], _, _ => by
    rw [lowerProperties, Source.functionsOfFields]
    exact .pure .nil
  | .named _ value _ :: fs, hfs, hb => by
    obtain ⟨hvalue, hrest⟩ := List.forall_mem_append.1 hb
    rw [lowerProperties, Source.functionsOfFields, reportsIn_append]
    refine (reports_lowerExpr value hvalue).bind fun a ha => ?_
    refine (reports_lowerProperties fs (List.forall_mem_cons.1 hfs).2 hrest).last fun ps hps => ?_
    exact .pure (by simpa using ha.append hps)
  | .keyed key value _ :: fs, hfs, hb => by
    obtain ⟨hkey, hb⟩ := List.forall_mem_append.1 hb
    obtain ⟨hvalue, hrest⟩ := List.forall_mem_append.1 hb
    rw [lowerProperties, Source.functionsOfFields, reportsIn_append, reportsIn_append]
    refine (reports_lowerExpr key hkey).bind fun k hk => ?_
    refine (reports_lowerExpr value hvalue).bind fun a ha => ?_
    refine (reports_lowerProperties fs (List.forall_mem_cons.1 hfs).2 hrest).last fun ps hps => ?_
    exact .pure (by simpa using hk.append (ha.append hps))
  | .positional .. :: fs, hfs, _ => nomatch (List.forall_mem_cons.1 hfs).1

end

/-! ### Statements -/

theorem reports_lowerTargets (es : List Source.Expr) (hb : Told ctx (Source.innerOfExprs es)) :
    Reports (reportsIn ctx tags (Source.functionsOf es)) (lowerTargets ctx tags es) fun as =>
      EmitsIn ctx tags (Source.functionsOf es) (Target.exprHeaders as) := by
  induction es with
  | nil =>
    rw [lowerTargets, Source.functionsOf]
    exact .pure .nil
  | cons e es ih =>
    obtain ⟨he, hes⟩ := List.forall_mem_append.1 hb
    rw [lowerTargets, Source.functionsOf, reportsIn_append]
    split
    · refine (reports_lowerExpr e he).bind fun a ha => (ih hes).last fun as has => .pure ?_
      simpa using ha.append has
    · exact .throw

theorem reports_joinValues {span : Span} (es : List Target.Expr) :
    Reports [] (joinValues span es) fun o => Target.optionHeaders o = Target.exprHeaders es := by
  rcases es with _ | ⟨e, _ | ⟨e', es⟩⟩
  · exact .pure (by simp [Target.optionHeaders])
  · exact .pure (by simp [Target.optionHeaders])
  · exact .map (.node fun id => by simp [Target.optionHeaders])

theorem reports_joinTargets {span : Span} (es : List Target.Expr) :
    Reports [] (joinTargets span es) fun e => e.headers = Target.exprHeaders es := by
  have harray (es : List Target.Expr) : Reports [] (node span (.array · es))
      fun e : Target.Expr => e.headers = Target.exprHeaders es :=
    .node fun _ => by simp
  rcases es with _ | ⟨e, _ | ⟨e', es⟩⟩
  · exact harray []
  · exact .pure (by simp)
  · exact harray (e :: e' :: es)

/-- The parameters in the branches behind an `if` are those in its clauses, in order. -/
theorem reports_chain (xs : List (Target.Expr × List Target.Stmt × Span)) (last : Target.Else) :
    Reports [] (chain xs last) fun e => e.headers =
      (xs.flatMap fun x => x.1.headers ++ ([] :: Target.stmtHeaders x.2.1)) ++ last.headers := by
  induction xs with
  | nil => exact .pure rfl
  | cons x xs ih =>
    obtain ⟨cond, body, span⟩ := x
    have hstmt (rest : Target.Else) : Reports [] (node span (.ifStmt · cond body rest))
        fun s : Target.Stmt => s.headers =
          cond.headers ++ ([] :: (Target.stmtHeaders body ++ rest.headers)) :=
      .node fun _ => by simp
    refine ih.after fun rest hrest => (hstmt rest).after fun s hs => .pure ?_
    simp [Target.Else.headers, hs, hrest]

theorem reports_lowerClauses (cs : List Source.Clause)
    (hb : Told ctx (Source.innerOfClauses cs)) :
    Reports (reportsIn ctx tags (Source.scopesOfClauses cs)) (lowerClauses ctx tags cs) fun xs =>
      EmitsIn ctx tags (Source.scopesOfClauses cs)
        (xs.flatMap fun x => x.1.headers ++ ([] :: Target.stmtHeaders x.2.1)) := by
  induction cs with
  | nil =>
    rw [lowerClauses]
    exact .pure .nil
  | cons c cs ih =>
    obtain ⟨cond, block⟩ := c
    obtain ⟨hcond, hb⟩ := List.forall_mem_append.1 hb
    obtain ⟨hblock, hcs⟩ := List.forall_mem_cons.1 hb
    rw [lowerClauses, Source.scopesOfClauses, ← List.singleton_append, reportsIn_append,
      reportsIn_append]
    refine (reports_lowerExpr cond hcond).bind fun c hc => ?_
    refine (reports_bare (List.forall_mem_singleton.2 hblock)).bind fun body hbody => ?_
    refine (ih hcs).last fun xs hxs => .pure ?_
    simpa using hc.append (hbody.append hxs)

/-- An assignment as a statement holds the functions of its two sides. -/
theorem reports_assignment {span : Span} (target value : Target.Expr) :
    Reports [] (do
      let e ← node span (.assign · target .assign value)
      node span (.expr · e)) fun t : Target.Stmt => t.headers = target.headers ++ value.headers := by
  have hassign : Reports [] (node span (.assign · target .assign value)) fun e : Target.Expr =>
      e.headers = target.headers ++ value.headers :=
    .node fun _ => by simp
  exact hassign.after fun e he => .node fun _ => by simp [he]

section Statement

variable {top : Bool} {span : Span}

theorem reports_assign {targets init : List Source.Expr}
    (hb : Told ctx (Source.innerOfExprs targets ++ Source.innerOfExprs init)) :
    Reports (reportsIn ctx tags (Source.functionsOf targets ++ Source.functionsOf init))
      (lowerStmt ctx top tags (.assign targets init span)) fun t =>
        EmitsIn ctx tags (Source.functionsOf targets ++ Source.functionsOf init) t.headers := by
  obtain ⟨htargets, hinit⟩ := List.forall_mem_append.1 hb
  rw [lowerStmt, reportsIn_append]
  refine (reports_lowerTargets targets htargets).bind fun lhs hlhs => ?_
  refine (reports_joinTargets lhs).after fun target htarget => ?_
  refine (reports_lowerExprs init hinit).last fun values hvalues => ?_
  rw [← htarget] at hlhs
  refine (reports_joinValues values).after fun value hvalue => ?_
  rw [← hvalue] at hvalues
  have hassign (e : Target.Expr) (he : e.headers = Target.optionHeaders value) : Reports [] (do
      let e ← node span (.assign · target .assign e)
      node span (.expr · e)) fun t : Target.Stmt =>
        EmitsIn ctx tags (Source.functionsOf targets ++ Source.functionsOf init) t.headers := by
    refine (reports_assignment target e).mono fun t ht => ?_
    rw [ht, he]
    exact hlhs.append hvalues
  cases value with
  | some e => exact hassign e rfl
  | none => exact reports_ident.after fun e he => hassign e he

theorem reports_functionDecl {name : Source.Expr} {isLocal : Bool} {func : Function}
    (hb : Told ctx (name.inner ++ [func.body])) :
    Reports (reportsIn ctx tags (name.functions ++ [func]))
      (lowerStmt ctx top tags (.functionDecl name isLocal func span)) fun t =>
        EmitsIn ctx tags (name.functions ++ [func]) t.headers := by
  obtain ⟨hname, hbody⟩ := List.forall_mem_append.1 hb
  rw [lowerStmt]
  refine Reports.ofExcept.after fun ty _ => ?_
  -- stated before `name` is split, while it is still a part of the statement
  have htarget : Reports (reportsIn ctx tags name.functions) (lowerExpr ctx tags name) fun a =>
      EmitsIn ctx tags name.functions a.headers := reports_lowerExpr name hname
  split
  · refine (reports_lowerFunction hbody).last fun f hf => .node fun id => ?_
    simpa [Source.Expr.functions] using hf
  · rw [reportsIn_append]
    refine htarget.bind fun target htarget => (reports_lowerFunction hbody).last fun f hf => ?_
    have hvalue : Reports [] (node span (.function · f)) fun e : Target.Expr =>
        e.headers = f.headers :=
      .node fun _ => by simp
    refine hvalue.after fun value hvalue => (reports_assignment target value).mono fun t ht => ?_
    rw [ht, hvalue]
    exact htarget.append hf
  · exact .throw

theorem reports_ifStmt {cond : Source.Expr} {thenBlock : Block} {clauses : List Source.Clause}
    {elseBlock : Option Block}
    (hb : Told ctx (Source.Stmt.ifStmt cond thenBlock clauses elseBlock span).inner) :
    Reports (reportsIn ctx tags (Source.Stmt.ifStmt cond thenBlock clauses elseBlock span).scopes)
      (lowerStmt ctx top tags (.ifStmt cond thenBlock clauses elseBlock span)) fun t =>
        EmitsIn ctx tags (Source.Stmt.ifStmt cond thenBlock clauses elseBlock span).scopes
          t.headers := by
  obtain ⟨hcond, hb⟩ := List.forall_mem_append.1 hb
  obtain ⟨hthen, hb⟩ := List.forall_mem_cons.1 hb
  obtain ⟨hclauses, helse⟩ := List.forall_mem_append.1 hb
  rw [lowerStmt, Source.Stmt.scopes, ← List.singleton_append, reportsIn_append, reportsIn_append,
    reportsIn_append]
  refine (reports_lowerExpr cond hcond).bind fun c hc => ?_
  refine (reports_bare (List.forall_mem_singleton.2 hthen)).bind fun body hbody => ?_
  refine (reports_lowerClauses clauses hclauses).bind fun xs hxs => ?_
  have hbranch (last : Target.Else)
      (hlast : EmitsIn ctx tags (elseBlock.toList.map Block.bare) last.headers) : Reports [] (do
        let branch ← chain xs last
        node span (.ifStmt · c body branch)) fun t : Target.Stmt =>
          EmitsIn ctx tags (cond.functions ++ ([thenBlock.bare] ++
            (Source.scopesOfClauses clauses ++ elseBlock.toList.map Block.bare))) t.headers := by
    refine (reports_chain xs last).after fun branch hbranch => .node fun id => ?_
    simpa [hbranch] using hc.append (hbody.append (hxs.append hlast))
  cases elseBlock with
  | some block =>
    refine Reports.last (.map ((reports_bare helse).mono fun out hout => ?_)) hbranch
    simpa [Target.Else.headers] using hout
  | none => exact Reports.after (.pure .nil) hbranch

theorem reports_forNumeric {var : Source.Name} {start stop : Source.Expr}
    {step : Option Source.Expr} {block : Block}
    (hb : Told ctx (Source.Stmt.forNumeric var start stop step block span).inner) :
    Reports (reportsIn ctx tags (Source.Stmt.forNumeric var start stop step block span).scopes)
      (lowerStmt ctx top tags (.forNumeric var start stop step block span)) fun t =>
        EmitsIn ctx tags (Source.Stmt.forNumeric var start stop step block span).scopes
          t.headers := by
  obtain ⟨hstart, hb⟩ := List.forall_mem_append.1 hb
  obtain ⟨hstop, hb⟩ := List.forall_mem_append.1 hb
  obtain ⟨hstep, hblock⟩ := List.forall_mem_append.1 hb
  rw [lowerStmt, Source.Stmt.scopes, reportsIn_append, reportsIn_append, reportsIn_append]
  refine (reports_lowerExpr start hstart).bind fun first hfirst => ?_
  refine (reports_lowerExpr stop hstop).bind fun last hlast => ?_
  have hloop (amount : Option Target.Expr)
      (hamount : EmitsIn ctx tags (Source.functionsOf step.toList) (Target.optionHeaders amount)) :
      Reports (reportsIn ctx tags [block.bare]) (do
        let counter ← node var.span (.ident · var.text)
        let test ← node span (.binary · counter .lessEq last)
        let counter ← node var.span (.ident · var.text)
        let update ← match amount with
          | none => node span (.increment · counter)
          | some amount => node span (.assign · counter .addAssign amount)
        let body ← lowerBlock ctx false block
        node span (.forLoop · (.mk .let (.ident var.text) none (some first)) test update body))
          fun t : Target.Stmt => EmitsIn ctx tags (start.functions ++ (stop.functions ++
            (Source.functionsOf step.toList ++ [block.bare]))) t.headers := by
    refine reports_ident.after fun counter hcounter => ?_
    have htest : Reports [] (node span (.binary · counter .lessEq last)) fun e : Target.Expr =>
        e.headers = last.headers :=
      .node fun _ => by simp [hcounter]
    refine htest.after fun test htest => reports_ident.after fun counter' hcounter' => ?_
    have hbody (update : Target.Expr) (hupdate : update.headers = Target.optionHeaders amount) :
        Reports (reportsIn ctx tags [block.bare]) (do
          let body ← lowerBlock ctx false block
          node span (.forLoop · (.mk .let (.ident var.text) none (some first)) test update body))
            fun t : Target.Stmt => EmitsIn ctx tags (start.functions ++ (stop.functions ++
              (Source.functionsOf step.toList ++ [block.bare]))) t.headers := by
      refine (reports_bare hblock).last fun body hbody => .node fun id => ?_
      simpa [Target.VarDecl.headers, Target.optionHeaders, htest, hupdate] using
        hfirst.append (hlast.append (hamount.append hbody))
    cases amount with
    | none =>
      refine Reports.after (.node fun id => ?_) hbody
      simp [hcounter', Target.optionHeaders]
    | some amount =>
      refine Reports.after (.node fun id => ?_) hbody
      simp [hcounter', Target.optionHeaders]
  cases step with
  | none => exact Reports.after (.pure .nil) hloop
  | some step =>
    rw [Option.toList_some, Source.innerOfExprs_singleton] at hstep
    have hamount : Reports (reportsIn ctx tags step.functions) (some <$> lowerExpr ctx tags step)
        fun amount => EmitsIn ctx tags step.functions (Target.optionHeaders amount) :=
      .map (reports_lowerExpr step hstep)
    simp only [Option.toList_some, Source.functionsOf, List.append_nil] at hloop ⊢
    exact hamount.bind hloop

/-- A statement makes the reports of the functions in it. -/
theorem reports_lowerStmt (s : Source.Stmt) (hb : Told ctx s.inner) :
    Reports (reportsIn ctx tags s.scopes) (lowerStmt ctx top tags s) fun t =>
      EmitsIn ctx tags s.scopes t.headers := by
  cases s with
  | localDecl names init span =>
    rw [lowerStmt, Source.Stmt.scopes]
    refine Reports.ofExcept.after fun ty _ => ?_
    refine (reports_lowerExprs init hb).last fun values hvalues => ?_
    refine (reports_joinValues values).after fun value hvalue => .node fun id => ?_
    simpa [Target.VarDecl.headers, hvalue] using hvalues
  | assign targets init span => exact reports_assign hb
  | call e span =>
    rw [lowerStmt, Source.Stmt.scopes]
    refine (reports_lowerExpr e hb).last fun a ha => .node fun id => ?_
    simpa using ha
  | functionDecl name isLocal func span => exact reports_functionDecl hb
  | returnStmt values span =>
    rw [lowerStmt, Source.Stmt.scopes]
    refine (reports_lowerExprs values hb).last fun es hes => ?_
    refine (reports_joinValues es).after fun value hvalue => ?_
    rw [← hvalue] at hes
    cases value with
    | none => exact .node fun id => by simpa using hes
    | some value =>
      dsimp only
      split <;> exact .node fun id => by simpa [Target.optionHeaders] using hes
  | ifStmt cond thenBlock clauses elseBlock span => exact reports_ifStmt hb
  | whileLoop cond block span =>
    obtain ⟨hcond, hblock⟩ := List.forall_mem_append.1 hb
    rw [lowerStmt, Source.Stmt.scopes, reportsIn_append]
    refine (reports_lowerExpr cond hcond).bind fun c hc => ?_
    refine (reports_bare hblock).last fun body hbody => .node fun id => ?_
    simpa using hc.append hbody
  | forNumeric var start stop step block span => exact reports_forNumeric hb
  | forGeneric vars iterators block span =>
    obtain ⟨hiterators, hblock⟩ := List.forall_mem_append.1 hb
    rw [Source.Stmt.scopes, reportsIn_append]
    have hbody (iterable : Target.Expr) (h : EmitsIn ctx tags (Source.functionsOf iterators)
        iterable.headers) : Reports (reportsIn ctx tags [block.bare]) (do
          let body ← lowerBlock ctx false block
          node span (.forOf · (.array (vars.map Source.Name.text)) iterable body))
            fun t : Target.Stmt =>
              EmitsIn ctx tags (Source.functionsOf iterators ++ [block.bare]) t.headers := by
      refine (reports_bare hblock).last fun body hbody => .node fun id => ?_
      simpa using h.append hbody
    rcases iterators with _ | ⟨e, _ | ⟨e', es⟩⟩
    · rw [lowerStmt]
      refine reports_ident.after fun iterable h => hbody iterable ?_
      rw [h]
      exact .nil
    · rw [Source.innerOfExprs_singleton] at hiterators
      rw [lowerStmt]
      simp only [Source.functionsOf, List.append_nil] at hbody ⊢
      exact (reports_lowerExpr e hiterators).bind hbody
    · rw [lowerStmt]
      exact .throw
  | breakStmt span =>
    rw [lowerStmt, Source.Stmt.scopes]
    exact .node fun id => by simpa using EmitsIn.nil
  | repeatLoop | doBlock | goto | label =>
    rw [lowerStmt]
    exact .throw

end Statement

/-! ### Blocks -/

theorem Tells.pure_nil {α : Type} {a : α} {headers : α → List (List Target.Param)}
    (h : headers a = []) : Tells [] (pure a) headers := by
  refine .pure ?_
  rw [h]
  exact .nil

/-- One step tells of `xs`, the next of `ys`, and what is built holds first the one and then the
other. -/
theorem Tells.append {α β γ : Type} {xs ys : List (Function × List Tag)} {m : Lower α}
    {m' : Lower β} {f : α → List (List Target.Param)} {g : β → List (List Target.Param)}
    {join : α → β → γ} {h : γ → List (List Target.Param)} (hm : Tells xs m f) (hm' : Tells ys m' g)
    (hjoin : ∀ a b, h (join a b) = f a ++ g b) : Tells (xs ++ ys) (do
      let a ← m
      let b ← m'
      return join a b) h := by
  rw [Tells, List.flatMap_append]
  refine Reports.bind hm fun a ha => Reports.last hm' fun b hb => .pure ?_
  rw [hjoin]
  exact List.rel_append ha hb

theorem tells_lowerStmts {top : Bool} {keep : Source.Stmt → Bool} {floor : Nat}
    {ss : List Source.Stmt} (hb : ∀ s ∈ ss, Told ctx s.inner) :
    Tells (gathered ctx true
        ((Source.commentedFrom ctx.comments floor ss).filter fun x => keep x.1))
      (lowerStmts ctx top keep floor ss) Target.stmtHeaders := by
  induction ss generalizing floor with
  | nil =>
    rw [lowerStmts]
    exact .pure_nil rfl
  | cons s ss ih =>
    obtain ⟨hs, hss⟩ := List.forall_mem_cons.1 hb
    rw [lowerStmts, Source.commentedFrom]
    split
    next hkeep =>
      rw [List.filter_cons, if_pos hkeep, gathered_cons]
      exact Tells.append (reports_lowerStmt s hs) (ih hss) fun _ _ => rfl
    next hkeep =>
      rw [List.filter_cons, if_neg hkeep]
      exact ih hss

section Members

variable {floor : Nat} {s : Source.Stmt} {ss : List Source.Stmt}

theorem tells_lowerExport (hs : s.WellFormed) (hb : Told ctx s.inner) :
    Tells (within ctx true tags s.scopes) (lowerExport ctx tags s) Target.Stmt.headers := by
  cases s with
  | functionDecl name isLocal func span =>
    rw [Source.Stmt.inner_functionDecl hs] at hb
    rw [Source.Stmt.scopes_functionDecl hs]
    cases name with
    | member base indexer member =>
      rw [lowerExport]
      split
      · exact .throw
      · refine Reports.ofExcept.after fun ty _ => (reports_lowerFunction hb).last fun f hf => ?_
        exact .node fun id => hf
    | _ => exact .throw
  | _ => exact .throw

theorem tells_lowerExports (hss : ∀ s ∈ ss, s.WellFormed ∧ Told ctx s.inner) :
    Tells (gathered ctx true (members (Source.commentedFrom ctx.comments floor ss)))
      (lowerExports ctx floor ss) Target.stmtHeaders := by
  induction ss generalizing floor with
  | nil =>
    rw [lowerExports]
    exact .pure_nil rfl
  | cons s ss ih =>
    obtain ⟨⟨hs, hb⟩, hss⟩ := List.forall_mem_cons.1 hss
    rw [lowerExports, Source.commentedFrom]
    split
    next hmember =>
      rw [members_cons hmember, gathered_cons]
      exact Tells.append (tells_lowerExport hs hb) (ih hss) fun _ _ => rfl
    next hmember =>
      rw [members_cons_of_not hmember]
      exact ih hss

theorem tells_lowerMethod (hs : s.WellFormed) (hb : Told ctx s.inner) :
    Tells (within ctx true tags s.scopes) (lowerMethod ctx tags s) fun m =>
      Target.methodHeaders [m] := by
  cases s with
  | functionDecl name isLocal func span =>
    rw [Source.Stmt.inner_functionDecl hs] at hb
    rw [Source.Stmt.scopes_functionDecl hs]
    cases name with
    | member base indexer member =>
      rw [lowerMethod]
      refine Reports.ofExcept.after fun ty _ => (reports_lowerFunction hb).last fun f hf => ?_
      refine .node fun id => ?_
      simpa only [Target.methodHeaders, List.append_nil, EmitsIn] using hf
    | _ => exact .throw
  | _ => exact .throw

theorem tells_lowerMethods (hss : ∀ s ∈ ss, s.WellFormed ∧ Told ctx s.inner) :
    Tells (gathered ctx true (members (Source.commentedFrom ctx.comments floor ss)))
      (lowerMethods ctx floor ss) Target.methodHeaders := by
  induction ss generalizing floor with
  | nil =>
    rw [lowerMethods]
    exact .pure_nil rfl
  | cons s ss ih =>
    obtain ⟨⟨hs, hb⟩, hss⟩ := List.forall_mem_cons.1 hss
    rw [lowerMethods, Source.commentedFrom]
    split
    next hmember =>
      rw [members_cons hmember, gathered_cons]
      refine Tells.append (tells_lowerMethod hs hb) (ih hss) fun m ms => ?_
      obtain ⟨id, name, isStatic, func⟩ := m
      simp [Target.methodHeaders]
    next hmember =>
      rw [members_cons_of_not hmember]
      exact ih hss

end Members

end Trees

/-- A block tells of the functions in it, at every depth. -/
theorem tells_lowerBlock (ctx : Context) (top : Bool) (b : Block) (hb : b.WellFormed) :
    Tells (documented ctx true top b) (lowerBlock ctx top b) Target.stmtHeaders := by
  induction b using Block.innerInduction generalizing top with
  | step b ih =>
    obtain ⟨start, stmts⟩ := b
    obtain ⟨hstmts, -⟩ := Source.wellFormedStmts_iff.1 hb
    have htold : ∀ s ∈ stmts, Told ctx s.inner := fun s hs c hc =>
      ih s hs c hc false (Source.Stmt.wellFormed_inner (hstmts s hs) c hc)
    have hplain (h : shapeOf ctx top start stmts = .plain) :
        Tells (documented ctx true top (.mk start stmts)) (lowerBlock ctx top (.mk start stmts))
          Target.stmtHeaders := by
      rw [lowerBlock_plain h, documented_of_plain h, ← List.filter_true (Source.commentedFrom ..)]
      exact tells_lowerStmts htold
    cases stmts with
    | nil => exact hplain rfl
    | cons first rest =>
      obtain ⟨-, hrest⟩ := List.forall_mem_cons.1 htold
      have hmembers : ∀ s ∈ rest, s.WellFormed ∧ Told ctx s.inner := fun s hs =>
        ⟨hstmts s (List.mem_cons_of_mem _ hs), hrest s hs⟩
      rcases shapeOf_cons_cases ctx top start first rest with
        ⟨hshape, -⟩ | ⟨hshape, -⟩ | ⟨name, _, _, span, -, hshape, -⟩
      · exact hplain hshape
      · rw [lowerBlock_module hshape, documented_of_rewritten (by simp [hshape])]
        refine Tells.append (tells_lowerExports hmembers) (tells_lowerStmts hrest) fun ts ts' => ?_
        exact Target.stmtHeaders_append ts ts'
      · rw [lowerBlock_class hshape, documented_of_rewritten (by simp [hshape]), Tells,
          List.flatMap_append]
        refine Reports.bind (tells_lowerMethods hmembers) fun methods hmethods => ?_
        have hclass : Reports [] (node span (.classDecl · name.text methods))
            fun t : Target.Stmt => t.headers = Target.methodHeaders methods := .node fun _ => rfl
        refine hclass.after fun t ht => Reports.last (tells_lowerStmts hrest) fun ts hts => .pure ?_
        rw [Target.stmtHeaders, ht]
        exact List.rel_append hmethods hts

/-- **The reports are exact**: up to their order, there is one for each parameter that not exactly
one tag of its statement gives a type. The functions are built one for one in the order in which
they are lowered, each with its own parameters and the types of their first tags. -/
theorem lowerChunk_reports_exactly {source : String} {module classmod : Bool} {chunk : Source.Chunk}
    {st st' : State} {out : List Target.Stmt} (hparse : Source.parse source = .ok chunk)
    (hrun : lowerChunk module classmod chunk st = .ok out st') :
    (st'.diagnostics.map Diagnostic.message).Perm
      ((documented ⟨module, classmod, chunk.comments⟩ false true chunk.body).flatMap warnings) ∧
    List.Forall₂ Emits (documented ⟨module, classmod, chunk.comments⟩ true true chunk.body)
      (Target.stmtHeaders out) ∧
    (documented ⟨module, classmod, chunk.comments⟩ true true chunk.body).Perm
      (documented ⟨module, classmod, chunk.comments⟩ false true chunk.body) := by
  have hlowered : lowerBlock ⟨module, classmod, chunk.comments⟩ true chunk.body .initial =
      .ok out st' := hrun
  have hperm := perm_documented ⟨module, classmod, chunk.comments⟩ true chunk.body
  obtain ⟨hdiagnostics, hheaders⟩ := tells_lowerBlock _ true chunk.body
    (Source.wellFormed_of_parse hparse) .initial out st' hlowered
  refine ⟨?_, hheaders, hperm⟩
  rw [hdiagnostics, State.initial, List.nil_append, map_message_reports]
  exact hperm.flatMap_right warnings

/-- A module with functions of all kinds: two tags speak of `a`, one of `b` and none of the rest. -/
def taggedModule : String :=
  "-- @module m\nlocal M = \x7b\x7d\n-- @tparam number a\n-- @tparam string a\n" ++
  "x = function(a) return function(...) end end\n-- @tparam number b\nfunction M:f(b, c) end"

theorem lowerChunk_reports_taggedModule :
    ∃ chunk out st', Source.parse taggedModule = .ok chunk ∧
      lowerChunk true false chunk .initial = .ok out st' ∧
      st'.diagnostics.map Diagnostic.message =
        ["7:16 Parameter c does not have a type signature. " ++
            "Use \"@tparam <type> c\" to define this.",
          "5:13 Many @tparams found for parameter a. Using the first one.",
          "5:32 Parameter ... does not have a type signature. " ++
            "Use \"@tparam <type> ...\" to define this."] ∧
      (st'.diagnostics.map Diagnostic.message).Perm
        ((documented ⟨true, false, chunk.comments⟩ false true chunk.body).flatMap warnings) ∧
      List.Forall₂ Emits (documented ⟨true, false, chunk.comments⟩ true true chunk.body)
        (Target.stmtHeaders out) ∧
      (documented ⟨true, false, chunk.comments⟩ true true chunk.body).Perm
        (documented ⟨true, false, chunk.comments⟩ false true chunk.body) := by
  have hmessages : inspect? true false (fun _ st => st.diagnostics.map Diagnostic.message)
      taggedModule = some
        ["7:16 Parameter c does not have a type signature. " ++
            "Use \"@tparam <type> c\" to define this.",
          "5:13 Many @tparams found for parameter a. Using the first one.",
          "5:32 Parameter ... does not have a type signature. " ++
            "Use \"@tparam <type> ...\" to define this."] := by decide +kernel
  obtain ⟨chunk, out, st', hparse, hrun, hview⟩ := exists_of_inspect? hmessages
  exact ⟨chunk, out, st', hparse, hrun, hview, lowerChunk_reports_exactly hparse hrun⟩

end Lowering

end LuaTranspiler
