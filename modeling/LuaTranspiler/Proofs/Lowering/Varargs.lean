import LuaTranspiler.Proofs.Lowering.Documented
import LuaTranspiler.Proofs.Lowering.Lowered
import LuaTranspiler.Proofs.Lowering.Support
import LuaTranspiler.Proofs.Source.Shape
import LuaTranspiler.Proofs.Typing.Walk

/-!
# What the remaining arguments resolve to

The remaining arguments `...` become a parameter named `vararg`, and every use of them a spread of
that name. The name is an ordinary one, so whatever else declares it between the function and the
use captures the use. Nothing else does.

* `Target.resolve`: the declarations that a name refers to under block scoping
* `Target.restUses`: the spread names in functions that take remaining arguments
* `Source.varargUses`: the uses of `...` in such functions, with the names declared around them
* `lowerChunk_varargs_resolve`: a use resolves to its function unless one of these names is `vararg`
-/

namespace LuaTranspiler

/-! ### Scoping of the built tree -/

namespace Target

/-- What a name is declared as: the parameter by which a function takes all remaining arguments, or
anything else. -/
inductive Declared where
  | rest (function : Nat)
  | other
deriving DecidableEq

/-- The declarations of a name in a scope. -/
def declarations (name : String) (scope : List (String × Declared)) : List Declared :=
  (scope.filter (·.1 = name)).map Prod.snd

/-- The declarations of a name in the innermost scope that has any. -/
def resolve (name : String) : List (List (String × Declared)) → List Declared
  | [] => []
  | scope :: outer =>
    if declarations name scope = [] then resolve name outer else declarations name scope

theorem declarations_append (name : String) (scope scope' : List (String × Declared)) :
    declarations name (scope ++ scope') = declarations name scope ++ declarations name scope' := by
  rw [declarations, List.filter_append, List.map_append, declarations, declarations]

theorem declarations_other (name : String) (ns : List String) :
    declarations name (ns.map (·, .other)) = List.replicate (ns.count name) .other := by
  induction ns with
  | nil => rfl
  | cons n ns ih =>
    rw [List.map_cons, ← List.singleton_append, declarations_append, ih, List.count_cons]
    by_cases hn : n = name
    · simp [declarations, hn, List.replicate_succ]
    · simp [declarations, hn]

/-- A place in a tree. -/
structure Site where
  /-- The innermost function, if it takes remaining arguments. -/
  function : Option Nat
  /-- The names declared in the scopes around, innermost first. -/
  scopes : List (List (String × Declared))

/-- A place inside a scope that declares some names. -/
def Site.nest (names : List String) (site : Site) : Site :=
  { site with scopes := names.map (·, .other) :: site.scopes }

/-- A place inside a function. Its parameters are in one scope with the names that its body
declares. -/
def Site.enter (id : Nat) (params : List Param) (names : List String) (site : Site) : Site where
  function := if params.any Param.rest then some id else none
  scopes := (params.map (fun p => (p.name, if p.rest then .rest id else .other)) ++
    names.map (·, .other)) :: site.scopes

/-- The names that the statements of a block declare in it, wherever they stand. -/
def declaredNames (ss : List Stmt) : List String := (ss.flatMap Stmt.declares).map Prod.fst

/-- A spread name in a function that takes remaining arguments. -/
structure RestUse where
  id : Nat
  function : Nat
  declared : List Declared

/-- The use of a spread expression, if it is a name in such a function. -/
def Expr.spreadUse (site : Site) : Expr → List RestUse
  | .ident id name => site.function.toList.map (⟨id, ·, resolve name site.scopes⟩)
  | _ => []

mutual

/-- The spread names in an expression. -/
def Expr.restUses (site : Site) : Expr → List RestUse
  | .ident .. | .number .. | .string .. | .bool .. => []
  | .member _ object _ => object.restUses site
  | .element _ object index => object.restUses site ++ index.restUses site
  | .binary _ lhs _ rhs => lhs.restUses site ++ rhs.restUses site
  | .unary _ _ operand | .increment _ operand => operand.restUses site
  | .assign _ target _ value => target.restUses site ++ value.restUses site
  | .spread _ value => value.spreadUse site ++ value.restUses site
  | .array _ elements => exprRestUses site elements
  | .object _ properties => propertyRestUses site properties
  | .call _ callee args => callee.restUses site ++ exprRestUses site args
  | .function id func => func.restUses site id

/-- The spread names in expressions. -/
def exprRestUses (site : Site) : List Expr → List RestUse
  | [] => []
  | e :: es => e.restUses site ++ exprRestUses site es

/-- The spread names in properties. -/
def propertyRestUses (site : Site) : List Property → List RestUse
  | [] => []
  | .named _ value :: ps => value.restUses site ++ propertyRestUses site ps
  | .computed key value :: ps =>
    key.restUses site ++ (value.restUses site ++ propertyRestUses site ps)

/-- The spread names in the function with the given id. -/
def Function.restUses (site : Site) (id : Nat) : Function → List RestUse
  | .mk params _ body => stmtRestUses (site.enter id params (declaredNames body)) body

/-- The spread names in the initial value of a declaration. -/
def VarDecl.restUses (site : Site) : VarDecl → List RestUse
  | .mk _ _ _ none => []
  | .mk _ _ _ (some e) => e.restUses site

/-- The spread names in methods. -/
def methodRestUses (site : Site) : List Method → List RestUse
  | [] => []
  | .mk id _ _ func :: ms => func.restUses site id ++ methodRestUses site ms

/-- The spread names in what follows the block of an `if`. -/
def Else.restUses (site : Site) : Else → List RestUse
  | .none => []
  | .elseIf s => s.restUses site
  | .block body => stmtRestUses (site.nest (declaredNames body)) body

/-- The spread names in a statement. The variable of a loop is declared for the head and the body,
which is a block of its own. -/
def Stmt.restUses (site : Site) : Stmt → List RestUse
  | .var _ decl => decl.restUses site
  | .functionDecl id _ _ func => func.restUses site id
  | .classDecl _ _ methods => methodRestUses site methods
  | .expr _ e | .returnStmt _ (some e) | .exportAssign _ e => e.restUses site
  | .returnStmt _ none | .breakStmt _ => []
  | .ifStmt _ cond thenBlock branch =>
    cond.restUses site ++
      (stmtRestUses (site.nest (declaredNames thenBlock)) thenBlock ++ branch.restUses site)
  | .forLoop _ init test update body =>
    let loop := site.nest (init.declares.map Prod.fst)
    init.restUses loop ++ (test.restUses loop ++ (update.restUses loop ++
      stmtRestUses (loop.nest (declaredNames body)) body))
  | .forOf _ binding iterable body =>
    let loop := site.nest ((binding.declares none).map Prod.fst)
    iterable.restUses loop ++ stmtRestUses (loop.nest (declaredNames body)) body
  | .whileLoop _ cond body =>
    cond.restUses site ++ stmtRestUses (site.nest (declaredNames body)) body

/-- The spread names in statements. -/
def stmtRestUses (site : Site) : List Stmt → List RestUse
  | [] => []
  | s :: ss => s.restUses site ++ stmtRestUses site ss

end

/-- The spread names in functions of a whole program that take remaining arguments. -/
def restUses (ss : List Stmt) : List RestUse :=
  stmtRestUses (Site.nest (declaredNames ss) ⟨none, []⟩) ss

end Target

/-! ### Scoping of the source -/

namespace Source

open Lowering (Context shapeOf)

/-- A place in a function that takes remaining arguments. -/
structure Reach where
  function : Span
  /-- The names declared in the scopes from the function to the place, other than `...`. -/
  names : List String

/-- A place inside a scope that declares some more names. -/
def Reach.nest (names : List String) (r : Reach) : Reach := { r with names := names ++ r.names }

/-- A use of `...`. -/
structure VarargUse extends Reach where
  span : Span

/-- The parameters that have a name. -/
def namedParams (params : List Param) : List String :=
  (params.filter (!·.isVararg)).map Lowering.paramName

/-- The inside of a function, if it takes remaining arguments. -/
def reachOf (span : Span) (params : List Param) (names : List String) : Option Reach :=
  if params.any Param.isVararg then some ⟨span, namedParams params ++ names⟩ else none

/-- The names that a statement declares in its block. -/
def Stmt.declaredNames : Stmt → List String
  | .localDecl names _ _ => names.map Name.text
  | .functionDecl (.ident name _) .. => [name]
  | _ => []

/-- The name of a function declared under a member. -/
def Stmt.memberNames : Stmt → List String
  | .functionDecl (.member _ _ name _) .. => [name.text]
  | _ => []

/-- The names that a block declares, wherever they stand in it. In a rewritten block the first
statement is dropped, or the class stands in its place. -/
def Block.declaredNames (ctx : Context) (top : Bool) : Block → List String
  | .mk start stmts =>
    match shapeOf ctx top start stmts, stmts with
    | .moduleBlock, _ :: rest =>
      (rest.filter Stmt.isMemberDecl).flatMap Stmt.memberNames ++
        (rest.filter (!·.isMemberDecl)).flatMap Stmt.declaredNames
    | .classBlock name _, _ :: rest =>
      name :: (rest.filter (!·.isMemberDecl)).flatMap Stmt.declaredNames
    | _, stmts => stmts.flatMap Stmt.declaredNames

/-- A place inside a block. -/
def Block.nest (ctx : Context) (block : Block) (r : Reach) : Reach :=
  r.nest (block.declaredNames ctx false)

/-- The use that a literal is. -/
def Literal.varargUses (site : Option Reach) (span : Span) : Literal → List VarargUse
  | .vararg => site.toList.map fun r => { r with span := span }
  | _ => []

mutual

/-- The uses of `...` in an expression. -/
def Expr.varargUses (ctx : Context) (site : Option Reach) : Expr → List VarargUse
  | .ident .. => []
  | .literal value span => value.varargUses site span
  | .member base .. => base.varargUses ctx site
  | .index base index _ => base.varargUses ctx site ++ index.varargUses ctx site
  | .unary _ operand _ => operand.varargUses ctx site
  | .binary lhs _ rhs _ | .logical lhs _ rhs _ => lhs.varargUses ctx site ++ rhs.varargUses ctx site
  | .table fields _ => fieldVarargUses ctx site fields
  | .call base args _ => base.varargUses ctx site ++ exprVarargUses ctx site args
  | .stringCall base argument _ | .tableCall base argument _ =>
    base.varargUses ctx site ++ argument.varargUses ctx site
  | .function func span => func.varargUses ctx span

/-- The uses of `...` in expressions. -/
def exprVarargUses (ctx : Context) (site : Option Reach) : List Expr → List VarargUse
  | [] => []
  | e :: es => e.varargUses ctx site ++ exprVarargUses ctx site es

/-- The uses of `...` in fields. -/
def fieldVarargUses (ctx : Context) (site : Option Reach) : List Field → List VarargUse
  | [] => []
  | .keyed key value _ :: fs =>
    key.varargUses ctx site ++ (value.varargUses ctx site ++ fieldVarargUses ctx site fs)
  | .named _ value _ :: fs | .positional value _ :: fs =>
    value.varargUses ctx site ++ fieldVarargUses ctx site fs

/-- The uses of `...` in the function at `span`. -/
def Function.varargUses (ctx : Context) (span : Span) : Function → List VarargUse
  | .mk params body =>
    body.varargUses ctx false (reachOf span params (body.declaredNames ctx false))

/-- The uses of `...` in a block, from inside of it. The functions under a member come first in a
rewritten block. -/
def Block.varargUses (ctx : Context) (top : Bool) (site : Option Reach) : Block → List VarargUse
  | .mk start stmts =>
    match shapeOf ctx top start stmts, stmts with
    | .moduleBlock, _ :: rest | .classBlock .., _ :: rest =>
      memberVarargUses ctx rest ++ stmtVarargUses ctx (!·.isMemberDecl) site rest
    | _, stmts => stmtVarargUses ctx (fun _ => true) site stmts

/-- The uses of `...` in a clause of an `if`. -/
def clauseVarargUses (ctx : Context) (site : Option Reach) : List Clause → List VarargUse
  | [] => []
  | .mk cond block :: cs =>
    cond.varargUses ctx site ++
      (block.varargUses ctx false (site.map (block.nest ctx)) ++ clauseVarargUses ctx site cs)

/-- The uses of `...` in the block behind `else`. -/
def elseVarargUses (ctx : Context) (site : Option Reach) : Option Block → List VarargUse
  | none => []
  | some block => block.varargUses ctx false (site.map (block.nest ctx))

/-- The uses of `...` in the step of a loop. -/
def stepVarargUses (ctx : Context) (site : Option Reach) : Option Expr → List VarargUse
  | none => []
  | some e => e.varargUses ctx site

/-- The uses of `...` in a statement. The variables of a loop are declared for the head too. What
has no translation is passed by. -/
def Stmt.varargUses (ctx : Context) (site : Option Reach) : Stmt → List VarargUse
  | .localDecl _ init _ => exprVarargUses ctx site init
  | .assign targets init _ => exprVarargUses ctx site targets ++ exprVarargUses ctx site init
  | .call call _ => call.varargUses ctx site
  | .functionDecl name _ func span => name.varargUses ctx site ++ func.varargUses ctx span
  | .returnStmt values _ => exprVarargUses ctx site values
  | .ifStmt cond thenBlock clauses elseBlock _ =>
    cond.varargUses ctx site ++ (thenBlock.varargUses ctx false (site.map (thenBlock.nest ctx)) ++
      (clauseVarargUses ctx site clauses ++ elseVarargUses ctx site elseBlock))
  | .whileLoop cond block _ =>
    cond.varargUses ctx site ++ block.varargUses ctx false (site.map (block.nest ctx))
  | .forNumeric var start stop step block _ =>
    let loop := site.map (Reach.nest [var.text])
    start.varargUses ctx loop ++ (stop.varargUses ctx loop ++ (stepVarargUses ctx loop step ++
      block.varargUses ctx false (loop.map (block.nest ctx))))
  | .forGeneric vars iterators block _ =>
    let loop := site.map (Reach.nest (vars.map Name.text))
    exprVarargUses ctx loop iterators ++ block.varargUses ctx false (loop.map (block.nest ctx))
  | .repeatLoop .. | .doBlock .. | .breakStmt _ | .goto .. | .label .. => []

/-- The uses of `...` in the statements that satisfy `keep`. -/
def stmtVarargUses (ctx : Context) (keep : Stmt → Bool) (site : Option Reach) :
    List Stmt → List VarargUse
  | [] => []
  | s :: ss =>
    (if keep s then s.varargUses ctx site else []) ++ stmtVarargUses ctx keep site ss

/-- The uses of `...` in a function declared under a member. -/
def Stmt.memberVarargUses (ctx : Context) : Stmt → List VarargUse
  | .functionDecl (.member ..) _ func span => func.varargUses ctx span
  | _ => []

/-- The uses of `...` in the functions declared under a member. -/
def memberVarargUses (ctx : Context) : List Stmt → List VarargUse
  | [] => []
  | s :: ss => s.memberVarargUses ctx ++ memberVarargUses ctx ss

end

/-- The uses of `...` in functions of a whole source that take remaining arguments, in the order in
which they are lowered. -/
def Chunk.varargUses (module classmod : Bool) (chunk : Chunk) : List VarargUse :=
  chunk.body.varargUses ⟨module, classmod, chunk.comments⟩ true none

end Source

namespace Lowering

open Source (Reach VarargUse)
open Target (Declared RestUse Site declarations declarations_append declarations_other resolve)

/-! ### Places that agree -/

section Agree

variable {p : Provenance} {site : Site} {reach : Option Reach} {ns ms : List String}

/-- A place in the built tree and one in the source lie in the same function, and `vararg` resolves
to the parameter of the function exactly if the source has not declared that name. -/
inductive Agree (p : Provenance) : Site → Option Reach → Prop
  | outside {site : Site} (h : site.function = none) : Agree p site none
  | inside {site : Site} {r : Reach} {id : Nat} (function : site.function = some id)
      (place : p.get? id = some r.function)
      (resolves : resolve "vararg" site.scopes = [.rest id] ↔ "vararg" ∉ r.names) :
      Agree p site (some r)

/-- A scope declares the same names on both sides. -/
theorem Agree.nest (h : Agree p site reach) (ns : List String) :
    Agree p (site.nest ns) (reach.map (Reach.nest ns)) := by
  cases h with
  | outside h => exact .outside h
  | @inside r id function place resolves =>
    refine .inside function place ?_
    rw [Site.nest, Reach.nest, List.mem_append, not_or, resolve, declarations_other, ← resolves,
      ← List.count_eq_zero]
    by_cases hcount : ns.count "vararg" = 0
    · rw [hcount, List.replicate_zero, if_pos rfl, and_iff_right rfl]
    · rw [if_neg (by simpa using hcount)]
      refine iff_of_false (fun h => ?_) fun h => hcount h.1
      have hmem : Declared.rest id ∈ List.replicate (ns.count "vararg") Declared.other := by
        rw [h]
        exact List.mem_singleton_self _
      cases List.eq_of_mem_replicate hmem

theorem any_of_loweredParams {tags : List Tag} {params : List Source.Param}
    {ps : List Target.Param} (h : List.Forall₂ (LoweredParam tags) params ps) :
    ps.any Target.Param.rest = params.any Source.Param.isVararg := by
  induction h with
  | nil => rfl
  | cons hparam _ ih => rw [List.any_cons, List.any_cons, ih, hparam.rest]

theorem map_of_loweredParams {tags : List Tag} {params : List Source.Param}
    {ps : List Target.Param} (h : List.Forall₂ (LoweredParam tags) params ps) (id : Nat) :
    ps.map (fun y => (y.name, if y.rest then Declared.rest id else .other)) =
      params.map fun x => (paramName x, if x.isVararg then Declared.rest id else .other) := by
  induction h with
  | nil => rfl
  | cons hparam _ ih => rw [List.map_cons, List.map_cons, ih, hparam.rest, hparam.name]

/-- Among the parameters, `vararg` stands for the last one if no other has that name. -/
theorem declarations_params {params : List Source.Param}
    (hlast : ∀ x ∈ params.dropLast, x.isVararg = false)
    (hany : params.any Source.Param.isVararg = true) (id : Nat) :
    Target.declarations "vararg"
        (params.map fun x => (paramName x, if x.isVararg then Declared.rest id else .other)) =
      List.replicate ((Source.namedParams params).count "vararg") .other ++ [.rest id] := by
  -- the last parameter is `...`, and those before it have names
  have hne : params ≠ [] := by
    rintro rfl
    cases hany
  obtain ⟨front, last, rfl⟩ : ∃ front last, params = front ++ [last] :=
    ⟨params.dropLast, params.getLast hne, (List.dropLast_append_getLast hne).symm⟩
  rw [List.dropLast_concat] at hlast
  have hvararg : last.isVararg = true := by
    simpa [List.any_append, List.any_eq_false.2 (by simpa using hlast)] using hany
  obtain ⟨span, rfl⟩ : ∃ span, last = .vararg span := by
    cases last with
    | named => cases hvararg
    | vararg span => exact ⟨span, rfl⟩
  have hfront : (front.map fun x =>
      (paramName x, if x.isVararg then Declared.rest id else .other)) =
        (front.map paramName).map (·, .other) := by
    rw [List.map_map]
    exact List.map_congr_left fun x hx => by simp [hlast x hx]
  have hnamed : Source.namedParams (front ++ [.vararg span]) = front.map paramName := by
    have hkeep : front.filter (fun x => !x.isVararg) = front :=
      List.filter_eq_self.2 fun x hx => by simp [hlast x hx]
    rw [Source.namedParams, List.filter_append, hkeep]
    simp [hvararg]
  rw [hnamed, List.map_append, declarations_append, hfront, declarations_other]
  rfl

theorem Agree.enter {tags : List Tag} {params : List Source.Param} {ps : List Target.Param}
    {id : Nat} {span : Span} {method : Bool} (hps : List.Forall₂ (LoweredParam tags) params ps)
    (hlast : ∀ x ∈ params.dropLast, x.isVararg = false) (hid : p.get? id = some span)
    (ns : List String) :
    Agree p (site.enter id (if method then selfParam :: ps else ps) ns)
      (Source.reachOf span params ns) := by
  have hany : (if method then selfParam :: ps else ps).any Target.Param.rest =
      params.any Source.Param.isVararg := by
    rw [← any_of_loweredParams hps]
    cases method <;> rfl
  by_cases hvararg : params.any Source.Param.isVararg = true
  · rw [Source.reachOf, if_pos hvararg]
    refine .inside (by rw [Site.enter, hany, if_pos hvararg]) hid ?_
    have hscope : Target.declarations "vararg" ((if method then selfParam :: ps else ps).map
        (fun y => (y.name, if y.rest then Declared.rest id else .other)) ++ ns.map (·, .other)) =
        List.replicate ((Source.namedParams params).count "vararg") .other ++
          .rest id :: List.replicate (ns.count "vararg") .other := by
      have hself : Target.declarations "vararg" ((if method then selfParam :: ps else ps).map
          fun y => (y.name, if y.rest then Declared.rest id else .other)) =
          Target.declarations "vararg"
            (ps.map fun y => (y.name, if y.rest then Declared.rest id else .other)) := by
        cases method <;> rfl
      rw [declarations_append, hself, map_of_loweredParams hps, declarations_params hlast hvararg,
        declarations_other, List.append_assoc, List.singleton_append]
    rw [Site.enter, resolve, hscope, if_neg (by simp), List.mem_append, not_or,
      ← List.count_eq_zero, ← List.count_eq_zero]
    constructor
    · intro h
      have hlength := congrArg List.length h
      simp only [List.length_append, List.length_replicate, List.length_cons, List.length_nil]
        at hlength
      omega
    · rintro ⟨hparams, hns⟩
      rw [hparams, hns]
      rfl
  · rw [Source.reachOf, if_neg hvararg]
    exact .outside (by rw [Site.enter, hany, if_neg hvararg])

end Agree

/-! ### Declared names -/

section Names

variable {ctx : Context} {p : Provenance}

theorem declares_of_loweredElse {o : Option Source.Block} {last : Target.Else}
    (h : LoweredElse ctx p o last) : last.declares = [] := by
  cases o with
  | none =>
    cases h
    rfl
  | some block =>
    obtain ⟨_, -, rfl⟩ := h
    rfl

theorem declares_of_loweredClauses {tags : List Tag} {last : Target.Else}
    (hlast : last.declares = []) : ∀ (cs : List Source.Clause) {branch : Target.Else},
    LoweredClauses ctx p tags last cs branch → branch.declares = []
  | [], _, h => by
    cases h
    exact hlast
  | .mk cond block :: cs, _, h => by
    obtain ⟨_, _, rest, _, -, -, hrest, ⟨_, -, rfl⟩, rfl⟩ := h
    rw [Target.Else.declares, Target.Stmt.declares]
    exact declares_of_loweredClauses hlast cs hrest

/-- A statement declares its names in the built tree. -/
theorem declares_of_loweredStmt {top : Bool} {tags : List Tag} {s : Source.Stmt} {t : Target.Stmt}
    (h : LoweredStmt ctx p top tags s t) : t.declares.map Prod.fst = s.declaredNames := by
  cases s with
  | localDecl names init span =>
    obtain ⟨ty, _, _, -, -, -, _, -, rfl⟩ := h
    rcases names with _ | ⟨n, _ | ⟨n', ns⟩⟩
    · rfl
    · rfl
    · simp [Target.Stmt.declares, Target.VarDecl.declares, bindingOf, Target.Binding.declares,
        Source.Stmt.declaredNames, Function.comp_def]
  | assign targets init span =>
    obtain ⟨_, _, _, _, _, -, -, -, -, -, _, -, _, -, rfl⟩ := h
    rfl
  | call call span =>
    obtain ⟨_, -, _, -, rfl⟩ := h
    rfl
  | functionDecl name isLocal func span =>
    cases name with
    | ident =>
      obtain ⟨_, _, -, -, _, -, rfl⟩ := h
      rfl
    | member =>
      obtain ⟨_, _, _, _, _, -, -, -, -, -, _, -, _, -, rfl⟩ := h
      rfl
    | literal | index | unary | binary | logical | table | call | stringCall | tableCall
    | function => exact h.elim
  | returnStmt values span =>
    obtain ⟨_, _, -, -, ⟨_, -, -, _, -, rfl⟩ | ⟨-, _, -, rfl⟩⟩ := h <;> rfl
  | ifStmt cond thenBlock clauses elseBlock span =>
    obtain ⟨_, _, last, branch, -, -, hlast, hbranch, _, -, rfl⟩ := h
    have hnone := declares_of_loweredClauses (declares_of_loweredElse hlast) clauses hbranch
    rw [Target.Stmt.declares, hnone]
    rfl
  | whileLoop cond block span =>
    obtain ⟨_, _, -, -, _, -, rfl⟩ := h
    rfl
  | forNumeric var start stop step block span =>
    obtain ⟨_, _, _, _, -, -, -, -, _, _, _, _, -, -, -, -, _, -, rfl⟩ := h
    rfl
  | forGeneric vars iterators block span =>
    obtain ⟨_, _, -, -, _, -, rfl⟩ := h
    rfl
  | breakStmt span =>
    obtain ⟨_, -, rfl⟩ := h
    rfl
  | repeatLoop | doBlock | goto | label => exact h.elim

theorem declaredNames_of_loweredStmts {top : Bool} {keep : Source.Stmt → Bool} :
    ∀ (ss : List Source.Stmt) {floor : Nat} {ts : List Target.Stmt},
    LoweredStmts ctx p top keep floor ss ts →
    Target.declaredNames ts = (ss.filter keep).flatMap Source.Stmt.declaredNames
  | [], _, _, h => by
    cases h
    rfl
  | s :: ss, _, _, h => by
    rw [LoweredStmts] at h
    split at h
    next hkeep =>
      obtain ⟨u, us, hu, hus, rfl⟩ := h
      have ih := declaredNames_of_loweredStmts ss hus
      rw [List.filter_cons_of_pos hkeep, List.flatMap_cons, ← ih, ← declares_of_loweredStmt hu]
      exact List.map_append
    next hkeep =>
      rw [List.filter_cons_of_neg hkeep]
      exact declaredNames_of_loweredStmts ss h

theorem declaredNames_of_loweredExports : ∀ (ss : List Source.Stmt) {floor : Nat}
    {ts : List Target.Stmt}, LoweredExports ctx p floor ss ts →
    Target.declaredNames ts = (ss.filter Source.Stmt.isMemberDecl).flatMap Source.Stmt.memberNames
  | [], _, _, h => by
    cases h
    rfl
  | s :: ss, _, _, h => by
    rw [LoweredExports] at h
    split at h
    next hmember =>
      obtain ⟨u, us, hu, hus, rfl⟩ := h
      have ih := declaredNames_of_loweredExports ss hus
      have hname : u.declares.map Prod.fst = s.memberNames := by
        obtain ⟨_, _, _, _, _, _, _, rfl⟩ := Source.Stmt.exists_of_isMemberDecl hmember
        obtain ⟨_, _, -, -, _, -, rfl⟩ := hu
        rfl
      rw [List.filter_cons_of_pos hmember, List.flatMap_cons, ← ih, ← hname]
      exact List.map_append
    next hmember =>
      rw [List.filter_cons_of_neg hmember]
      exact declaredNames_of_loweredExports ss h

/-- A block declares its names in the built tree. -/
theorem declaredNames_of_loweredBlock {top : Bool} {b : Source.Block} {out : List Target.Stmt}
    (h : LoweredBlock ctx p top b out) : Target.declaredNames out = b.declaredNames ctx top := by
  obtain ⟨start, stmts⟩ := b
  rcases stmts with _ | ⟨first, rest⟩
  · cases (loweredBlock_plain rfl).1 h
    rfl
  · rcases shapeOf_cons_cases ctx top start first rest with
      ⟨hshape, -⟩ | ⟨hshape, -⟩ | ⟨name, _, _, span, -, hshape, -⟩
    · have hstmts := (loweredBlock_plain hshape).1 h
      rw [declaredNames_of_loweredStmts _ hstmts, List.filter_true]
      simp only [Source.Block.declaredNames, hshape]
    · obtain ⟨exports, others, hexports, hothers, rfl⟩ := (loweredBlock_module hshape).1 h
      simp only [Source.Block.declaredNames, hshape]
      rw [← declaredNames_of_loweredExports _ hexports, ← declaredNames_of_loweredStmts _ hothers]
      simp [Target.declaredNames]
    · obtain ⟨_, _, others, -, ⟨_, -, rfl⟩, hothers, rfl⟩ := (loweredBlock_class hshape).1 h
      simp only [Source.Block.declaredNames, hshape]
      rw [← declaredNames_of_loweredStmts _ hothers]
      rfl

end Names

/-! ### Trees -/

theorem Agree.block {ctx : Context} {p : Provenance} {site : Site} {reach : Option Reach}
    {b : Source.Block} {out : List Target.Stmt} (h : Agree p site reach)
    (hout : LoweredBlock ctx p false b out) :
    Agree p (site.nest (Target.declaredNames out)) (reach.map (b.nest ctx)) := by
  rw [declaredNames_of_loweredBlock hout]
  exact h.nest _

/-- The function declared under a member is built as the one with the given id. -/
def LoweredMember (ctx : Context) (p : Provenance) (tags : List Tag) (id : Nat)
    (f : Target.Function) : Source.Stmt → Prop
  | .functionDecl (.member ..) _ func span =>
    p.get? id = some span ∧ ∃ method ty, LoweredFunction ctx p tags method ty func f
  | _ => False

theorem LoweredExport.member {ctx : Context} {p : Provenance} {tags : List Tag} {s : Source.Stmt}
    {t : Target.Stmt} (h : LoweredExport ctx p tags s t) (hs : s.isMemberDecl = true) :
    ∃ id name f, t = .functionDecl id name true f ∧ LoweredMember ctx p tags id f s := by
  obtain ⟨_, _, _, _, _, _, _, rfl⟩ := Source.Stmt.exists_of_isMemberDecl hs
  obtain ⟨_, f, -, hf, id, hid, rfl⟩ := h
  exact ⟨id, _, f, rfl, hid, _, _, hf⟩

theorem LoweredMethod.member {ctx : Context} {p : Provenance} {tags : List Tag} {s : Source.Stmt}
    {m : Target.Method} (h : LoweredMethod ctx p tags s m) (hs : s.isMemberDecl = true) :
    ∃ id name isStatic f, m = .mk id name isStatic f ∧ LoweredMember ctx p tags id f s := by
  obtain ⟨_, _, _, _, _, _, _, rfl⟩ := Source.Stmt.exists_of_isMemberDecl hs
  obtain ⟨_, f, -, hf, id, hid, rfl⟩ := h
  exact ⟨id, _, _, f, rfl, hid, _, _, hf⟩

/-- A use of `...` and the name that is spread for it. -/
structure Translates (p : Provenance) (v : VarargUse) (u : RestUse) : Prop where
  place : p.get? u.id = some v.span
  function : p.get? u.function = some v.function
  resolves : u.declared = [.rest u.function] ↔ "vararg" ∉ v.names

section Trees

variable {ctx : Context} {p : Provenance} {site : Site} {reach : Option Reach}

theorem translates_literal {value : Source.Literal} {span : Span} {a : Target.Expr}
    (ha : LoweredLiteral p span a value) (h : Agree p site reach) :
    List.Forall₂ (Translates p) (value.varargUses reach span) (a.restUses site) := by
  cases value with
  | vararg =>
    obtain ⟨_, ⟨id, hid, rfl⟩, _, -, rfl⟩ := ha
    cases h with
    | outside function =>
      simp [Source.Literal.varargUses, Target.Expr.restUses, Target.Expr.spreadUse, function]
    | inside function place resolves =>
      simp only [Source.Literal.varargUses, Target.Expr.restUses, Target.Expr.spreadUse, function,
        Option.toList_some, List.map_singleton, List.append_nil]
      exact .cons ⟨hid, place, resolves⟩ .nil
  | number | string | bool | nil =>
    obtain ⟨_, -, rfl⟩ := ha
    exact .nil

/-- Joined values have the uses of the values. -/
theorem restUses_of_joinedValues {span : Span} {v : Target.Expr} {as : List Target.Expr}
    (h : JoinedValues p span (some v) as) : v.restUses site = Target.exprRestUses site as := by
  rcases as with _ | ⟨a, _ | ⟨b, as⟩⟩
  · cases h
  · cases h
    exact (List.append_nil _).symm
  · obtain ⟨_, ⟨_, -, rfl⟩, ⟨⟩⟩ := h
    rfl

theorem restUses_of_joinedNone {span : Span} {as : List Target.Expr}
    (h : JoinedValues p span none as) : Target.exprRestUses site as = [] := by
  rcases as with _ | ⟨a, _ | ⟨b, as⟩⟩
  · rfl
  · cases h
  · obtain ⟨_, -, ⟨⟩⟩ := h

theorem restUses_of_joinedTargets {span : Span} {a : Target.Expr} {as : List Target.Expr}
    (h : JoinedTargets p span a as) : a.restUses site = Target.exprRestUses site as := by
  rcases as with _ | ⟨b, _ | ⟨b', as⟩⟩
  · obtain ⟨_, -, rfl⟩ := h
    rfl
  · cases h
    exact (List.append_nil _).symm
  · obtain ⟨_, -, rfl⟩ := h
    rfl

theorem stmtRestUses_append (ss ts : List Target.Stmt) :
    Target.stmtRestUses site (ss ++ ts) =
      Target.stmtRestUses site ss ++ Target.stmtRestUses site ts := by
  induction ss with
  | nil => rfl
  | cons s ss ih => rw [List.cons_append, Target.stmtRestUses, ih, Target.stmtRestUses,
      List.append_assoc]

section Shape

variable {top : Bool} {start : Nat} {first : Source.Stmt} {rest stmts : List Source.Stmt}

theorem varargUses_plain (h : shapeOf ctx top start stmts = .plain) :
    (Source.Block.mk start stmts).varargUses ctx top reach =
      Source.stmtVarargUses ctx (fun _ => true) reach stmts := by
  rw [Source.Block.varargUses.eq_def]
  simp only [h]

theorem varargUses_rewritten (h : shapeOf ctx top start (first :: rest) = .moduleBlock ∨
      ∃ name span, shapeOf ctx top start (first :: rest) = .classBlock name span) :
    (Source.Block.mk start (first :: rest)).varargUses ctx top reach =
      Source.memberVarargUses ctx rest ++
        Source.stmtVarargUses ctx (!·.isMemberDecl) reach rest := by
  rw [Source.Block.varargUses.eq_def]
  rcases h with h | ⟨name, span, h⟩ <;> simp only [h]

end Shape

theorem memberVarargUses_of_not {s : Source.Stmt} (h : ¬s.isMemberDecl = true) :
    s.memberVarargUses ctx = [] := by
  cases s with
  | functionDecl name isLocal func span =>
    cases name with
    | member => exact absurd rfl h
    | ident | literal | index | unary | binary | logical | table | call | stringCall | tableCall
    | function => rfl
  | localDecl | assign | call | returnStmt | ifStmt | whileLoop | forNumeric | forGeneric
  | breakStmt | repeatLoop | doBlock | goto | label => rfl

mutual

theorem translates_expr : ∀ (e : Source.Expr) {called : Bool} {tags : List Tag} {a : Target.Expr}
    {site : Site} {reach : Option Reach}, e.WellFormed called → LoweredExpr ctx p tags e a →
    Agree p site reach → List.Forall₂ (Translates p) (e.varargUses ctx reach) (a.restUses site)
  | .ident .., _, _, _, _, _, _, ha, _ => by
    obtain ⟨_, -, rfl⟩ := ha
    exact .nil
  | .literal .., _, _, _, _, _, _, ha, h => translates_literal ha h
  | .member base .., _, _, _, _, _, hwf, ha, h => by
    obtain ⟨object, hobject, _, -, rfl⟩ := ha
    rw [Target.Expr.restUses]
    exact translates_expr base hwf.2 hobject h
  | .index base index _, _, _, _, _, _, hwf, ha, h => by
    obtain ⟨object, i, hobject, hi, _, -, rfl⟩ := ha
    exact List.rel_append (translates_expr base hwf.1 hobject h) (translates_expr index hwf.2 hi h)
  | .unary op operand _, _, _, _, _, _, hwf, ha, h => by
    obtain ⟨b, hb, ha⟩ := ha
    have hoperand := translates_expr operand hwf hb h
    cases op with
    | len | not | neg | bitNot =>
      obtain ⟨_, -, rfl⟩ := ha
      exact hoperand
  | .binary lhs _ rhs _, _, _, _, _, _, hwf, ha, h => by
    obtain ⟨b, _, b', -, hb, hb', _, -, rfl⟩ := ha
    exact List.rel_append (translates_expr lhs hwf.1 hb h) (translates_expr rhs hwf.2 hb' h)
  | .logical lhs _ rhs _, _, _, _, _, _, hwf, ha, h => by
    obtain ⟨b, b', hb, hb', _, -, rfl⟩ := ha
    exact List.rel_append (translates_expr lhs hwf.1 hb h) (translates_expr rhs hwf.2 hb' h)
  | .table fields _, _, _, _, _, _, hwf, ha, h => by
    obtain ⟨_, hes, _, -, rfl⟩ | ⟨_, hps, _, -, rfl⟩ := ha
    · exact translates_elements fields hwf hes h
    · exact translates_properties fields hwf hps h
  | .call base args _, _, _, _, _, _, hwf, ha, h => by
    obtain ⟨callee, as, hcallee, has, _, -, rfl⟩ := ha
    exact List.rel_append (translates_expr base hwf.1 hcallee h) (translates_exprs args hwf.2 has h)
  | .stringCall base argument _, _, _, _, _, _, hwf, ha, h => by
    obtain ⟨callee, arg, hcallee, harg, _, -, rfl⟩ := ha
    have hstring := Source.Expr.wellFormed_of_isString hwf.2
    have hargument := translates_expr argument hstring harg h
    rw [← List.append_nil (arg.restUses _)] at hargument
    exact List.rel_append (translates_expr base hwf.1 hcallee h) hargument
  | .tableCall base argument _, _, _, _, _, _, hwf, ha, h => by
    obtain ⟨callee, arg, hcallee, harg, _, -, rfl⟩ := ha
    have hargument := translates_expr argument hwf.2.2 harg h
    rw [← List.append_nil (arg.restUses _)] at hargument
    exact List.rel_append (translates_expr base hwf.1 hcallee h) hargument
  | .function func _, _, _, _, _, _, hwf, ha, _ => by
    obtain ⟨_, f, -, hf, id, hid, rfl⟩ := ha
    exact translates_function func hwf hf hid

theorem translates_exprs : ∀ (es : List Source.Expr) {tags : List Tag} {as : List Target.Expr}
    {site : Site} {reach : Option Reach}, Source.WellFormedExprs es →
    LoweredExprs ctx p tags es as → Agree p site reach →
    List.Forall₂ (Translates p) (Source.exprVarargUses ctx reach es) (Target.exprRestUses site as)
  | [], _, _, _, _, _, has, _ => by
    cases has
    exact .nil
  | e :: es, _, _, _, _, hwf, has, h => by
    obtain ⟨b, bs, hb, hbs, rfl⟩ := has
    exact List.rel_append (translates_expr e hwf.1 hb h) (translates_exprs es hwf.2 hbs h)

theorem translates_elements : ∀ (fs : List Source.Field) {tags : List Tag} {as : List Target.Expr}
    {site : Site} {reach : Option Reach}, Source.WellFormedFields fs →
    LoweredElements ctx p tags fs as → Agree p site reach →
    List.Forall₂ (Translates p) (Source.fieldVarargUses ctx reach fs) (Target.exprRestUses site as)
  | [], _, _, _, _, _, has, _ => by
    cases has
    exact .nil
  | .positional value _ :: fs, _, _, _, _, hwf, has, h => by
    obtain ⟨b, bs, hb, hbs, rfl⟩ := has
    exact List.rel_append (translates_expr value hwf.1 hb h) (translates_elements fs hwf.2 hbs h)

theorem translates_properties : ∀ (fs : List Source.Field) {tags : List Tag}
    {ps : List Target.Property} {site : Site} {reach : Option Reach}, Source.WellFormedFields fs →
    LoweredProperties ctx p tags fs ps → Agree p site reach →
    List.Forall₂ (Translates p) (Source.fieldVarargUses ctx reach fs)
      (Target.propertyRestUses site ps)
  | [], _, _, _, _, _, hps, _ => by
    cases hps
    exact .nil
  | .named _ value _ :: fs, _, _, _, _, hwf, hps, h => by
    obtain ⟨v, qs, hv, hqs, rfl⟩ := hps
    exact List.rel_append (translates_expr value hwf.1 hv h) (translates_properties fs hwf.2 hqs h)
  | .keyed key value _ :: fs, _, _, _, _, hwf, hps, h => by
    obtain ⟨k, v, qs, hk, hv, hqs, rfl⟩ := hps
    exact List.rel_append (translates_expr key hwf.1.1 hk h) (List.rel_append
      (translates_expr value hwf.1.2 hv h) (translates_properties fs hwf.2 hqs h))

theorem translates_function : ∀ (func : Source.Function) {tags : List Tag} {method : Bool}
    {ty : Option Ty} {f : Target.Function} {site : Site} {id : Nat} {span : Span},
    func.WellFormed → LoweredFunction ctx p tags method ty func f → p.get? id = some span →
    List.Forall₂ (Translates p) (func.varargUses ctx span) (f.restUses site id)
  | .mk params body, _, _, _, _, _, _, _, hwf, hf, hid => by
    obtain ⟨ps, out, hps, hout, rfl⟩ := hf
    rw [Source.Function.varargUses, Target.Function.restUses, ← declaredNames_of_loweredBlock hout]
    exact translates_block body hwf.2 hout (.enter hps hwf.1 hid _)

theorem translates_stmt : ∀ (s : Source.Stmt) {top : Bool} {tags : List Tag} {t : Target.Stmt}
    {site : Site} {reach : Option Reach}, s.WellFormed → LoweredStmt ctx p top tags s t →
    Agree p site reach → List.Forall₂ (Translates p) (s.varargUses ctx reach) (t.restUses site)
  | .localDecl names init span, _, _, _, _, _, hwf, ht, h => by
    obtain ⟨ty, es, value, -, hes, hvalue, _, -, rfl⟩ := ht
    have hinit := translates_exprs init hwf.2 hes h
    cases value with
    | none =>
      rw [restUses_of_joinedNone hvalue] at hinit
      exact hinit
    | some v =>
      rw [← restUses_of_joinedValues hvalue] at hinit
      exact hinit
  | .assign targets init span, _, _, _, _, _, hwf, ht, h => by
    obtain ⟨lhs, target, es, value, v, hlhs, htarget, hes, hvalue, hv, _, ⟨_, -, rfl⟩, _, -,
      rfl⟩ := ht
    have htargets := translates_exprs targets hwf.2.2.1 hlhs h
    have hinit := translates_exprs init hwf.2.2.2.2 hes h
    rw [← restUses_of_joinedTargets htarget] at htargets
    cases value with
    | none =>
      obtain ⟨_, -, rfl⟩ := hv
      rw [restUses_of_joinedNone hvalue] at hinit
      exact List.rel_append htargets hinit
    | some v =>
      cases hv
      rw [← restUses_of_joinedValues hvalue] at hinit
      exact List.rel_append htargets hinit
  | .call call span, _, _, _, _, _, hwf, ht, h => by
    obtain ⟨e, he, _, -, rfl⟩ := ht
    exact translates_expr call hwf.2 he h
  | .functionDecl name isLocal func span, _, _, _, _, _, hwf, ht, h => by
    have hfunc : func.WellFormed := by
      cases isLocal <;> exact hwf.2
    cases name with
    | ident =>
      obtain ⟨_, f, -, hf, id, hid, rfl⟩ := ht
      exact translates_function func hfunc hf hid
    | member base =>
      have hbase : base.isPath = true := Source.Stmt.isFunctionName_of_wellFormed hwf
      obtain ⟨_, object, _, f, _, -, hobject, ⟨_, -, rfl⟩, hf, ⟨_, hid, rfl⟩, _, ⟨_, -, rfl⟩, _, -,
        rfl⟩ := ht
      have htarget := translates_expr base (base.wellFormed_of_isPath hbase) hobject h
      exact List.rel_append htarget (translates_function func hfunc hf hid)
    | literal | index | unary | binary | logical | table | call | stringCall | tableCall
    | function => exact ht.elim
  | .returnStmt values span, _, _, _, _, _, hwf, ht, h => by
    obtain ⟨es, value, hes, hvalue, ht⟩ := ht
    have hvalues := translates_exprs values hwf hes h
    obtain ⟨v, -, rfl, _, -, rfl⟩ | ⟨-, _, -, rfl⟩ := ht
    · rw [← restUses_of_joinedValues hvalue] at hvalues
      exact hvalues
    · cases value with
      | none =>
        rw [restUses_of_joinedNone hvalue] at hvalues
        exact hvalues
      | some v =>
        rw [← restUses_of_joinedValues hvalue] at hvalues
        exact hvalues
  | .ifStmt cond thenBlock clauses elseBlock span, _, _, _, _, _, hwf, ht, h => by
    obtain ⟨c, body, last, branch, hc, hbody, hlast, hbranch, _, -, rfl⟩ := ht
    have helse := translates_else elseBlock hwf.2.2.2 hlast h
    exact List.rel_append (translates_expr cond hwf.1 hc h) (List.rel_append
      (translates_block thenBlock hwf.2.1 hbody (h.block hbody))
      (translates_clauses clauses hwf.2.2.1 hbranch h helse))
  | .whileLoop cond block span, _, _, _, _, _, hwf, ht, h => by
    obtain ⟨c, body, hc, hbody, _, -, rfl⟩ := ht
    exact List.rel_append (translates_expr cond hwf.1 hc h)
      (translates_block block hwf.2 hbody (h.block hbody))
  | .forNumeric var start stop step block span, _, _, _, site, reach, hwf, ht, h => by
    obtain ⟨first, last, amount, body, hfirst, hlast, hamount, hbody, _, _, _, update, ⟨_, -, rfl⟩,
      ⟨_, -, rfl⟩, ⟨_, -, rfl⟩, hupdate, _, -, rfl⟩ := ht
    have hloop := h.nest [var.text]
    have hstep : List.Forall₂ (Translates p)
        (Source.stepVarargUses ctx (reach.map (Reach.nest [var.text])) step)
        (update.restUses (site.nest [var.text])) := by
      cases step with
      | none =>
        cases hamount
        obtain ⟨_, -, rfl⟩ := hupdate
        exact .nil
      | some step =>
        obtain ⟨a, ha, rfl⟩ := hamount
        obtain ⟨_, -, rfl⟩ := hupdate
        rw [Target.Expr.restUses]
        exact translates_expr step hwf.2.2.1 ha hloop
    exact List.rel_append (translates_expr start hwf.1 hfirst hloop) (List.rel_append
      (translates_expr stop hwf.2.1 hlast hloop) (List.rel_append hstep
        (translates_block block hwf.2.2.2 hbody (hloop.block hbody))))
  | .forGeneric vars iterators block span, _, _, _, _, _, hwf, ht, h => by
    obtain ⟨iterable, body, hiterable, hbody, _, -, rfl⟩ := ht
    have hloop := h.nest (vars.map Source.Name.text)
    have hhead := translates_iterable iterators hwf.2.1 hwf.2.2.1 hiterable hloop
    have hnames : ((Target.Binding.array (vars.map Source.Name.text)).declares none).map Prod.fst =
        vars.map Source.Name.text := by
      simp [Target.Binding.declares, Function.comp_def]
    rw [Target.Stmt.restUses, hnames]
    exact List.rel_append hhead (translates_block block hwf.2.2.2 hbody (hloop.block hbody))
  | .breakStmt span, _, _, _, _, _, _, ht, _ => by
    obtain ⟨_, -, rfl⟩ := ht
    exact .nil

theorem translates_else : ∀ (o : Option Source.Block) {last : Target.Else} {site : Site}
    {reach : Option Reach}, Source.WellFormedElse o → LoweredElse ctx p o last →
    Agree p site reach →
    List.Forall₂ (Translates p) (Source.elseVarargUses ctx reach o) (last.restUses site)
  | none, _, _, _, _, hlast, _ => by
    cases hlast
    exact .nil
  | some block, _, _, _, hwf, hlast, h => by
    obtain ⟨out, hout, rfl⟩ := hlast
    exact translates_block block hwf hout (h.block hout)

theorem translates_iterable : ∀ (es : List Source.Expr) {tags : List Tag} {span : Span}
    {a : Target.Expr} {site : Site} {reach : Option Reach}, es ≠ [] → Source.WellFormedExprs es →
    LoweredIterable ctx p tags span es a → Agree p site reach →
    List.Forall₂ (Translates p) (Source.exprVarargUses ctx reach es) (a.restUses site)
  | [], _, _, _, _, _, hne, _, _, _ => absurd rfl hne
  | [e], _, _, _, _, _, _, hwf, ha, h => by
    rw [Source.exprVarargUses, Source.exprVarargUses, List.append_nil]
    exact translates_expr e hwf.1 ha h

theorem translates_block : ∀ (b : Source.Block) {top : Bool} {out : List Target.Stmt} {site : Site}
    {reach : Option Reach}, b.WellFormed → LoweredBlock ctx p top b out → Agree p site reach →
    List.Forall₂ (Translates p) (b.varargUses ctx top reach) (Target.stmtRestUses site out)
  | .mk start [], top, _, _, _, _, hout, _ => by
    cases (loweredBlock_plain rfl).1 hout
    exact .nil
  | .mk start (first :: rest), top, _, site, _, hwf, hout, h => by
    rcases shapeOf_cons_cases ctx top start first rest with
      ⟨hshape, -⟩ | ⟨hshape, -⟩ | ⟨name, _, _, span, -, hshape, -⟩
    · rw [varargUses_plain hshape]
      exact translates_stmts (first :: rest) hwf ((loweredBlock_plain hshape).1 hout) h
    · obtain ⟨exports, others, hexports, hothers, rfl⟩ := (loweredBlock_module hshape).1 hout
      have hmembers := translates_exports rest (s := site) hwf.2.2 hexports
      rw [varargUses_rewritten (.inl hshape), stmtRestUses_append]
      exact List.rel_append hmembers (translates_stmts rest hwf.2.2 hothers h)
    · obtain ⟨methods, _, others, hmethods, ⟨_, -, rfl⟩, hothers, rfl⟩ :=
        (loweredBlock_class hshape).1 hout
      have hmembers := translates_methods rest (s := site) hwf.2.2 hmethods
      rw [varargUses_rewritten (.inr ⟨_, _, hshape⟩)]
      exact List.rel_append hmembers (translates_stmts rest hwf.2.2 hothers h)

theorem translates_clauses : ∀ (cs : List Source.Clause) {tags : List Tag}
    {last branch : Target.Else} {site : Site} {reach : Option Reach} {vs : List VarargUse},
    Source.WellFormedClauses cs → LoweredClauses ctx p tags last cs branch → Agree p site reach →
    List.Forall₂ (Translates p) vs (last.restUses site) →
    List.Forall₂ (Translates p) (Source.clauseVarargUses ctx reach cs ++ vs) (branch.restUses site)
  | [], _, _, _, _, _, _, _, hcs, _, hlast => by
    cases hcs
    exact hlast
  | .mk cond block :: cs, _, _, _, _, _, _, hwf, hcs, h, hlast => by
    obtain ⟨c, body, rest, _, hc, hbody, hrest, ⟨_, -, rfl⟩, rfl⟩ := hcs
    rw [Source.clauseVarargUses, List.append_assoc, List.append_assoc]
    exact List.rel_append (translates_expr cond hwf.1.1 hc h) (List.rel_append
      (translates_block block hwf.1.2 hbody (h.block hbody))
      (translates_clauses cs hwf.2 hrest h hlast))

theorem translates_stmts : ∀ (ss : List Source.Stmt) {top : Bool} {keep : Source.Stmt → Bool}
    {floor : Nat} {ts : List Target.Stmt} {site : Site} {reach : Option Reach},
    Source.WellFormedStmts ss → LoweredStmts ctx p top keep floor ss ts → Agree p site reach →
    List.Forall₂ (Translates p) (Source.stmtVarargUses ctx keep reach ss)
      (Target.stmtRestUses site ts)
  | [], _, _, _, _, _, _, _, hts, _ => by
    cases hts
    exact .nil
  | s :: ss, _, _, _, _, _, _, hwf, hts, h => by
    rw [LoweredStmts] at hts
    rw [Source.stmtVarargUses]
    split at hts
    next hkeep =>
      obtain ⟨u, us, hu, hus, rfl⟩ := hts
      rw [if_pos hkeep]
      exact List.rel_append (translates_stmt s hwf.2.1 hu h) (translates_stmts ss hwf.2.2 hus h)
    next hkeep =>
      rw [if_neg hkeep, List.nil_append]
      exact translates_stmts ss hwf.2.2 hts h

theorem translates_member : ∀ (s : Source.Stmt) {tags : List Tag} {id : Nat} {f : Target.Function}
    {site : Site}, s.WellFormed → LoweredMember ctx p tags id f s →
    List.Forall₂ (Translates p) (s.memberVarargUses ctx) (f.restUses site id)
  | s, _, _, _, _, hwf, h => by
    cases s with
    | functionDecl name isLocal func span =>
      have hfunc : func.WellFormed := by
        cases isLocal <;> exact hwf.2
      cases name with
      | member =>
        obtain ⟨hid, _, _, hf⟩ := h
        exact translates_function func hfunc hf hid
      | ident | literal | index | unary | binary | logical | table | call | stringCall | tableCall
      | function => exact h.elim
    | localDecl | assign | call | returnStmt | ifStmt | whileLoop | forNumeric | forGeneric
    | breakStmt | repeatLoop | doBlock | goto | label => exact h.elim

theorem translates_exports : ∀ (ss : List Source.Stmt) {floor : Nat} {ts : List Target.Stmt}
    {s : Site}, Source.WellFormedStmts ss → LoweredExports ctx p floor ss ts →
    List.Forall₂ (Translates p) (Source.memberVarargUses ctx ss) (Target.stmtRestUses s ts)
  | [], _, _, _, _, hts => by
    cases hts
    exact .nil
  | s :: ss, _, _, _, hwf, hts => by
    rw [LoweredExports] at hts
    rw [Source.memberVarargUses]
    split at hts
    next hmember =>
      obtain ⟨u, us, hu, hus, rfl⟩ := hts
      obtain ⟨id, _, f, rfl, hf⟩ := hu.member hmember
      exact List.rel_append (translates_member s hwf.2.1 hf) (translates_exports ss hwf.2.2 hus)
    next hmember =>
      rw [memberVarargUses_of_not hmember, List.nil_append]
      exact translates_exports ss hwf.2.2 hts

theorem translates_methods : ∀ (ss : List Source.Stmt) {floor : Nat} {ms : List Target.Method}
    {s : Site}, Source.WellFormedStmts ss → LoweredMethods ctx p floor ss ms →
    List.Forall₂ (Translates p) (Source.memberVarargUses ctx ss) (Target.methodRestUses s ms)
  | [], _, _, _, _, hms => by
    cases hms
    exact .nil
  | s :: ss, _, _, _, hwf, hms => by
    rw [LoweredMethods] at hms
    rw [Source.memberVarargUses]
    split at hms
    next hmember =>
      obtain ⟨m, ms, hm, hms, rfl⟩ := hms
      obtain ⟨id, _, _, f, rfl, hf⟩ := hm.member hmember
      exact List.rel_append (translates_member s hwf.2.1 hf) (translates_methods ss hwf.2.2 hms)
    next hmember =>
      rw [memberVarargUses_of_not hmember, List.nil_append]
      exact translates_methods ss hwf.2.2 hms

end

end Trees

/-! ### Whole sources -/

/-- **The remaining arguments are captured exactly by their own name**: of every use of `...` in a
function that takes remaining arguments there is one spread name, and it resolves to the parameter
of that function alone unless a scope between the two, or another parameter, declares `vararg`. -/
theorem lowerChunk_varargs_resolve {source : String} {module classmod : Bool}
    {chunk : Source.Chunk} {st st' : State} {out : List Target.Stmt}
    (hparse : Source.parse source = .ok chunk)
    (hrun : lowerChunk module classmod chunk st = .ok out st') :
    List.Forall₂ (Translates st'.provenance) (chunk.varargUses module classmod)
      (Target.restUses out) := by
  have hlowered : lowerBlock ⟨module, classmod, chunk.comments⟩ true chunk.body .initial =
      .ok out st' := hrun
  have hbuilt : LoweredBlock ⟨module, classmod, chunk.comments⟩ st'.provenance true chunk.body
      out := (lowered_lowerBlock chunk.body _ out st' hlowered).2 fun _ _ _ => rfl
  exact translates_block chunk.body (Source.wellFormed_of_parse hparse) hbuilt (.outside rfl)

/-- The remaining arguments are passed on from a loop inside a function with two other names. -/
def passedOn : String :=
  "local function f(a, ...)\n  local n = 1\n  for i = 1, n do\n    g(i, ...)\n  end\nend"

theorem lowerChunk_varargs_passedOn :
    ∃ chunk out st', Source.parse passedOn = .ok chunk ∧
      lowerChunk false false chunk .initial = .ok out st' ∧
      (Target.restUses out).map (fun u => (u.function, u.declared)) = [(15, [.rest 15])] ∧
      List.Forall₂ (Translates st'.provenance) (chunk.varargUses false false)
        (Target.restUses out) := by
  have huses : inspect? false false (fun out _ => (Target.restUses out).map
      fun u => (u.function, u.declared)) passedOn = some [(15, [.rest 15])] := by decide +kernel
  obtain ⟨chunk, out, st', hparse, hrun, hview⟩ := exists_of_inspect? huses
  exact ⟨chunk, out, st', hparse, hrun, hview, lowerChunk_varargs_resolve hparse hrun⟩

/-- Between the function and the use there is a variable of the name that is made up for them. -/
def capturedByLocal : String :=
  "local function f(...)\n  if x then\n    local vararg = 1\n    g(...)\n  end\nend"

/-- The spread name resolves to the variable. -/
theorem lowerChunk_captures_capturedByLocal :
    ∃ chunk out st', Source.parse capturedByLocal = .ok chunk ∧
      lowerChunk false false chunk .initial = .ok out st' ∧
      (Target.restUses out).map Target.RestUse.declared = [[.other]] ∧
      ¬∀ u ∈ Target.restUses out, u.declared = [.rest u.function] := by
  have huses : inspect? false false (fun out _ => (Target.restUses out).map
      Target.RestUse.declared) capturedByLocal = some [[.other]] := by decide +kernel
  obtain ⟨chunk, out, st', hparse, hrun, hview⟩ := exists_of_inspect? huses
  refine ⟨chunk, out, st', hparse, hrun, hview, fun hown => ?_⟩
  have hmem : [Declared.other] ∈ (Target.restUses out).map Target.RestUse.declared := by
    rw [hview]
    exact List.mem_singleton_self _
  obtain ⟨u, hu, hdeclared⟩ := List.mem_map.1 hmem
  cases hdeclared.symm.trans (hown u hu)

end Lowering

end LuaTranspiler
