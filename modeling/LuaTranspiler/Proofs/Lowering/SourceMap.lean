import LuaTranspiler.Proofs.Lowering.Lowered
import LuaTranspiler.Proofs.Lowering.Refusal
import LuaTranspiler.Proofs.Source.Places
import LuaTranspiler.Proofs.Target.Notes
import LuaTranspiler.Transpile

/-!
# The sources of a line map

Where no block is rewritten, the nodes that are noted when a tree is written are recorded to come
from the places of the source, in order. The proof is by recursion over the source, along what is
built for each of its parts. So the line map of a source leads to each of its statements and
`elseif` clauses once, and in the order of the source.

* `ComeFrom p ids spans`: ids are recorded to come from spans, one by one
* `noted_of_loweredExpr`, `noted_of_loweredStmt`, `noted_of_loweredBlock`: what is noted in a built
  tree comes from the places of its source
* `sourceMap_eq_places`: the sources of a line map
-/

namespace LuaTranspiler.Lowering

open Source (Block Comment)
open Target (notes exprNotes propertyNotes lineActions)

/-- The ids are recorded to come from the spans, one by one. -/
def ComeFrom (p : Provenance) (ids : List Nat) (spans : List Span) : Prop :=
  ids.map p.get? = spans.map some

namespace ComeFrom

variable {p : Provenance} {id : Nat} {ids ids' : List Nat} {a : Span} {as bs : List Span}

theorem nil : ComeFrom p [] [] := rfl

theorem cons (hid : p.get? id = some a) (h : ComeFrom p ids as) :
    ComeFrom p (id :: ids) (a :: as) := by
  rw [ComeFrom, List.map_cons, List.map_cons, hid, h]

theorem append (h : ComeFrom p ids as) (h' : ComeFrom p ids' bs) :
    ComeFrom p (ids ++ ids') (as ++ bs) := by
  rw [ComeFrom, List.map_append, List.map_append, h, h']

/-- The positions recorded for the ids are those of the spans. -/
theorem sources (h : ComeFrom p ids as) : Target.sources p ids = as.map Span.startPos := by
  have hmap : Target.sources p ids = (ids.map p.get?).filterMap (Option.map Span.startPos) := by
    rw [Target.sources, List.filterMap_map]
    rfl
  rw [hmap, h, List.filterMap_map]
  exact congrFun List.filterMap_eq_map as

end ComeFrom

/-! ### Parts without places of their own -/

section Parts

variable {p : Provenance} {span : Span}

attribute [local simp] notes exprNotes Target.Expr.actions Target.Stmt.actions
  Target.VarDecl.actions

theorem notes_of_loweredLiteral {value : Source.Literal} {a : Target.Expr}
    (h : LoweredLiteral p span a value) : notes a.actions = [] := by
  cases value with
  | vararg =>
    obtain ⟨_, ⟨_, -, rfl⟩, _, -, rfl⟩ := h
    simp
  | number | string | bool | nil =>
    obtain ⟨_, -, rfl⟩ := h
    simp

theorem notes_of_loweredUnary {op : Source.UnaryOp} {e a : Target.Expr}
    (h : LoweredUnary p span e a op) : notes a.actions = notes e.actions := by
  cases op <;> obtain ⟨_, -, rfl⟩ := h <;> simp

theorem exprNotes_of_joinedValues {es : List Target.Expr} {value : Option Target.Expr}
    (h : JoinedValues p span value es) : exprNotes value.toList = exprNotes es := by
  rcases es with _ | ⟨e, _ | ⟨e', es⟩⟩
  · cases h
    rfl
  · cases h
    rfl
  · obtain ⟨_, ⟨_, -, rfl⟩, rfl⟩ := h
    simp

theorem notes_of_joinedTargets {es : List Target.Expr} {a : Target.Expr}
    (h : JoinedTargets p span a es) : notes a.actions = exprNotes es := by
  rcases es with _ | ⟨e, _ | ⟨e', es⟩⟩
  · obtain ⟨_, -, rfl⟩ := h
    simp
  · cases h
    simp
  · obtain ⟨_, -, rfl⟩ := h
    simp

theorem notes_of_assignedValue {value : Option Target.Expr} {a : Target.Expr}
    (h : AssignedValue p span a value) : notes a.actions = exprNotes value.toList := by
  cases value with
  | some e =>
    cases h
    simp
  | none =>
    obtain ⟨_, -, rfl⟩ := h
    simp

/-- An assignment as a statement notes what its two sides do. -/
theorem notes_of_loweredAssignment {target value : Target.Expr} {t : Target.Stmt}
    (h : LoweredAssignment p span target value t) :
    p.get? t.id = some span ∧ notes t.actions = notes target.actions ++ notes value.actions := by
  obtain ⟨_, ⟨_, -, rfl⟩, _, hid, rfl⟩ := h
  exact ⟨hid, by simp⟩

/-- A loop over numbers notes its bounds, its step and its block. The counter, built once for the
test and once for the update, is never noted. -/
theorem notes_of_loweredLoop {var : Source.Name} {first last : Target.Expr}
    {amount : Option Target.Expr} {body : List Target.Stmt} {t : Target.Stmt}
    (h : LoweredLoop p span var first last amount body t) :
    p.get? t.id = some span ∧ notes t.actions = notes first.actions ++
      (notes last.actions ++ (exprNotes amount.toList ++ notes (lineActions body))) := by
  obtain ⟨_, _, _, update, ⟨_, -, rfl⟩, ⟨_, -, rfl⟩, ⟨_, -, rfl⟩, hupdate, _, hid, rfl⟩ := h
  refine ⟨hid, ?_⟩
  cases amount with
  | none =>
    obtain ⟨_, -, rfl⟩ := hupdate
    simp
  | some amount =>
    obtain ⟨_, -, rfl⟩ := hupdate
    simp

end Parts

/-! ### Trees -/

section Trees

variable {comments : List Comment} {p : Provenance}

attribute [local simp] notes exprNotes propertyNotes Target.Expr.actions Target.Stmt.actions
  Target.VarDecl.actions Target.Function.actions Target.Else.actions Source.Expr.places
  Source.exprPlaces Source.Field.places Source.fieldPlaces Source.Function.places
  Source.Stmt.innerPlaces Source.elsePlaces Source.stepPlaces Source.clausePlaces

mutual

theorem noted_of_loweredExpr : ∀ (e : Source.Expr) {tags : List Tag} {a : Target.Expr},
    LoweredExpr ⟨false, false, comments⟩ p tags e a → ComeFrom p (notes a.actions) e.places
  | .ident name span, _, _, h => by
    obtain ⟨_, -, rfl⟩ := h
    simpa using ComeFrom.nil
  | .literal value span, _, _, h => by
    simpa [notes_of_loweredLiteral h] using ComeFrom.nil
  | .member base _ name span, _, _, h => by
    obtain ⟨object, hobject, _, -, rfl⟩ := h
    simpa using noted_of_loweredExpr base hobject
  | .index base index span, _, _, h => by
    obtain ⟨object, i, hobject, hi, _, -, rfl⟩ := h
    simpa using (noted_of_loweredExpr base hobject).append (noted_of_loweredExpr index hi)
  | .unary op operand span, _, _, h => by
    obtain ⟨e, he, h⟩ := h
    simpa [notes_of_loweredUnary h] using noted_of_loweredExpr operand he
  | .binary lhs op rhs span, _, _, h => by
    obtain ⟨b, _, c, -, hb, hc, _, -, rfl⟩ := h
    simpa using (noted_of_loweredExpr lhs hb).append (noted_of_loweredExpr rhs hc)
  | .logical lhs op rhs span, _, _, h => by
    obtain ⟨b, c, hb, hc, _, -, rfl⟩ := h
    simpa using (noted_of_loweredExpr lhs hb).append (noted_of_loweredExpr rhs hc)
  | .table fields span, _, _, h => by
    rcases h with ⟨es, hes, _, -, rfl⟩ | ⟨ps, hps, _, -, rfl⟩
    · simpa using noted_of_loweredElements fields hes
    · have hproperties := noted_of_loweredProperties fields hps
      cases ps <;> simpa using hproperties
  | .call base args span, _, _, h => by
    obtain ⟨callee, as, hcallee, has, _, -, rfl⟩ := h
    simpa using (noted_of_loweredExpr base hcallee).append (noted_of_loweredExprs args has)
  | .stringCall base argument span, _, _, h | .tableCall base argument span, _, _, h => by
    obtain ⟨callee, arg, hcallee, harg, _, -, rfl⟩ := h
    simpa using (noted_of_loweredExpr base hcallee).append (noted_of_loweredExpr argument harg)
  | .function func span, _, _, h => by
    obtain ⟨_, f, -, hf, _, -, rfl⟩ := h
    simpa using noted_of_loweredFunction func hf

theorem noted_of_loweredExprs : ∀ (es : List Source.Expr) {tags : List Tag}
    {as : List Target.Expr}, LoweredExprs ⟨false, false, comments⟩ p tags es as →
    ComeFrom p (exprNotes as) (Source.exprPlaces es)
  | [], _, _, h => by
    cases h
    simpa using ComeFrom.nil
  | e :: es, _, _, h => by
    obtain ⟨b, bs, hb, hbs, rfl⟩ := h
    simpa using (noted_of_loweredExpr e hb).append (noted_of_loweredExprs es hbs)

theorem noted_of_loweredElements : ∀ (fs : List Source.Field) {tags : List Tag}
    {as : List Target.Expr}, LoweredElements ⟨false, false, comments⟩ p tags fs as →
    ComeFrom p (exprNotes as) (Source.fieldPlaces fs)
  | [], _, _, h => by
    cases h
    simpa using ComeFrom.nil
  | .positional value _ :: fs, _, _, h => by
    obtain ⟨b, bs, hb, hbs, rfl⟩ := h
    simpa using (noted_of_loweredExpr value hb).append (noted_of_loweredElements fs hbs)

theorem noted_of_loweredProperties : ∀ (fs : List Source.Field) {tags : List Tag}
    {ps : List Target.Property}, LoweredProperties ⟨false, false, comments⟩ p tags fs ps →
    ComeFrom p (propertyNotes ps) (Source.fieldPlaces fs)
  | [], _, _, h => by
    cases h
    simpa using ComeFrom.nil
  | .named key value _ :: fs, _, _, h => by
    obtain ⟨v, qs, hv, hqs, rfl⟩ := h
    simpa using (noted_of_loweredExpr value hv).append (noted_of_loweredProperties fs hqs)
  | .keyed key value _ :: fs, _, _, h => by
    obtain ⟨k, v, qs, hk, hv, hqs, rfl⟩ := h
    simpa using (noted_of_loweredExpr key hk).append
      ((noted_of_loweredExpr value hv).append (noted_of_loweredProperties fs hqs))

theorem noted_of_loweredFunction : ∀ (func : Source.Function) {tags : List Tag} {method : Bool}
    {ty : Option Ty} {f : Target.Function},
    LoweredFunction ⟨false, false, comments⟩ p tags method ty func f →
    ComeFrom p (notes f.actions) func.places
  | .mk params body, _, _, _, _, h => by
    obtain ⟨ps, out, -, hout, rfl⟩ := h
    simpa using noted_of_loweredBlock body hout

theorem noted_of_loweredStmt : ∀ (s : Source.Stmt) {top : Bool} {tags : List Tag}
    {t : Target.Stmt}, LoweredStmt ⟨false, false, comments⟩ p top tags s t →
    p.get? t.id = some s.span ∧ ComeFrom p (notes t.actions) s.innerPlaces
  | .localDecl names init span, _, _, _, h => by
    obtain ⟨_, es, value, -, hes, hvalue, _, hid, rfl⟩ := h
    have hinit := noted_of_loweredExprs init hes
    rw [← exprNotes_of_joinedValues hvalue] at hinit
    refine ⟨hid, ?_⟩
    cases value <;> simpa using hinit
  | .assign targets init span, _, _, _, h => by
    obtain ⟨lhs, target, es, value, v, hlhs, htarget, hes, hvalue, hv, h⟩ := h
    obtain ⟨hid, ht⟩ := notes_of_loweredAssignment h
    refine ⟨hid, ?_⟩
    rw [ht, notes_of_joinedTargets htarget, notes_of_assignedValue hv,
      exprNotes_of_joinedValues hvalue]
    exact (noted_of_loweredExprs targets hlhs).append (noted_of_loweredExprs init hes)
  | .call call span, _, _, _, h => by
    obtain ⟨e, he, _, hid, rfl⟩ := h
    exact ⟨hid, by simpa using noted_of_loweredExpr call he⟩
  | .functionDecl (.ident ident _) _ func span, _, _, _, h => by
    obtain ⟨_, f, -, hf, _, hid, rfl⟩ := h
    exact ⟨hid, by simpa using noted_of_loweredFunction func hf⟩
  | .functionDecl (.member base indexer member memberSpan) _ func span, _, _, _, h => by
    obtain ⟨_, object, _, f, _, -, hobject, ⟨_, -, rfl⟩, hf, ⟨_, -, rfl⟩, h⟩ := h
    obtain ⟨hid, ht⟩ := notes_of_loweredAssignment h
    refine ⟨hid, ?_⟩
    rw [ht]
    simpa using (noted_of_loweredExpr base hobject).append (noted_of_loweredFunction func hf)
  | .returnStmt values span, _, _, _, h => by
    obtain ⟨es, value, hes, hvalue, h⟩ := h
    have hvalues := noted_of_loweredExprs values hes
    rw [← exprNotes_of_joinedValues hvalue] at hvalues
    rcases h with ⟨v, -, rfl, _, hid, rfl⟩ | ⟨-, _, hid, rfl⟩
    · exact ⟨hid, by simpa using hvalues⟩
    · refine ⟨hid, ?_⟩
      cases value <;> simpa using hvalues
  | .ifStmt cond thenBlock clauses elseBlock span, _, _, _, h => by
    obtain ⟨c, body, last, branch, hc, hbody, hlast, hbranch, _, hid, rfl⟩ := h
    have hrest := noted_of_loweredClauses clauses (noted_of_loweredElse elseBlock hlast) hbranch
    refine ⟨hid, ?_⟩
    simpa using (noted_of_loweredExpr cond hc).append
      ((noted_of_loweredBlock thenBlock hbody).append hrest)
  | .whileLoop cond block span, _, _, _, h => by
    obtain ⟨c, body, hc, hbody, _, hid, rfl⟩ := h
    refine ⟨hid, ?_⟩
    simpa using (noted_of_loweredExpr cond hc).append (noted_of_loweredBlock block hbody)
  | .forNumeric var start stop step block span, _, _, _, h => by
    obtain ⟨first, last, amount, body, hfirst, hlast, hamount, hbody, h⟩ := h
    obtain ⟨hid, ht⟩ := notes_of_loweredLoop h
    refine ⟨hid, ?_⟩
    rw [ht]
    exact (noted_of_loweredExpr start hfirst).append ((noted_of_loweredExpr stop hlast).append
      ((noted_of_loweredStep step hamount).append (noted_of_loweredBlock block hbody)))
  | .forGeneric vars iterators block span, _, _, _, h => by
    obtain ⟨iterable, body, hiterable, hbody, _, hid, rfl⟩ := h
    refine ⟨hid, ?_⟩
    simpa using (noted_of_loweredIterable iterators hiterable).append
      (noted_of_loweredBlock block hbody)
  | .breakStmt span, _, _, _, h => by
    obtain ⟨_, hid, rfl⟩ := h
    exact ⟨hid, by simpa using ComeFrom.nil⟩

theorem noted_of_loweredElse : ∀ (o : Option Block) {last : Target.Else},
    LoweredElse ⟨false, false, comments⟩ p o last →
    ComeFrom p (notes last.actions) (Source.elsePlaces o)
  | none, _, h => by
    cases h
    simpa using ComeFrom.nil
  | some block, _, h => by
    obtain ⟨out, hout, rfl⟩ := h
    simpa using noted_of_loweredBlock block hout

theorem noted_of_loweredStep : ∀ (o : Option Source.Expr) {tags : List Tag}
    {amount : Option Target.Expr}, LoweredStep ⟨false, false, comments⟩ p tags o amount →
    ComeFrom p (exprNotes amount.toList) (Source.stepPlaces o)
  | none, _, _, h => by
    cases h
    simpa using ComeFrom.nil
  | some step, _, _, h => by
    obtain ⟨a, ha, rfl⟩ := h
    simpa using noted_of_loweredExpr step ha

theorem noted_of_loweredIterable : ∀ (es : List Source.Expr) {tags : List Tag} {span : Span}
    {a : Target.Expr}, LoweredIterable ⟨false, false, comments⟩ p tags span es a →
    ComeFrom p (notes a.actions) (Source.exprPlaces es)
  | [], _, _, _, h => by
    obtain ⟨_, -, rfl⟩ := h
    simpa using ComeFrom.nil
  | [e], _, _, _, h => by simpa using noted_of_loweredExpr e h

/-- The branches behind an `if` note its clauses in order, and then the last of them. -/
theorem noted_of_loweredClauses : ∀ (cs : List Source.Clause) {tags : List Tag}
    {last branch : Target.Else} {spans : List Span}, ComeFrom p (notes last.actions) spans →
    LoweredClauses ⟨false, false, comments⟩ p tags last cs branch →
    ComeFrom p (notes branch.actions) (Source.clausePlaces cs ++ spans)
  | [], _, _, _, _, hlast, h => by
    cases h
    simpa using hlast
  | .mk cond block :: cs, _, _, _, _, hlast, h => by
    obtain ⟨c, body, rest, _, hc, hbody, hrest, ⟨id, hid, rfl⟩, rfl⟩ := h
    have hall := ComeFrom.cons hid ((noted_of_loweredExpr cond hc).append
      ((noted_of_loweredBlock block hbody).append (noted_of_loweredClauses cs hlast hrest)))
    simpa [Target.Stmt.id] using hall

theorem noted_of_loweredStmts : ∀ (ss : List Source.Stmt) {top : Bool} {floor : Nat}
    {ts : List Target.Stmt},
    LoweredStmts ⟨false, false, comments⟩ p top (fun _ => true) floor ss ts →
    ComeFrom p (notes (lineActions ts)) (Source.stmtPlaces ss)
  | [], _, _, _, h => by
    cases h
    exact .nil
  | s :: ss, _, _, _, h => by
    obtain ⟨u, us, hu, hus, rfl⟩ := h
    obtain ⟨hid, hs⟩ := noted_of_loweredStmt s hu
    rw [Source.stmtPlaces]
    simpa [lineActions] using ComeFrom.cons hid (hs.append (noted_of_loweredStmts ss hus))

theorem noted_of_loweredBlock : ∀ (b : Block) {top : Bool} {out : List Target.Stmt},
    LoweredBlock ⟨false, false, comments⟩ p top b out →
    ComeFrom p (notes (lineActions out)) b.places
  | .mk start stmts, _, _, h => by
    rw [loweredBlock_plain shapeOf_of_plain] at h
    rw [Source.Block.places]
    exact noted_of_loweredStmts stmts h

end

end Trees

/-! ### Whole sources -/

/-- What is noted when the statements of a source are written comes from its places. -/
theorem noted_lowerChunk {chunk : Source.Chunk} {st st' : State} {out : List Target.Stmt}
    (h : lowerChunk false false chunk st = .ok out st') :
    ComeFrom st'.provenance (notes (lineActions out)) chunk.body.places := by
  have hrun : lowerBlock ⟨false, false, chunk.comments⟩ true chunk.body .initial =
      .ok out st' := h
  exact noted_of_loweredBlock chunk.body
    ((lowered_lowerBlock chunk.body _ out st' hrun).2 fun _ _ _ => rfl)

/-- **The line map leads to every statement once, in order.** Where no block is rewritten, its
sources are the starts of all statements, at every depth, and of the conditions behind `elseif`, in
the order of the source. Each of them has one entry. -/
theorem sourceMap_eq_places {o : Options} {source : String} {out : Output}
    (hmap : o.sourceMap = true) (hmodule : o.module = false) (hclassmod : o.classmod = false)
    (h : transpile o source = .ok out) :
    ∃ chunk ms, Source.parse source = .ok chunk ∧ out.sourceMap = some ms ∧
      ms.map LineMapping.sourcePos = chunk.body.places.map Span.startPos ∧
      chunk.body.places.Perm (chunk.body.blocks.flatMap Block.ownPlaces) ∧
      (ms.map LineMapping.sourcePos).Pairwise Position.Before := by
  cases hparse : Source.parse source with
  | error e => simp [transpile, hparse] at h
  | ok chunk =>
    cases hrun : lowerChunk false false chunk .initial with
    | error e st => simp [transpile, hparse, hmodule, hclassmod, hrun] at h
    | ok stmts st =>
      have hout : Output.ofStatements o stmts st = out := by
        simpa [transpile, hparse, hmodule, hclassmod, hrun] using h
      have hsources : (Target.print stmts (some st.provenance)).mappings.map
          LineMapping.sourcePos = chunk.body.places.map Span.startPos := by
        rw [Target.sourcePos_print]
        exact (noted_lowerChunk hrun).sources
      refine ⟨chunk, _, rfl, ?_, hsources, chunk.body.perm_places, ?_⟩
      · rw [← hout, Output.ofStatements]
        simp [hmap]
      · rw [hsources]
        exact Source.pairwise_places hparse

/-- Statements in a function, behind an `elseif` and in a function within its condition. -/
def branchedSource : String :=
  "local f = function()\n  return\nend\nif f then g() elseif h(function() i() end) then\n  j()\nend"

theorem sourceMap_eq_places_branchedSource :
    ∃ out chunk ms, transpile { sourceMap := true } branchedSource = .ok out ∧
      Source.parse branchedSource = .ok chunk ∧ out.sourceMap = some ms ∧
      ms.map LineMapping.sourcePos =
        [⟨1, 0⟩, ⟨2, 2⟩, ⟨4, 0⟩, ⟨4, 10⟩, ⟨4, 21⟩, ⟨4, 34⟩, ⟨5, 2⟩] ∧
      ms.map LineMapping.sourcePos = chunk.body.places.map Span.startPos ∧
      chunk.body.places.Perm (chunk.body.blocks.flatMap Block.ownPlaces) ∧
      (ms.map LineMapping.sourcePos).Pairwise Position.Before := by
  have hsources : ((transpile { sourceMap := true } branchedSource).toOption.bind fun out =>
      out.sourceMap.map (List.map LineMapping.sourcePos)) =
        some [⟨1, 0⟩, ⟨2, 2⟩, ⟨4, 0⟩, ⟨4, 10⟩, ⟨4, 21⟩, ⟨4, 34⟩, ⟨5, 2⟩] := by decide +kernel
  cases hrun : transpile { sourceMap := true } branchedSource with
  | error e => simp [hrun, Except.toOption] at hsources
  | ok out =>
    obtain ⟨chunk, ms, hparse, hms, hplaces, hperm, hbefore⟩ :=
      sourceMap_eq_places rfl rfl rfl hrun
    simp only [hrun, Except.toOption, Option.bind_some, hms, Option.map_some,
      Option.some.injEq] at hsources
    exact ⟨out, chunk, ms, rfl, hparse, hms, hsources, hplaces, hperm, hbefore⟩

end LuaTranspiler.Lowering
