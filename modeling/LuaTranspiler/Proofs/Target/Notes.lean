import LuaTranspiler.Target.Writer

/-!
# What a writer notes

The actions that write a tree note the nodes that begin on its lines. Which lines these are does not
matter for where the nodes come from: the line map gives the sources of the noted ids in order.

* `notes as`: the ids that actions note
* `exprNotes`, `propertyNotes`: the ids noted in lists of expressions and properties
* `sourcePos_run`, `sourcePos_print`: the sources of a line map are those of the notes
-/

namespace LuaTranspiler

/-- The place in the source that a line of a line map was made from. -/
def LineMapping.sourcePos (m : LineMapping) : Position := ⟨m.sourceLine, m.sourceColumn⟩

namespace Target

/-- The ids that actions note, in order. -/
def notes : List Action → List Nat
  | [] => []
  | .map id :: as => id :: notes as
  | .emit _ :: as | .startLine :: as | .endLine :: as | .increaseIndent :: as
  | .decreaseIndent :: as => notes as

attribute [local simp] notes

@[simp] theorem notes_append (as bs : List Action) : notes (as ++ bs) = notes as ++ notes bs := by
  induction as with
  | nil => rfl
  | cons a as ih => cases a <;> simp [ih]

@[simp] theorem notes_wrapped (b : Bool) (as : List Action) : notes (wrapped b as) = notes as := by
  cases b <;> simp [wrapped]

@[simp] theorem notes_writtenAbove (least : Nat) (e : Expr) (as : List Action) :
    notes (e.writtenAbove least as) = notes as := notes_wrapped _ as

@[simp] theorem notes_writtenAsObject (e : Expr) (as : List Action) :
    notes (e.writtenAsObject as) = notes as := notes_wrapped _ as

@[simp] theorem notes_writtenAsLeft (op : BinaryOp) (e : Expr) (as : List Action) :
    notes (e.writtenAsLeft op as) = notes as := notes_wrapped _ as

@[simp] theorem notes_blockActions (lines : List Action) :
    notes (blockActions lines) = notes lines := by simp [blockActions]

theorem notes_listed (ass : List (List Action)) : notes (listed ass) = ass.flatMap notes := by
  induction ass with
  | nil => rfl
  | cons as ass ih => cases ass <;> simp_all [listed]

/-- The ids noted in expressions. -/
def exprNotes : List Expr → List Nat
  | [] => []
  | e :: es => notes e.actions ++ exprNotes es

@[simp] theorem notes_listed_exprActions (es : List Expr) :
    notes (listed (exprActions es)) = exprNotes es := by
  rw [notes_listed]
  induction es with
  | nil => rfl
  | cons e es ih => rw [exprActions, List.flatMap_cons, ih, notes_writtenAbove, exprNotes]

/-- The ids noted in properties. -/
def propertyNotes : List Property → List Nat
  | [] => []
  | .named _ value :: ps => notes value.actions ++ propertyNotes ps
  | .computed key value :: ps => notes key.actions ++ (notes value.actions ++ propertyNotes ps)

@[simp] theorem notes_listed_propertyActions (ps : List Property) :
    notes (listed (propertyActions ps)) = propertyNotes ps := by
  rw [notes_listed]
  induction ps with
  | nil => rfl
  | cons property ps ih => cases property <;> simp [propertyActions, propertyNotes, ih]

/-! ### The line map -/

/-- The places in the source that are recorded for ids. -/
def sources (p : Provenance) (ids : List Nat) : List Position :=
  ids.filterMap fun id => (p.get? id).map Span.startPos

theorem sources_append (p : Provenance) (ids ids' : List Nat) :
    sources p (ids ++ ids') = sources p ids ++ sources p ids' := List.filterMap_append

/-- An action adds to the line map what it notes. -/
theorem sourcePos_step (p : Provenance) (w : Writer) (a : Action) :
    (Writer.step (some p) w a).mappings.toList.map LineMapping.sourcePos =
      w.mappings.toList.map LineMapping.sourcePos ++ sources p (notes [a]) := by
  cases a with
  | map id =>
    cases h : p.get? id <;>
      simp [Writer.step, Writer.mapping?, sources, h, LineMapping.sourcePos]
  | _ => simp [Writer.step, sources]

theorem sourcePos_run (p : Provenance) (w : Writer) (as : List Action) :
    (Writer.run (some p) w as).mappings.toList.map LineMapping.sourcePos =
      w.mappings.toList.map LineMapping.sourcePos ++ sources p (notes as) := by
  induction as generalizing w with
  | nil => simp [Writer.run, sources]
  | cons a as ih =>
    have hnotes : notes (a :: as) = notes [a] ++ notes as := notes_append [a] as
    rw [hnotes, sources_append, ← List.append_assoc, ← sourcePos_step]
    exact ih (Writer.step (some p) w a)

/-- The sources of the line map of statements are those of what their actions note. -/
theorem sourcePos_print (p : Provenance) (stmts : List Stmt) :
    (print stmts (some p)).mappings.map LineMapping.sourcePos =
      sources p (notes (lineActions stmts)) :=
  sourcePos_run p .initial (lineActions stmts)

end Target

end LuaTranspiler
