import LuaTranspiler.Proofs.Target.LineMap
import LuaTranspiler.Transpile

/-!
# What is observed does not change what is made

Types are checked and lines are mapped on the side. Options that differ in these two only give the
same code and the same tree, or the same refusal.

* `code_print`: the text does not depend on the record of where nodes come from
* `transpile_independent`: the main result
-/

namespace LuaTranspiler

theorem code_print (stmts : List Target.Stmt) (provenance : Option Provenance) :
    (Target.print stmts provenance).code = Piece.code (Target.linePieces 0 stmts) :=
  congrArg Listing.code (Target.print_eq_ofPieces stmts provenance)

section Outputs

variable (o o' : Options) (stmts : List Target.Stmt) (s : Lowering.State)

theorem code_ofStatements :
    (Output.ofStatements o stmts s).code = (Output.ofStatements o' stmts s).code := by
  simp only [Output.ofStatements, code_print]

/-- Without checking there are the reports of the lowering alone, and others follow them. -/
theorem diagnostics_ofStatements (h : o.semanticDiagnostics = false) :
    (Output.ofStatements o stmts s).diagnostics <+:
      (Output.ofStatements o' stmts s).diagnostics := by
  simp only [Output.ofStatements, h, Bool.false_eq_true, if_false, List.map_nil, List.append_nil]
  exact List.prefix_append _ _

theorem isSome_sourceMap_ofStatements :
    (Output.ofStatements o stmts s).sourceMap.isSome = o.sourceMap := by
  cases h : o.sourceMap <;> simp [Output.ofStatements, h]

end Outputs

/-- **What is observed does not change what is made.** Options that agree on how blocks are rebuilt
give the same refusal, or the same code and the same tree. The reports that are made without
checking are the first of those that are made with it, and there is a line map exactly if it was
asked for. -/
theorem transpile_independent {o o' : Options} (hmodule : o.module = o'.module)
    (hclassmod : o.classmod = o'.classmod) (source : String) :
    (∃ e, transpile o source = .error e ∧ transpile o' source = .error e) ∨
    ∃ out out', transpile o source = .ok out ∧ transpile o' source = .ok out' ∧
      out.code = out'.code ∧ out.statements = out'.statements ∧
      (o.semanticDiagnostics = false → o'.semanticDiagnostics = true →
        out.diagnostics <+: out'.diagnostics) ∧
      out.sourceMap.isSome = o.sourceMap ∧ out'.sourceMap.isSome = o'.sourceMap := by
  simp only [transpile, hmodule, hclassmod]
  cases Source.parse source with
  | error e => exact .inl ⟨_, rfl, rfl⟩
  | ok chunk =>
    dsimp only
    cases Lowering.lowerChunk o'.module o'.classmod chunk .initial with
    | error e s => exact .inl ⟨_, rfl, rfl⟩
    | ok stmts s =>
      exact .inr ⟨_, _, rfl, rfl, code_ofStatements o o' stmts s, rfl,
        fun hoff _ => diagnostics_ofStatements o o' stmts s hoff,
        isSome_sourceMap_ofStatements o stmts s, isSome_sourceMap_ofStatements o' stmts s⟩

/-- A variable is declared as a number and holds a text. -/
def mistypedLocal : String := "-- @type number\nlocal x = 'a'"

/-- The misfit is reported, or not, beside the same code. -/
theorem transpile_independent_mistypedLocal :
    ∃ out out', transpile ⟨false, false, false, false⟩ mistypedLocal = .ok out ∧
      transpile ⟨false, false, true, true⟩ mistypedLocal = .ok out' ∧
      out.code = out'.code ∧ out.statements = out'.statements ∧
      out.diagnostics <+: out'.diagnostics ∧ out.sourceMap = none ∧
      out'.sourceMap.isSome = true := by
  have hok : (transpile ⟨false, false, false, false⟩ mistypedLocal).toBool = true := by
    decide +kernel
  rcases @transpile_independent ⟨false, false, false, false⟩ ⟨false, false, true, true⟩ rfl rfl
    mistypedLocal with ⟨e, he, -⟩ | ⟨out, out', hout, hout', hcode, hstmts, hdiag, hmap, hmap'⟩
  · rw [he] at hok
    cases hok
  · exact ⟨out, out', hout, hout', hcode, hstmts, hdiag rfl rfl, by simpa using hmap, hmap'⟩

end LuaTranspiler
