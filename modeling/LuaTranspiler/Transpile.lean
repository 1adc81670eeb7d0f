import LuaTranspiler.Lowering.Tree
import LuaTranspiler.Options
import LuaTranspiler.Source.Chunk
import LuaTranspiler.Target.Writer
import LuaTranspiler.Typing.Checker

/-!
# From Lua source to TypeScript source

* `Refusal`: why a source has no output
* `Output`: the printed code, the reports, the line map and the tree
* `transpile`: the output of a source
-/

namespace LuaTranspiler

/-- Why a source has no output. -/
inductive Refusal where
  | parsing (e : SyntaxError)
  | lowering (e : Lowering.Error)
deriving DecidableEq

/-- The wording of a refusal. -/
def Refusal.message : Refusal → String
  | parsing e => e.message
  | lowering e => e.message

/-- What a source is turned into. -/
structure Output where
  code : String
  diagnostics : List String
  /-- The line map, when it was asked for. -/
  sourceMap : Option (List LineMapping)
  statements : List Target.Stmt

/-- The output of statements that were built with a final state. -/
def Output.ofStatements (o : Options) (stmts : List Target.Stmt) (s : Lowering.State) : Output :=
  let found := if o.semanticDiagnostics then check stmts s.provenance else []
  let listing := Target.print stmts (if o.sourceMap then some s.provenance else none)
  { code := listing.code
    diagnostics := s.diagnostics.map Lowering.Diagnostic.message ++ found.map Mismatch.message
    sourceMap := if o.sourceMap then some listing.mappings else none
    statements := stmts }

/-- The output of a source. -/
def transpile (o : Options) (source : String) : Except Refusal Output :=
  match Source.parse source with
  | .error e => .error (.parsing e)
  | .ok chunk =>
    match Lowering.lowerChunk o.module o.classmod chunk Lowering.State.initial with
    | .error e _ => .error (.lowering e)
    | .ok stmts s => .ok (.ofStatements o stmts s)

end LuaTranspiler
