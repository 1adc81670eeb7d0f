import LuaTranspiler.Source.Tree

/-!
# What has no counterpart in TypeScript

* `Lowering.Error`: the causes for which a tree is refused
* `Lowering.Error.message`: their wording
-/

namespace LuaTranspiler.Lowering

/-- Why a Lua tree is refused, and where. -/
inductive Error where
  | unknownStatement (kind : String) (span : Span)
  | unknownOperator (op : Source.BinaryOp) (span : Span)
  /-- A function is declared under something other than a name or a member. -/
  | unsupportedDeclaration (span : Span)
  | unsupportedTarget (span : Span)
  /-- A table has fields with and without keys. -/
  | mixedTable (span : Span)
  | unknownType (name : String) (span : Span)
  /-- Only a function declared under a member of a name is exported. -/
  | notExportable (reason : String) (span : Span)
  | multipleIterators (count : Nat) (span : Span)
deriving DecidableEq

/-- The wording of an error. -/
def Error.message : Error → String
  | unknownStatement kind span => span.text ++ " Unknown statement type: " ++ kind
  | unknownOperator op span => span.text ++ " Unknown operator '" ++ op.text ++ "'"
  | unsupportedDeclaration span =>
    span.text ++ " Function declarations must be named by an identifier or a member path"
  | unsupportedTarget span =>
    span.text ++ " Only identifiers, member and index expressions can be assigned to"
  | mixedTable span => span.text ++ " Cannot use table keys and values together"
  | unknownType name span => span.text ++ " Unknown type '" ++ name ++ "'"
  | notExportable reason span => span.text ++ " Cannot export " ++ reason
  | multipleIterators count span =>
    span.text ++ " Generic for loops take a single iterator expression, found " ++ count.repr

end LuaTranspiler.Lowering
