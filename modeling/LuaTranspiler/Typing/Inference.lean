import LuaTranspiler.Target.Tree
import LuaTranspiler.Typing.Scope

/-!
# Inferred types

Only the types of literals, of typed names and of operators with a fixed result are inferred.

* `infer?`: the type of an expression, as far as it is known
-/

namespace LuaTranspiler.Target

/-- The type of a sum, from the types of its operands. -/
def sumType? : Ty → Ty → Option Ty
  | .number, .number => some .number
  | .string, _ => some .string
  | _, .string => some .string
  | _, _ => none

/-- The type of a name. -/
def identType? (scopes : Scopes) (name : String) : Option Ty :=
  match scopes.lookup? name with
  | some ty => ty
  | none => if name = "undefined" then some .undefined else none

mutual

/-- The type of an expression, as far as it is known. -/
def infer? (scopes : Scopes) : Expr → Option Ty
  | .number .. => some .number
  | .string .. => some .string
  | .bool .. => some .boolean
  | .ident _ name => identType? scopes name
  | .binary _ lhs op rhs =>
    match op with
    | .add =>
      match infer? scopes lhs, infer? scopes rhs with
      | some a, some b => sumType? a b
      | _, _ => none
    | .sub | .mul | .div | .mod | .pow => some .number
    | .strictEq | .strictNotEq | .less | .lessEq | .greater | .greaterEq => some .boolean
    | .and | .or => none
  | .unary _ .not _ => some .boolean
  | .unary .. => some .number
  | .increment .. => some .number
  | .assign _ _ _ value => infer? scopes value
  | .array _ elements => (inferAll? scopes elements).map .tuple
  | .member .. | .element .. | .spread .. | .object .. | .call .. | .function .. => none

/-- The types of all expressions of a list. -/
def inferAll? (scopes : Scopes) : List Expr → Option (List Ty)
  | [] => some []
  | e :: es =>
    match infer? scopes e, inferAll? scopes es with
    | some t, some ts => some (t :: ts)
    | _, _ => none

end

end LuaTranspiler.Target
