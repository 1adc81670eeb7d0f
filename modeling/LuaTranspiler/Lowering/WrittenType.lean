import LuaTranspiler.Doc.Tag
import LuaTranspiler.Lowering.Error
import LuaTranspiler.Target.Ty
import LuaTranspiler.Text.Separated

/-!
# Types written in doc tags

* `writtenType`: the type that a tag writes, such as `number` or `string|nil`
* `writtenReturnType`: the return type that the tags of a function write
-/

namespace LuaTranspiler.Lowering

/-- The types with a name. -/
def basicType? : String → Option Ty
  | "number" => some .number
  | "string" => some .string
  | "boolean" => some .boolean
  | "bool" => some .boolean
  | "nil" => some .undefined
  | _ => none

/-- The type of a name, or else the name is to blame. -/
def basicType (span : Span) (name : String) : Except Error Ty :=
  match basicType? name with
  | some t => .ok t
  | none => .error (.unknownType name span)

/-- The names between the bars of a type. -/
def typeNames (s : String) : List String := (Text.splitAt '|' s.toList).map String.ofList

/-- The type that a tag writes: one name, or several between bars. -/
def writtenType (span : Span) (s : String) : Except Error Ty := do
  match ← (typeNames s).mapM (basicType span) with
  | [t] => return t
  | ts => return .union ts

/-- The return type that tags write: nothing, one type, or a tuple of several. -/
def writtenReturnType (span : Span) (tags : List Tag) : Except Error Ty := do
  match ← (Tag.returnTypes tags).mapM (writtenType span) with
  | [] => return .void
  | [t] => return t
  | ts => return .tuple ts

end LuaTranspiler.Lowering
