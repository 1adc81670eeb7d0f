import LuaTranspiler.Source.Tree
import LuaTranspiler.Text.Blank

/-!
# Doc tags

A comment holds at most one tag. Its first word is the mark of the comment, its second names the
tag, and the others are read in order. A comment that lacks a needed word holds no tag.

* `Tag`: the tags
* `Tag.decode?`: the tag of a comment as written
* `Tag.paramTypes`, `Tag.returnTypes`, `Tag.localType?`, `Tag.className?`, `Tag.moduleName?`: what a
  list of tags says
-/

namespace LuaTranspiler

/-- The tags of doc comments. -/
inductive Tag where
  /-- The tag `@param`. -/
  | param (name description : String)
  /-- The tag `@tparam`: a parameter with its type. -/
  | typedParam (name ty description : String)
  /-- The tag `@return`. -/
  | returns (description : String)
  /-- The tag `@treturn`: a returned value with its type. -/
  | typedReturn (ty description : String)
  /-- The tag `@type`: the type of a variable. -/
  | varType (ty description : String)
  /-- The tag `@classmod`: a block that makes up a class. -/
  | classmod (name : String)
  /-- The tag `@module`: a source that makes up a module. -/
  | module (name : String)
deriving DecidableEq

namespace Tag

/-- The tag that words stand for, its name being the first of them. -/
def ofWords? : List String → Option Tag
  | "@param" :: name :: rest => some (.param name (" ".intercalate rest))
  | "@tparam" :: ty :: name :: rest => some (.typedParam name ty (" ".intercalate rest))
  | "@return" :: rest => some (.returns (" ".intercalate rest))
  | "@treturn" :: ty :: rest => some (.typedReturn ty (" ".intercalate rest))
  | "@type" :: ty :: rest => some (.varType ty (" ".intercalate rest))
  | "@classmod" :: name :: _ => some (.classmod name)
  | "@module" :: name :: _ => some (.module name)
  | _ => none

/-- The tag of a comment as written, if it has one. -/
def decode? (raw : String) : Option Tag := ofWords? (Text.words raw).tail

/-- The tags of a list of comments, in order. -/
def ofComments (cs : List Source.Comment) : List Tag := cs.filterMap fun c => decode? c.raw

/-- The types given to the parameter `name`, in order. -/
def paramTypes (name : String) (tags : List Tag) : List String :=
  tags.filterMap fun
    | .typedParam n ty _ => if n = name then some ty else none
    | _ => none

/-- The types of the returned values, in order. -/
def returnTypes (tags : List Tag) : List String :=
  tags.filterMap fun
    | .typedReturn ty _ => some ty
    | _ => none

/-- The first type given to a variable. -/
def localType? (tags : List Tag) : Option String :=
  tags.findSome? fun
    | .varType ty _ => some ty
    | _ => none

/-- The first class named. -/
def className? (tags : List Tag) : Option String :=
  tags.findSome? fun
    | .classmod name => some name
    | _ => none

/-- The first module named. -/
def moduleName? (tags : List Tag) : Option String :=
  tags.findSome? fun
    | .module name => some name
    | _ => none

end Tag

end LuaTranspiler
