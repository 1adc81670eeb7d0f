import LuaTranspiler.Number.Binary64

/-!
# Data to be written out

* `Scalar`: a value without parts
* `Data`: a tree of scalars, lists, records and tagged values, apart from any notation for it
-/

namespace LuaTranspiler

/-- A value without parts. -/
inductive Scalar where
  | null
  | bool (value : Bool)
  | nat (value : Nat)
  | number (value : Binary64)
  | text (value : String)
  /-- A name that stands for itself. -/
  | symbol (name : String)
deriving DecidableEq

/-- A value to be written out. -/
inductive Data where
  | scalar (value : Scalar)
  | list (items : List Data)
  | record (fields : List (String × Data))
  /-- A value under the name of its kind. -/
  | tagged (name : String) (value : Data)

namespace Data

/-- Nothing. -/
def null : Data := scalar .null

/-- A truth value. -/
def bool (value : Bool) : Data := scalar (.bool value)

/-- A count or an id. -/
def nat (value : Nat) : Data := scalar (.nat value)

/-- A number of the program. -/
def number (value : Binary64) : Data := scalar (.number value)

/-- A string. -/
def text (value : String) : Data := scalar (.text value)

/-- A name that stands for itself. -/
def symbol (name : String) : Data := scalar (.symbol name)

/-- A value that may be absent. -/
def ofOption : Option Data → Data
  | none => null
  | some d => d

end Data

end LuaTranspiler
