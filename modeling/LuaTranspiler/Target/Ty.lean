/-!
# Types

The types that annotations are made of.

* `Ty`: the basic types, unions and tuples
* `Ty.text`: how a type is written
-/

namespace LuaTranspiler

/-- Types of annotations. -/
inductive Ty where
  | number | string | boolean | undefined | void
  | union (members : List Ty)
  | tuple (members : List Ty)

namespace Ty

mutual

/-- Whether two types are the same. -/
def same : Ty → Ty → Bool
  | number, number => true
  | string, string => true
  | boolean, boolean => true
  | undefined, undefined => true
  | void, void => true
  | union as, union bs => sameAll as bs
  | tuple as, tuple bs => sameAll as bs
  | _, _ => false

/-- Whether two lists of types are the same. -/
def sameAll : List Ty → List Ty → Bool
  | [], [] => true
  | a :: as, b :: bs => same a b && sameAll as bs
  | _, _ => false

end

mutual

theorem same_iff : ∀ a b : Ty, same a b = true ↔ a = b
  | number, b => by cases b <;> simp [same]
  | string, b => by cases b <;> simp [same]
  | boolean, b => by cases b <;> simp [same]
  | undefined, b => by cases b <;> simp [same]
  | void, b => by cases b <;> simp [same]
  | union as, b => by cases b <;> simp [same, sameAll_iff as]
  | tuple as, b => by cases b <;> simp [same, sameAll_iff as]

theorem sameAll_iff : ∀ as bs : List Ty, sameAll as bs = true ↔ as = bs
  | [], bs => by cases bs <;> simp [sameAll]
  | a :: as, bs => by cases bs <;> simp [sameAll, same_iff a, sameAll_iff as]

end

instance : DecidableEq Ty := fun a b => decidable_of_iff _ (same_iff a b)

mutual

/-- How a type is written. -/
def text : Ty → String
  | number => "number"
  | string => "string"
  | boolean => "boolean"
  | undefined => "undefined"
  | void => "void"
  | union ts => " | ".intercalate (texts ts)
  | tuple ts => "[" ++ ", ".intercalate (texts ts) ++ "]"

/-- How the types of a list are written. -/
def texts : List Ty → List String
  | [] => []
  | t :: ts => text t :: texts ts

end

end Ty

end LuaTranspiler
