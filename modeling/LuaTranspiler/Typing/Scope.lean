import LuaTranspiler.Target.Ty

/-!
# Declared names

* `Scope`: the names declared in one block, newest first, each with its type if it has one
* `Scopes`: the blocks around a place, innermost first
* `Scopes.lookup?`: the declaration that a name refers to
-/

namespace LuaTranspiler

/-- The names declared in a block, newest first. A name without a type is untyped. -/
abbrev Scope := List (String × Option Ty)

/-- The blocks around a place, innermost first. -/
abbrev Scopes := List Scope

namespace Scopes

/-- Enters a block. -/
def push (ss : Scopes) : Scopes := [] :: ss

/-- Leaves a block. The outermost one is never left. -/
def pop : Scopes → Scopes
  | _ :: s :: ss => s :: ss
  | ss => ss

/-- Declares a name in the innermost block. -/
def declare (name : String) (ty : Option Ty) : Scopes → Scopes
  | [] => []
  | s :: ss => ((name, ty) :: s) :: ss

/-- The type of the innermost and newest declaration of a name, or none without a declaration. -/
def lookup? (name : String) (ss : Scopes) : Option (Option Ty) :=
  ss.findSome? fun s => s.lookup name

@[simp] theorem lookup?_nil (name : String) : lookup? name [] = none := rfl

@[simp] theorem lookup?_push (name : String) (ss : Scopes) :
    lookup? name ss.push = lookup? name ss := rfl

/-- A declaration hides those of the same name and no others. -/
@[simp] theorem lookup?_declare (name x : String) (ty : Option Ty) (s : Scope) (ss : Scopes) :
    lookup? x (declare name ty (s :: ss)) = if x = name then some ty else lookup? x (s :: ss) := by
  by_cases h : x = name
  · simp [lookup?, declare, h]
  · have hne : (x == name) = false := by simp [h]
    simp only [lookup?, declare, List.findSome?_cons, List.lookup_cons, hne, if_neg h]

@[simp] theorem pop_push (s : Scope) (ss : Scopes) : pop (push (s :: ss)) = s :: ss := rfl

end Scopes

end LuaTranspiler
