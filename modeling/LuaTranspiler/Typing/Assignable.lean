import LuaTranspiler.Target.Ty

/-!
# Assignability

* `Ty.isAssignable found expected`: whether a value of one type can be stored where another type is
  declared
-/

namespace LuaTranspiler.Ty

mutual

/-- Whether a value of type `found` can be stored where `expected` is declared. Every member of a
union has to fit, fitting one member of a union is enough, tuples fit member by member, and what is
undefined fits where nothing is returned. -/
def isAssignable (found expected : Ty) : Bool :=
  found = expected ||
    match found, expected with
    | union fs, e => allAssignable fs e
    | f, union es => anyAssignable f es
    | tuple fs, tuple es => pairsAssignable fs es
    | undefined, void => true
    | _, _ => false
termination_by sizeOf found + sizeOf expected

/-- Whether all types of a list are assignable to `expected`. -/
def allAssignable (found : List Ty) (expected : Ty) : Bool :=
  match found with
  | [] => true
  | f :: fs => isAssignable f expected && allAssignable fs expected
termination_by sizeOf found + sizeOf expected

/-- Whether `found` is assignable to some type of a list. -/
def anyAssignable (found : Ty) (expected : List Ty) : Bool :=
  match expected with
  | [] => false
  | e :: es => isAssignable found e || anyAssignable found es
termination_by sizeOf found + sizeOf expected

/-- Whether the types of two lists of one length are assignable pair by pair. -/
def pairsAssignable (found expected : List Ty) : Bool :=
  match found, expected with
  | [], [] => true
  | f :: fs, e :: es => isAssignable f e && pairsAssignable fs es
  | _, _ => false
termination_by sizeOf found + sizeOf expected

end

end LuaTranspiler.Ty
