/-!
# Decimal numbers and their notation

A `Decimal` is `coefficient * 10 ^ exponent`.

* `Decimal.positional`: all digits in their places, never an exponent
-/

namespace LuaTranspiler

/-- The number `coefficient * 10 ^ exponent`. -/
structure Decimal where
  coefficient : Nat
  exponent : Int
deriving DecidableEq

namespace Decimal

/-- The same number with no zero at the end of its coefficient. -/
def stripZeros (d : Decimal) : Decimal :=
  if d.coefficient ≠ 0 ∧ d.coefficient % 10 = 0 then
    stripZeros ⟨d.coefficient / 10, d.exponent + 1⟩
  else d
termination_by d.coefficient
decreasing_by omega

/-- The digits of the coefficient. -/
def digits (d : Decimal) : List Char := Nat.toDigits 10 d.coefficient

/-- All digits in their places: zeros fill up to the point on either side, and there is a point
only before a fraction. -/
def positionalChars (d : Decimal) : List Char :=
  let k := (-d.exponent).toNat
  let n := d.digits.length
  if 0 ≤ d.exponent then d.digits ++ List.replicate d.exponent.toNat '0'
  else if k < n then d.digits.take (n - k) ++ '.' :: d.digits.drop (n - k)
  else '0' :: '.' :: (List.replicate (k - n) '0' ++ d.digits)

/-- The positional notation. -/
def positional (d : Decimal) : String := String.ofList d.positionalChars

end Decimal

end LuaTranspiler
