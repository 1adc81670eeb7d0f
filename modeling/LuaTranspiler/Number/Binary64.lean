/-!
# Binary floating-point numbers

A `Binary64` is given by its 64 bits: a sign, eleven bits of exponent and 52 bits of fraction. The
magnitude of a finite number is `significand * 2 ^ exponent`.

* `Binary64.ofRatio num den`: the number nearest to `num / den`, an even significand on a tie
* `Binary64.ofScientific c e`: the number nearest to `c * 10 ^ e`
-/

namespace LuaTranspiler

/-- A floating-point number of 64 bits. -/
structure Binary64 where
  bits : UInt64
deriving DecidableEq

namespace Binary64

/-- Whether the sign bit is set. -/
def isNegative (x : Binary64) : Bool := 0x8000000000000000 ≤ x.bits.toNat

/-- The eleven bits of the exponent. -/
def exponentField (x : Binary64) : Nat := x.bits.toNat / 0x10000000000000 % 0x800

/-- The 52 bits of the fraction. -/
def fraction (x : Binary64) : Nat := x.bits.toNat % 0x10000000000000

/-- Whether the number is one of the two infinities. -/
def isInfinite (x : Binary64) : Bool := x.exponentField = 2047 && x.fraction = 0

/-- Whether the bits stand for no number. -/
def isNaN (x : Binary64) : Bool := x.exponentField = 2047 && x.fraction ≠ 0

/-- The integer by which a finite number is a multiple of a power of two. -/
def significand (x : Binary64) : Nat :=
  if x.exponentField = 0 then x.fraction else 0x10000000000000 + x.fraction

/-- The exponent of that power of two. -/
def exponent (x : Binary64) : Int := (max x.exponentField 1 : Nat) - 1075

/-- The number zero. -/
def zero : Binary64 := ⟨0⟩

/-- The positive infinity. -/
def infinity : Binary64 := ⟨0x7FF0000000000000⟩

/-- The integer nearest to `num / den`, the even one on a tie. -/
def roundDiv (num den : Nat) : Nat :=
  if 2 * (num % den) < den || (2 * (num % den) = den && num / den % 2 = 0) then num / den
  else num / den + 1

/-- The exponent of the last place of the number nearest to `num / den`. -/
def placeExponent (num den : Nat) : Int :=
  let e : Int := num.log2 - den.log2
  let q := if den <<< e.toNat ≤ num <<< (-e).toNat then e - 52 else e - 53
  max q (-1074)

/-- The number nearest to `num / den`, an even significand on a tie. From half a place above the
greatest finite number on it is the infinity. -/
def ofRatio (num den : Nat) : Binary64 :=
  if num = 0 then zero
  else
    let q := placeExponent num den
    let m := roundDiv (num <<< (-q).toNat) (den <<< q.toNat)
    let bits := (q + 1074).toNat * 0x10000000000000 + m
    if infinity.bits.toNat ≤ bits then infinity else ⟨UInt64.ofNat bits⟩

/-- The count of decimal digits of a number. -/
def digitCount (n : Nat) : Nat := (Nat.toDigits 10 n).length

/-- The number nearest to `c * 10 ^ e`. Far outside the range of the finite numbers the answer is
known from the count of digits alone. -/
def ofScientific (c : Nat) (e : Int) : Binary64 :=
  if c = 0 ∨ digitCount c + e < -400 then zero
  else if 400 < digitCount c + e then infinity
  else ofRatio (c * Nat.pow 10 e.toNat) (Nat.pow 10 (-e).toNat)

end Binary64

end LuaTranspiler
