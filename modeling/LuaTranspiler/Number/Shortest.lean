import LuaTranspiler.Number.Binary64
import LuaTranspiler.Number.Decimal

/-!
# The shortest decimal that reads back

The reals that round to a given `Binary64` form an interval. Of the decimals in it, the shortest
is looked for on ever finer grids `10 ^ k`: only the two neighbours of the number on a grid have to
be tested.

* `Rounding`: a finite number as a quotient, and the interval of what rounds to it
* `Binary64.shortest`: the nearest of the shortest decimals
-/

namespace LuaTranspiler

/-- Which of two equally near decimals is taken. -/
inductive Tie where
  | up
  | toEven
deriving DecidableEq

/-- The number `value / den` and the interval from `low / den` to `high / den` of the reals that
round to it. The ends belong to it when `closed`. -/
structure Rounding where
  value : Nat
  low : Nat
  high : Nat
  den : Nat
  closed : Bool
deriving DecidableEq

namespace Rounding

/-- The interval of a finite number. In quarters of a place it reaches two up and two down, but
only one down from a power of two, since the numbers below lie twice as dense. -/
def ofBinary64 (x : Binary64) : Rounding :=
  let unit := 1 <<< x.exponent.toNat
  let value := 4 * x.significand * unit
  { value
    low := value - (if x.fraction = 0 ∧ 1 < x.exponentField then unit else 2 * unit)
    high := value + 2 * unit
    den := 4 <<< (-x.exponent).toNat
    closed := x.significand % 2 = 0 }

/-- Whether `a * 10 ^ k` lies in the interval. -/
def contains (r : Rounding) (a : Nat) (k : Int) : Bool :=
  let x := a * Nat.pow 10 k.toNat * r.den
  let low := r.low * Nat.pow 10 (-k).toNat
  let high := r.high * Nat.pow 10 (-k).toNat
  if r.closed then low ≤ x && x ≤ high else low < x && x < high

/-- The greatest `a` with `a * 10 ^ k` at most the number. -/
def floorOn (r : Rounding) (k : Int) : Nat :=
  r.value * Nat.pow 10 (-k).toNat / (r.den * Nat.pow 10 k.toNat)

/-- Which of the neighbours `a` and `a + 1` on the grid `10 ^ k` is nearer to the number. -/
def nearer (r : Rounding) (tie : Tie) (a : Nat) (k : Int) : Nat :=
  let twice := 2 * r.value * Nat.pow 10 (-k).toNat
  let middle := (2 * a + 1) * Nat.pow 10 k.toNat * r.den
  if twice < middle then a
  else if middle < twice then a + 1
  else match tie with
    | .up => a + 1
    | .toEven => if a % 2 = 0 then a else a + 1

/-- The nearest point of the grid `10 ^ k` in the interval, if it has one. -/
def pick (r : Rounding) (tie : Tie) (k : Int) : Option Nat :=
  let a := r.floorOn k
  match r.contains a k, r.contains (a + 1) k with
  | true, true => some (r.nearer tie a k)
  | true, false => some a
  | false, true => some (a + 1)
  | false, false => none

/-- The first hit on the grids `10 ^ k`, `10 ^ (k - 1)`, …, of which `n` are tried. -/
def search (r : Rounding) (tie : Tie) : Nat → Int → Decimal
  | 0, k => ⟨r.floorOn k, k⟩
  | n + 1, k =>
    match r.pick tie k with
    | some a => ⟨a, k⟩
    | none => r.search tie n (k - 1)

/-- The exponent of the first decimal digit of the number. -/
def magnitude (r : Rounding) : Int :=
  if r.den ≤ r.value then Binary64.digitCount (r.value / r.den) - 1
  else
    let n := Binary64.digitCount (r.den / r.value)
    if r.den ≤ r.value * Nat.pow 10 (n - 1) then 1 - n else -n

end Rounding

/-- The nearest of the shortest decimals that round to a finite number other than zero. Seventeen
digits always suffice. -/
def Binary64.shortest (tie : Tie) (x : Binary64) : Decimal :=
  let r := Rounding.ofBinary64 x
  (r.search tie 17 r.magnitude).stripZeros

end LuaTranspiler
