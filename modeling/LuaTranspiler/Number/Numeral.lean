import LuaTranspiler.Number.Shortest

/-!
# Numerals

The text of a number as a program holds it.

* `Binary64.ofNumeral?`: the number that an unsigned decimal numeral stands for
* `Binary64.numeral`: the fewest digits that read back, in positional notation
-/

namespace LuaTranspiler

/-- The value of a digit in base sixteen, zero for other characters. -/
def digitValue (c : Char) : Nat :=
  if c.isDigit then c.toNat - '0'.toNat
  else if 'a' ≤ c ∧ c ≤ 'f' then c.toNat - 'a'.toNat + 10
  else if 'A' ≤ c ∧ c ≤ 'F' then c.toNat - 'A'.toNat + 10
  else 0

/-- The number written by digits in a base. -/
def ofDigits (base : Nat) (ds : List Char) : Nat :=
  ds.foldl (fun n c => base * n + digitValue c) 0

/-- The exponent at the end of a numeral: nothing, or `e`, an optional sign and digits. -/
def readExponent? : List Char → Option Int
  | [] => some 0
  | e :: cs =>
    if e ≠ 'e' ∧ e ≠ 'E' then none
    else
      let (sign, ds) : Int × List Char := match cs with
        | '-' :: ds => (-1, ds)
        | '+' :: ds => (1, ds)
        | ds => (1, ds)
      if ds ≠ [] ∧ ds.all Char.isDigit then some (sign * ofDigits 10 ds) else none

/-- Digits with an optional point among them, then an optional exponent. -/
def readDecimal? (cs : List Char) : Option Decimal :=
  let whole := cs.takeWhile Char.isDigit
  let rest := cs.dropWhile Char.isDigit
  let (part, tail) := match rest with
    | '.' :: rest => (rest.takeWhile Char.isDigit, rest.dropWhile Char.isDigit)
    | rest => ([], rest)
  if whole = [] ∧ part = [] then none
  else (readExponent? tail).map fun e => ⟨ofDigits 10 (whole ++ part), e - part.length⟩

namespace Binary64

/-- The number nearest to an unsigned decimal numeral. -/
def ofNumeral? (s : String) : Option Binary64 :=
  (readDecimal? s.toList).map fun d => ofScientific d.coefficient d.exponent

/-- The text of a number: the fewest digits that read back, a tie going up, in positional
notation. Both infinities have the same text. -/
def numeral (x : Binary64) : String :=
  if x.isInfinite then "Infinity"
  else if x.isNaN then "NaN"
  else
    let magnitude := if x.significand = 0 then "0" else (x.shortest .up).positional
    if x.isNegative then "-" ++ magnitude else magnitude

end Binary64

end LuaTranspiler
