import Reckon.Real.Decimal

namespace Reckon.Decimal

/-- A number as it is written: its digits before and after the point, and an exponent. -/
structure Literal where
  whole : List Char
  fraction : List Char
  exponent : Int

/-- From here on an exponent takes no further digits. -/
def exponentLimit : Nat := 10000

/-- The value of the digits of an exponent, up to the one that reaches the limit. -/
def exponentValue (ds : List Char) : Nat :=
  ds.foldl (fun n c => if n < exponentLimit then 10 * n + digitValue c else n) 0

/-- Digits without the zeros in front of them. -/
def significant (ds : List Char) : List Char := ds.dropWhile (· == '0')

/-- The double nearest to the number that significant digits write, times `10 ^ k`. It is infinite
where the number is too large. -/
def nearest (ds : List Char) (k : Int) : Float :=
  let size := ds.length + k
  if ds.isEmpty ∨ size < -400 then 0
  else if 400 < size then Double.infinite false
  else
    let (a, b) := scaled (value ds) 1 k
    Double.nearest false a b

/-- How many digits are tried first. -/
def leadingDigits : Nat := 19

/-- The double that the leading digits settle: nothing but zeros follows them, or the last of them
could be greater by 1 and the nearest double would be the same. -/
def settled? (ds : List Char) (k : Int) : Option Float :=
  let leading := ds.take leadingDigits
  let others := ds.drop leadingDigits
  let x := nearest leading (k + others.length)
  if others.all (· == '0') ∨ nearest (digits (value leading + 1)) (k + others.length) == x then
    some x
  else none

/-- How many digits have a place before the point. -/
def wholePlaces : Nat := 800

namespace Literal

def digits (l : Literal) : List Char := significant (l.whole ++ l.fraction)

/-- The power of ten of the last digit. -/
def lastPower (l : Literal) : Int := l.exponent - l.fraction.length

/-- The number of significant digits that have no place before the point. -/
def excess (l : Literal) : Nat := (significant l.whole).length - wholePlaces

/-- The double of a literal. One that its leading digits do not settle is smaller by a power of ten
for each digit that has no place before the point. -/
def toFloat (l : Literal) : Float :=
  (settled? l.digits l.lastPower).getD (nearest l.digits (l.lastPower - l.excess))

def toFloat? (l : Literal) : Option Float :=
  let x := l.toFloat
  if x.isFinite then some x else none

/-- Where every digit before the point has its place, the unsettled literal is read as it stands. -/
theorem excess_eq_zero_iff {l : Literal} :
    l.excess = 0 ↔ (significant l.whole).length ≤ wholePlaces := Nat.sub_eq_zero_iff_le

end Literal

end Reckon.Decimal
