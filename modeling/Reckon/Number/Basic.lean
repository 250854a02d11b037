import Reckon.Error
import Reckon.Word.Basic
import Reckon.Real.Decimal

namespace Reckon

/-- An exact quotient of words. Those that arithmetic builds are in lowest terms with a denominator
other than 1, and positive unless it wrapped. -/
structure Fraction where
  num : Int64
  den : Int64
  deriving DecidableEq, Repr

/-- The nearest double to the quotient of the nearest doubles. -/
def Fraction.toFloat (f : Fraction) : Float := f.num.toFloat / f.den.toFloat

inductive Number where
  | int (n : Int64)
  | real (x : Float)
  | frac (f : Fraction)
  deriving DecidableEq

namespace Number

def kind : Number → Kind
  | .int _ => .int
  | .real _ => .real
  | .frac _ => .frac

def toFloat : Number → Float
  | .int n => n.toFloat
  | .real x => x
  | .frac f => f.toFloat

/-- Whether the number is neither infinite nor the double that is no number. -/
def isFinite : Number → Bool
  | .real x => x.isFinite
  | _ => true

def textOfInt (n : Int64) : String :=
  if n < 0 then "-" ++ String.ofList (Decimal.digits n.toInt.natAbs)
  else String.ofList (Decimal.digits n.toInt.natAbs)

/-- The quotient of two words in lowest terms: an integer when the denominator becomes 1. -/
def ratio (n d : Int64) : Except Cause Number :=
  if d = 0 then .error .divisionByZero
  else
    let (n, d) := if d < 0 then (-n, -d) else (n, d)
    let g := Word.gcd n d
    if d / g = 1 then .ok (.int (n / g)) else .ok (.frac ⟨n / g, d / g⟩)

end Number

end Reckon
