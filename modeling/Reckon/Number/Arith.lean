import Reckon.Number.Exact
import Reckon.Real.Remainder
import Reckon.Real.Power

namespace Reckon

namespace Number

/-- The power of reals, refused where it has no real value. -/
def realPower (p : Precision) (x y : Float) : Except Cause Number :=
  if x == 0 && y < 0 then .error .divisionByZero
  else if x < 0 && y.floor != y && !y.isInf then .error .complexPower
  else .ok (.real (Double.power p x y))

/-- An operation on reals; `p` is the precision of powers. -/
def realOp (op : Op) (x y : Float) (p : Precision) : Answer :=
  match op with
  | .add => .number (.real (x + y))
  | .sub => .number (.real (x - y))
  | .mul => .number (.real (x * y))
  | .div => if y == 0 then .cause .divisionByZero else .number (.real (x / y))
  | .mod => if y == 0 then .cause .modulusByZero else .number (.real (Double.floorMod x y))
  | .pow => .ok (realPower p x y)
  | .none | .fact => .error (.realOperator op)

def combine (p : Precision) (op : Op) : Number → Number → Answer
  | .int a, .int b => integerOp op a b
  | .int a, .frac g => rationalOp op a 1 g.num g.den
  | .frac f, .int b => rationalOp op f.num f.den b 1
  | .frac f, .frac g => rationalOp op f.num f.den g.num g.den
  | a, b => realOp op a.toFloat b.toFloat p

end Number

namespace Fraction

/-- The order of a fraction and a number as -1, 0 or 1. -/
def compare (f : Fraction) : Number → Int
  | .int b => Word.compare f.num (b * f.den)
  | .frac g => Word.compare (f.num * g.den) (g.num * f.den)
  | .real x => if f.toFloat < x then -1 else if x < f.toFloat then 1 else 0

end Fraction

end Reckon
