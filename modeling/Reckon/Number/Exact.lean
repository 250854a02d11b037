import Reckon.Number.Basic
import Reckon.Word.Root

namespace Reckon

/-- What an operation on numbers gives: a number or the cause of an error, unless it is stopped by
a fault. -/
abbrev Answer := Except Fault (Except Cause Number)

namespace Answer

def number (x : Number) : Answer := .ok (.ok x)

def cause (c : Cause) : Answer := .ok (.error c)

end Answer

namespace Number

/-- The power of the fraction `n / d` with the integer exponent `k`. -/
def integerPower (n d k : Int64) : Except Cause Number :=
  if 0 ≤ k then ratio (Word.pow n k) (Word.pow d k)
  else if n = 0 then .error .divisionByZero
  else ratio (Word.pow d (-k)) (Word.pow n (-k))

/-- The power of the fraction `n / d` with the exponent `p / q`: exact when `n` and `d` both have
exact roots of order `q`, which are found near the `guess`, otherwise a real. -/
def fractionalPowerNear (guess : Int64 → Int64 → Int64) (n d p q : Int64) : Answer := do
  if n < 0 then return .error .complexPower
  if n = 0 then
    return if p < 0 then .error .divisionByZero else .ok (.int 0)
  let inexact : Number := .real (Float.pow (n.toFloat / d.toFloat) (p.toFloat / q.toFloat))
  match ← Word.rootNear? guess n q with
  | none => return .ok inexact
  | some rn =>
    match ← Word.rootNear? guess d q with
    | none => return .ok inexact
    | some rd => return integerPower rn rd p

def fractionalPower (n d p q : Int64) : Answer := fractionalPowerNear Word.rootGuess n d p q

/-- An operation on the fractions `an / ad` and `bn / bd`. -/
def rationalOp (op : Op) (an ad bn bd : Int64) : Answer :=
  match op with
  | .add => .ok (ratio (an * bd + bn * ad) (ad * bd))
  | .sub => .ok (ratio (an * bd - bn * ad) (ad * bd))
  | .mul => .ok (ratio (an * bn) (ad * bd))
  | .div => if bn = 0 then .cause .divisionByZero else .ok (ratio (an * bd) (ad * bn))
  | .mod =>
    if bn = 0 then .cause .modulusByZero
    else do return ratio (← Word.floorMod (an * bd) (bn * ad)) (ad * bd)
  | .pow => if bd = 1 then .ok (integerPower an ad bn) else fractionalPower an ad bn bd
  | .none | .fact => .error (.rationalOperator op)

def integerOp (op : Op) (a b : Int64) : Answer :=
  match op with
  | .add => .number (.int (a + b))
  | .sub => .number (.int (a - b))
  | .mul => .number (.int (a * b))
  | .div =>
    if b = 0 then .cause .divisionByZero
    else if a % b = 0 then .number (.int (a / b))
    else .ok (ratio a b)
  | .mod =>
    if b = 0 then .cause .modulusByZero
    else do return .ok (.int (← Word.floorMod a b))
  | .pow => .ok (integerPower a 1 b)
  | .none | .fact => .error (.integerOperator op)

end Number

end Reckon
