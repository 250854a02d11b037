import Reckon.Real.Precision

namespace Reckon.Double

/-- Whether the power has a non-integer exponent, finite like its positive base, and is found at
the working precision. -/
def needsPrecision (x y : Float) : Bool :=
  0 < x && x.isFinite && y.isFinite && y.floor != y

def precisePower (p : Precision) (x y : Float) : Float :=
  match toBinary? x, toBinary? y with
  | some a, some b =>
    let q := Precise.bits p
    ofBinary ((p.functions.power q (a.roundTo q) (b.roundTo q)).roundTo q)
  | _, _ => x.pow y

/-- A power of doubles; non-integer powers of positive numbers are found by the library. -/
def power (p : Precision) (x y : Float) : Float :=
  if needsPrecision x y then precisePower p x y else x.pow y

end Reckon.Double
