import Reckon.Real.Binary

namespace Reckon.Double

/-- The remainder of a quotient cut toward zero. It is exact and has the sign of `x`. -/
def truncMod (x y : Float) : Float :=
  match decode? x, decode? y with
  | some (negative, m, e), some (_, n, f) =>
    if n = 0 then 0 / 0
    else
      let g := min e f
      let r := (m <<< (e - g).toNat) % (n <<< (f - g).toNat)
      let (a, b) := scaled r 1 (-g)
      nearest negative a b
  | some _, none => if y.isNaN then y else x
  | none, _ => 0 / 0

/-- The remainder with the sign of the divisor. -/
def floorMod (x y : Float) : Float :=
  let r := truncMod x y
  if r != 0 && decide (r < 0) != decide (y < 0) then r + y else r

end Reckon.Double
