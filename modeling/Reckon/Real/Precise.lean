import Reckon.Real.Binary

namespace Reckon.Precise

/-- A sum of terms that shrink to zero: each round divides the power by `square` with `w` places,
and the `n`-th term is the power over `2 n + 1`. -/
def oddSeries (w : Nat) (square : Int) : Nat → Nat → Int → Int → Int
  | 0, _, _, sum => sum
  | fuel + 1, n, power, sum =>
    if power = 0 then sum
    else oddSeries w square fuel (n + 1) (Int.tdiv (power * square) (1 <<< w))
      (sum + Int.tdiv power (2 * n + 1))

/-- The inverse hyperbolic tangent of `z` with `w` places, for `z` well below 1. -/
def artanh (w : Nat) (z : Int) : Int :=
  oddSeries w (Int.tdiv (z * z) (1 <<< w)) (w + 1) 0 z 0

/-- The inverse tangent of `z` with `w` places, for `z` well below 1. -/
def arctan (w : Nat) (z : Int) : Int :=
  oddSeries w (-Int.tdiv (z * z) (1 <<< w)) (w + 1) 0 z 0

/-- A constant that is found with spare places, cut to `w` places. -/
def cut (spare : Nat) (x : Int) : Int := x >>> spare

/-- π with `w` places, as `16 arctan (1/5) - 4 arctan (1/239)`. -/
def piFixed (w : Nat) : Int :=
  let v := w + 32
  cut 32 (16 * arctan v (1 <<< v / 5) - 4 * arctan v (1 <<< v / 239))

/-- The natural logarithm of 2 with `w` places, as `2 artanh (1/3)`. -/
def ln2Fixed (w : Nat) : Int :=
  let v := w + 32
  cut 32 (2 * artanh v (1 <<< v / 3))

/-- The exponential series from the `n`-th term on. -/
def expSeries (w : Nat) (r : Int) : Nat → Nat → Int → Int → Int
  | 0, _, _, sum => sum
  | fuel + 1, n, term, sum =>
    if term = 0 then sum
    else expSeries w r fuel (n + 1) (Int.tdiv (Int.tdiv (term * r) (1 <<< w)) (n + 1)) (sum + term)

/-- Beyond this magnitude an exponential is out of the range of doubles. -/
def outOfRange : Int := 12

/-- The exponential function, accurate beyond `p` bits. -/
def exp (p : Nat) (x : Binary) : Binary :=
  if x.mantissa ≠ 0 ∧ outOfRange < x.magnitude then
    if x.mantissa < 0 then ⟨1, -5000⟩ else ⟨1, 5000⟩
  else
    let w := p + 128
    let ln2 := ln2Fixed w
    let a := x.toFixed w
    let k := (2 * a + ln2) / (2 * ln2)
    ⟨expSeries w (a - k * ln2) (w + 1) 0 (1 <<< w) 0, k - w⟩

/-- The natural logarithm of a positive number with `w` places. -/
def lnFixed (w : Nat) (x : Binary) : Int :=
  let m := x.mantissa.natAbs
  let n := bitLength m
  let low := decide (10 * m < 7 <<< n)
  let k := (n : Int) + x.exponent - (if low then 1 else 0)
  let f := Binary.toFixed w ⟨m, (if low then 1 else 0) - (n : Int)⟩
  let one : Int := 1 <<< w
  2 * artanh w (Int.tdiv ((f - one) * one) (f + one)) + k * ln2Fixed w

/-- The natural logarithm of a positive number, accurate beyond `p` bits. -/
def ln (p : Nat) (x : Binary) : Binary :=
  let w := 2 * p + 192
  ⟨lnFixed w x, -(w : Int)⟩

/-- The power of a positive number, accurate beyond `p` bits. -/
def power (p : Nat) (x y : Binary) : Binary := exp p (y.mul (ln (p + 128) x))

/-- A precision of 0 bits stands for that of a double. -/
def bits (p : Nat) : Nat := if p = 0 then 53 else p

/-- π to `p` bits; there is nothing of it at 0 bits. -/
def pi (p : Nat) : Binary :=
  if p = 0 then .zero else Binary.roundTo p ⟨piFixed (p + 64), -((p + 64 : Nat) : Int)⟩

/-- The golden ratio, each step of `(√5 + 1) / 2` rounded to `p` bits, or to 64 at 0 bits. -/
def phi (p : Nat) : Binary :=
  let q := if p = 0 then 64 else p
  let five := Binary.roundTo q (.ofInt 5)
  let root := Binary.squareRootTo q (five.mantissa <<< five.exponent.toNat).toNat
  let sum := (root.add (.ofInt 1)).roundTo q
  ⟨sum.mantissa, sum.exponent - 1⟩

end Reckon.Precise
