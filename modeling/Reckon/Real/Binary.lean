namespace Reckon

def bitLength (n : Nat) : Nat := if n = 0 then 0 else n.log2 + 1

/-- The quotient rounded to the nearest integer, a half to the even one. -/
def roundQuotient (num den : Nat) : Nat :=
  let q := num / den
  let r := num % den
  if 2 * r < den then q
  else if den < 2 * r then q + 1
  else if q % 2 = 0 then q else q + 1

/-- The number `mantissa * 2 ^ exponent`. -/
structure Binary where
  mantissa : Int
  exponent : Int
  deriving DecidableEq, Repr

namespace Binary

def zero : Binary := ⟨0, 0⟩

def ofInt (n : Int) : Binary := ⟨n, 0⟩

/-- The first power of two, by its exponent, above the number's size. -/
def magnitude (x : Binary) : Int := bitLength x.mantissa.natAbs + x.exponent

/-- The nearest number with a mantissa of at most `p` bits, a half to the even mantissa. -/
def roundTo (p : Nat) (x : Binary) : Binary :=
  let m := x.mantissa.natAbs
  let n := bitLength m
  if n ≤ p then x
  else ⟨x.mantissa.sign * roundQuotient m (1 <<< (n - p)), x.exponent + Int.ofNat (n - p)⟩

/-- The same number with `w` binary places, cut toward minus infinity. -/
def toFixed (w : Nat) (x : Binary) : Int :=
  let s := x.exponent + w
  if 0 ≤ s then x.mantissa <<< s.toNat else x.mantissa >>> (-s).toNat

def add (x y : Binary) : Binary :=
  let e := min x.exponent y.exponent
  ⟨x.mantissa <<< (x.exponent - e).toNat + y.mantissa <<< (y.exponent - e).toNat, e⟩

def mul (x y : Binary) : Binary := ⟨x.mantissa * y.mantissa, x.exponent + y.exponent⟩

/-- A quotient of integers to `p` correctly rounded bits: the extra last bit tells that something
follows. -/
def quotientTo (p : Nat) (x y : Binary) : Binary :=
  let s := p + 2 + bitLength y.mantissa.natAbs
  let num := x.mantissa.natAbs <<< s
  let den := y.mantissa.natAbs
  let q := 2 * (num / den) + (if num % den = 0 then 0 else 1)
  roundTo p ⟨x.mantissa.sign * y.mantissa.sign * q, x.exponent - y.exponent - s - 1⟩

/-- The greatest integer whose square is within `n`, from the bit `k` down. -/
def squareRootFrom (n : Nat) : Nat → Nat → Nat
  | 0, r => if (r + 1) * (r + 1) ≤ n then r + 1 else r
  | k + 1, r =>
    let t := r + 1 <<< (k + 1)
    squareRootFrom n k (if t * t ≤ n then t else r)

def squareRoot (n : Nat) : Nat := squareRootFrom n (bitLength n / 2 + 1) 0

/-- The square root of a natural number to `p` correctly rounded bits. -/
def squareRootTo (p : Nat) (n : Nat) : Binary :=
  let s := p + 2
  let m := n <<< (2 * s)
  let r := squareRoot m
  roundTo p ⟨2 * r + (if r * r = m then 0 else 1), -(s : Int) - 1⟩

end Binary

namespace Double

def signBit : Nat := 0x8000000000000000

/-- The leading bit of a mantissa, which is not stored. -/
def hiddenBit : Nat := 0x10000000000000

def infinite (negative : Bool) : Float :=
  Float.ofBits (if negative then 0xFFF0000000000000 else 0x7FF0000000000000)

def signed (negative : Bool) (bits : Nat) : Float :=
  Float.ofBits (UInt64.ofNat (if negative then bits + signBit else bits))

def isNegative (x : Float) : Bool := signBit ≤ x.toBits.toNat

def decode? (x : Float) : Option (Bool × Nat × Int) :=
  let bits := x.toBits.toNat % signBit
  let e := bits / hiddenBit
  let m := bits % hiddenBit
  if e = 2047 then none
  else if e = 0 then some (isNegative x, m, -1074)
  else some (isNegative x, m + hiddenBit, Int.ofNat e - 1075)

def toBinary? (x : Float) : Option Binary :=
  (decode? x).map fun (negative, m, e) => ⟨if negative then -(m : Int) else m, e⟩

/-- `num / (den * 2 ^ e)` as a quotient of natural numbers. -/
def scaled (num den : Nat) (e : Int) : Nat × Nat :=
  if 0 ≤ e then (num, den <<< e.toNat) else (num <<< (-e).toNat, den)

/-- The exponent of the last bit of the double nearest to `num / den`. -/
def lastBit (num den : Nat) : Int :=
  let e := (bitLength num : Int) - bitLength den - 53
  let (a, b) := scaled num den e
  max (if 2 * hiddenBit ≤ a / b then e + 1 else e) (-1074)

/-- The double nearest to `num / den`, a half to the even one; too large a number is infinite. -/
def nearest (negative : Bool) (num den : Nat) : Float :=
  if num = 0 then signed negative 0
  else
    let e := lastBit num den
    let (a, b) := scaled num den e
    let bits := (e + 1074).toNat * hiddenBit + roundQuotient a b
    if 0x7FF0000000000000 ≤ bits then infinite negative else signed negative bits

def ofBinary (x : Binary) : Float :=
  let negative := decide (x.mantissa < 0)
  let m := x.mantissa.natAbs
  if m = 0 then 0
  else if 1100 < x.magnitude then infinite negative
  else if x.magnitude < -1100 then signed negative 0
  else
    let (a, b) := scaled m 1 (-x.exponent)
    nearest negative a b

end Double

end Reckon
