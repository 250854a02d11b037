import Reckon.Real.Binary

namespace Reckon

namespace Decimal

def digits (n : Nat) : List Char := Nat.toDigits 10 n

def digitValue (c : Char) : Nat := c.toNat - '0'.toNat

def value (ds : List Char) : Nat := ds.foldl (fun n c => 10 * n + digitValue c) 0

/-- How many digits stand in a number and from which power of ten on it is written out. -/
structure Format where
  /-- Significant digits; zeros at their end are dropped. -/
  significant : Nat
  /-- The least power of ten of a leading digit that is written without an exponent. -/
  leastPlain : Int
  /-- The least number of digits of an exponent. -/
  exponentDigits : Nat

def tens (n : Nat) : Nat := Nat.pow 10 n

/-- `num / den * 10 ^ k` as a quotient of natural numbers. -/
def scaled (num den : Nat) (k : Int) : Nat × Nat :=
  if 0 ≤ k then (num * tens k.toNat, den) else (num, den * tens (-k).toNat)

def reaches (num den : Nat) (k : Int) : Bool :=
  let (a, b) := scaled num den (-k)
  b ≤ a

/-- The power of ten of the leading digit of a positive quotient. -/
def leadingPower (num den : Nat) : Int :=
  let k := (((bitLength num : Int) - bitLength den) * 30103) / 100000
  if reaches num den (k + 1) then k + 1
  else if reaches num den k then k
  else k - 1

/-- The `n` significant digits nearest to a positive quotient, a half to the even last digit, as a
number, with the power of ten of its leading digit. -/
def rounded (n : Nat) (num den : Nat) : Nat × Int :=
  let k := leadingPower num den
  let (a, b) := scaled num den (n - 1 - k)
  let d := roundQuotient a b
  if d = tens n then (tens (n - 1), k + 1) else (d, k)

def zeros (n : Nat) : List Char := List.replicate n '0'

def dropZeros (ds : List Char) : List Char := (ds.reverse.dropWhile (· == '0')).reverse

/-- Digits whose first one stands for `10 ^ k`, written out. -/
def plain (ds : List Char) (k : Int) : List Char :=
  if k < 0 then '0' :: '.' :: zeros (-k - 1).toNat ++ ds
  else if ds.length ≤ k.toNat + 1 then ds ++ zeros (k.toNat + 1 - ds.length)
  else ds.take (k.toNat + 1) ++ '.' :: ds.drop (k.toNat + 1)

/-- Digits whose first one stands for `10 ^ k`, written with an exponent of at least `width`
digits. -/
def scientific (width : Nat) (ds : List Char) (k : Int) : List Char :=
  let e := digits k.natAbs
  ds.take 1 ++ (if 1 < ds.length then '.' :: ds.drop 1 else []) ++ 'e' ::
    (if k < 0 then '-' else '+') :: zeros (width - e.length) ++ e

def Format.write (f : Format) (x : Float) : String :=
  match Double.decode? x with
  | none => if x.isNaN then "NaN" else if Double.isNegative x then "-Inf" else "+Inf"
  | some (negative, m, e) =>
    let body :=
      if m = 0 then ['0']
      else
        let (num, den) := Double.scaled m 1 (-e)
        let (d, k) := rounded f.significant num den
        let ds := dropZeros (digits d)
        if k < f.leastPlain ∨ f.significant ≤ k then scientific f.exponentDigits ds k
        else plain ds k
    String.ofList (if negative then '-' :: body else body)

end Decimal

/-- Reals are shown with 15 significant digits, and with an exponent of at least two digits when
the leading digit stands below `10 ^ -4` or from `10 ^ 15` on. -/
def shownReal : Decimal.Format := ⟨15, -4, 2⟩

def formatReal (x : Float) : String := shownReal.write x

end Reckon
