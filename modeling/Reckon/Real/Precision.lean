import Reckon.Real.Precise

namespace Reckon

/-- The functions that a library finds to a number of bits. -/
structure Transcendentals where
  pi (bits : Nat) : Binary
  /-- The exponential function of a number that has `own` bits itself. -/
  exp (bits own : Nat) (x : Binary) : Binary
  ln (bits : Nat) (x : Binary) : Binary
  power (bits : Nat) (x y : Binary) : Binary

namespace Transcendentals

/-- The base of natural logarithms: the exponential of a 1 that has 53 bits. -/
def e (t : Transcendentals) (bits : Nat) : Binary := t.exp bits 53 (.ofInt 1)

/-- The common logarithm: a quotient of natural logarithms. -/
def log (t : Transcendentals) (bits : Nat) (x : Binary) : Binary :=
  let ten := Binary.roundTo bits (.ofInt 10)
  Binary.quotientTo bits ((t.ln bits x).roundTo bits) ((t.ln bits ten).roundTo bits)

end Transcendentals

/-- The library in use: an exponential is found to the bits of its argument first. -/
def Precise.transcendentals : Transcendentals where
  pi := pi
  exp bits own x := ((exp own x).roundTo own).roundTo (Precise.bits bits)
  ln := ln
  power := power

/-- How closely transcendental functions are found: to how many bits, and by which library. A
numeral is a number of bits for the library in use. -/
structure Precision where
  bits : Nat
  functions : Transcendentals := Precise.transcendentals

namespace Precision

instance (n : Nat) : OfNat Precision n := ⟨{ bits := n }⟩

instance : CoeOut Precision Nat := ⟨bits⟩

end Precision

def defaultPrecision : Precision := 64

end Reckon
