import Reckon.Fault

namespace Reckon.Word

/-- The size of a word. The least word has no opposite and stays as it is. -/
def magnitude (a : Int64) : Int64 := if a < 0 then -a else a

theorem natAbs_mod_lt (a : Int64) {b : Int64} (h : b ≠ 0) :
    (a % b).toInt.natAbs < b.toInt.natAbs := by
  rw [Int64.toInt_mod]
  have hb : b.toInt ≠ 0 := fun e => h (Int64.toInt_inj.mp e)
  rcases Int.natAbs_eq b.toInt with e | e
  · rw [e, Int.natAbs_tmod]
    exact Nat.mod_lt _ (by omega)
  · rw [e, Int.natAbs_tmod]
    simp only [Int.natAbs_neg, Int.natAbs_natCast]
    exact Nat.mod_lt _ (by omega)

/-- Euclid's algorithm on words; the result has the sign of the last remainder but one. -/
def euclid (a b : Int64) : Int64 :=
  if b = 0 then a else euclid b (a % b)
termination_by b.toInt.natAbs
decreasing_by exact natAbs_mod_lt a ‹_›

/-- The greatest common divisor. It is positive except beside the least word, whose magnitude is
negative. -/
def gcd (a b : Int64) : Int64 := euclid (magnitude a) (magnitude b)

def power (b : Int64) (e : Nat) : Int64 :=
  if e = 0 then 1
  else if e % 2 = 1 then b * power (b * b) (e / 2)
  else power (b * b) (e / 2)
termination_by e
decreasing_by all_goals omega

/-- The power with an exponent that is a word; a negative exponent counts as zero. -/
def pow (b e : Int64) : Int64 := power b e.toInt.toNat

/-- The remainder with the sign of the divisor. -/
def floorMod (a b : Int64) : Except Fault Int64 :=
  if b = 0 then .error .zeroDivisor
  else
    let r := a % b
    .ok (if r ≠ 0 ∧ decide (r < 0) ≠ decide (b < 0) then r + b else r)

/-- The order of two words as -1, 0 or 1. -/
def compare (a b : Int64) : Int :=
  if a < b then -1 else if b < a then 1 else 0

end Reckon.Word
