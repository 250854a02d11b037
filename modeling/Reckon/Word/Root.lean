import Reckon.Word.Basic

namespace Reckon.Word

/-- Factors from here on are not searched for one by one. -/
def trialLimit : Nat := 65536

/-- Divides `n` by `p` as often as it goes; the second part counts how often. -/
def strip (p n : Nat) : Nat × Nat :=
  if 2 ≤ p ∧ 0 < n ∧ n % p = 0 then
    let (m, k) := strip p (n / p)
    (m, k + 1)
  else (n, 0)
termination_by n
decreasing_by exact Nat.div_lt_self (by omega) (by omega)

/-- What trial division leaves of a number whose root of order `q` is sought. -/
inductive Cofactor where
  /-- Some prime divides the number in a multiplicity that `q` does not divide. -/
  | noRoot
  /-- The number is `root ^ q` times `rest`. -/
  | left (rest : Nat) (root : Nat)
  deriving DecidableEq, Repr

/-- Trial division of `n` from `p` on, while the square of the divisor is within `n`. -/
def cofactor (q : Int) (p n root : Nat) : Cofactor :=
  if p < trialLimit ∧ p * p ≤ n then
    let (m, k) := strip p n
    if Int.tmod k q ≠ 0 then .noRoot
    else cofactor q (p + 1) m (root * Nat.pow p (Int.tdiv k q).toNat)
  else .left n root
termination_by trialLimit - p
decreasing_by omega

/-- The loop of `isPower`: `k` factors `c` are still to be multiplied to `acc`. -/
def isPowerFrom (c n : Int64) : Nat → Int64 → Bool
  | 0, acc => acc == n
  | k + 1, acc => if n / c < acc then false else isPowerFrom c n k (acc * c)

/-- Whether `n` is `c` to the power `q`, found without leaving the range of words when `c` is at
least 2. -/
def isPower (c q n : Int64) : Except Fault Bool :=
  if c = 0 ∧ 0 < q then .error .zeroDivisor
  else .ok (isPowerFrom c n q.toInt.toNat 1)

/-- The integer nearest to the floating-point root of order `q`, or the least word when that is out
of range. -/
def rootGuess (n q : Int64) : Int64 :=
  let x := (Float.pow n.toFloat (1 / q.toFloat)).round
  if x.abs < 9223372036854775808 then x.toInt64 else Int64.minValue

/-- The candidates for a root: a guess at it and the neighbours of the guess, as far as they are
words. -/
def rootCandidates (s : Int64) : List Int64 :=
  if s - 1 ≤ s + 1 then [s - 1, s, s + 1] else []

def largeRoot? (s n q : Int64) : Option Int64 :=
  (rootCandidates s).find? fun c => 1 < c && isPowerFrom c n q.toInt.toNat 1

/-- The exact root of order `q` of `n`, if it is a word, where `guess` comes near the roots of what
trial division leaves. Numbers below 2 and first roots are their own roots. -/
def rootNear? (guess : Int64 → Int64 → Int64) (n q : Int64) : Except Fault (Option Int64) :=
  if n < 2 ∨ q = 1 then .ok (some n)
  else if q = 0 ∧ 4 ≤ n then .error .zeroDivisor
  else match cofactor q.toInt 2 n.toInt.toNat 1 with
    | .noRoot => .ok none
    | .left rest root =>
      if rest = 1 then .ok (some (Int64.ofNat root))
      else
        let m := Int64.ofNat rest
        .ok ((largeRoot? (guess m q) m q).map (Int64.ofNat root * ·))

def root? (n q : Int64) : Except Fault (Option Int64) := rootNear? rootGuess n q

end Reckon.Word
