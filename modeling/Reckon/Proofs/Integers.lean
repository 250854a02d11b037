import Reckon.Proofs.Literals
import Reckon.Proofs.Rationals

/-!
Calculation with integers. It wraps as words do, and it is the same whether integers are taken as
such or as fractions over 1. Main statements: `integerOp_eq_rationalOp` and
`integer_expression_wraps`.
-/

namespace Reckon

namespace Word

/-- Nothing is cancelled against 1, not even of the least word. -/
theorem gcd_one (n : Int64) : gcd n 1 = 1 := by
  have hone : magnitude 1 = 1 := by decide
  rw [gcd, hone, euclid, if_neg (by decide), Int64.mod_one, euclid, if_pos rfl]

theorem pow_of_one (k : Int64) : pow 1 k = 1 := by
  have hone : (1 : Int64).toInt = 1 := rfl
  rw [pow_eq_ofInt, hone, one_pow]
  rfl

theorem dvd_of_mod_eq_zero {a b : Int64} (h : a % b = 0) : b.toInt ∣ a.toInt := by
  apply Int.dvd_of_tmod_eq_zero
  rw [← Int64.toInt_mod, h]
  rfl

end Word

namespace Number

/-- A fraction over 1 is an integer. -/
theorem ratio_one (n : Int64) : ratio n 1 = .ok (.int n) := by
  have hpos : ¬(1 : Int64) < 0 := by decide
  simp [ratio, hpos, Word.gcd_one]

/-- A power of a fraction over 1 is one of an integer. -/
theorem integerPower_one (n : Int64) {k : Int64} (hk : 0 ≤ k) :
    integerPower n 1 k = .ok (.int (Word.pow n k)) := by
  rw [integerPower, if_pos hk, Word.pow_of_one, ratio_one]

/-- Zero is the only other multiple of the least word. -/
theorem eq_zero_of_least_dvd {a : Int64} (ha : a ≠ Int64.minValue)
    (h : Int64.minValue.toInt ∣ a.toInt) : a = 0 := by
  have hrange := Word.inRange_toInt ha
  obtain ⟨q, hq⟩ := h
  unfold Word.InRange at hrange
  rw [Int64.toInt_minValue] at hq
  apply Int64.toInt_inj.mp
  change a.toInt = 0
  omega

/-- What comes out even is the same by cancelling and by dividing. The least word is left out on the
left, as it has no opposite. -/
theorem ratio_of_mod_eq_zero {a b : Int64} (ha : a ≠ Int64.minValue) (hb : b ≠ 0)
    (h : a % b = 0) : ratio a b = .ok (.int (a / b)) := by
  have hdvd := Word.dvd_of_mod_eq_zero h
  by_cases hleast : b = Int64.minValue
  · subst hleast
    rw [eq_zero_of_least_dvd ha hdvd]
    decide +kernel
  · obtain ⟨z, hz, hdenotes⟩ := ratio_denotes ha hleast hb
    have hint : (Number.int (a / b)).Denotes (a.toInt / b.toInt) := by
      have hbz : b.toInt ≠ 0 := fun he => hb (Int64.toInt_inj.mp he)
      refine .int ?_
      rw [Int64.toInt_div_of_ne_left a b ha, Int.tdiv_eq_ediv_of_dvd hdvd,
        Int.cast_div hdvd (Int.cast_ne_zero.mpr hbz)]
    rw [hz, hdenotes.unique hint]

end Number

/-- An operation gives the same number, or the same error, on integers and on the fractions of them
over 1. Of quotients those of the least word are left out. -/
theorem integerOp_eq_rationalOp {op : Op} (hop : op.isInfix = true) {a b : Int64}
    (hleast : op = .div → a ≠ Int64.minValue) :
    Number.integerOp op a b = Number.rationalOp op a 1 b 1 := by
  open Number in
  cases op with
  | none | fact => cases hop
  | add | sub | mul => simp [integerOp, rationalOp, ratio_one, Answer.number]
  | pow => rfl
  | mod =>
    by_cases hb : b = 0
    · simp [integerOp, rationalOp, hb]
    · simp [integerOp, rationalOp, hb, Word.floorMod_eq, ratio_one]
  | div =>
    by_cases hb : b = 0
    · simp [integerOp, rationalOp, hb]
    · have hrational : rationalOp .div a 1 b 1 = .ok (ratio a b) := by
        simp [rationalOp, hb]
      rw [hrational, integerOp, if_neg hb]
      split
      · next heven => rw [ratio_of_mod_eq_zero (hleast rfl) hb heven, Answer.number]
      · rfl

/-- Nine over minus six, from which three is cancelled. -/
theorem quotient_eq_rational_quotient :
    Op.div.isInfix = true ∧ (9 : Int64) ≠ Int64.minValue ∧
      Number.integerOp .div 9 (-6) = Number.rationalOp .div 9 1 (-6) 1 := by
  have hop : Op.div.isInfix = true := rfl
  have hleast : (9 : Int64) ≠ Int64.minValue := by decide
  exact ⟨hop, hleast, integerOp_eq_rationalOp hop fun _ => hleast⟩

/-- With enough fuel the value is evaluated to an integer, whatever the host and the context. -/
def Value.ComesTo (v : Value) (n : Int64) : Prop :=
  ∃ N, ∀ host c fuel, N ≤ fuel → (Engine.mk host fuel).eval c v = .ok (.int n)

namespace Value.ComesTo

theorem int (n : Int64) : (Value.int n).ComesTo n := by
  refine ⟨1, fun host c fuel hfuel => ?_⟩
  obtain ⟨k, rfl⟩ := Nat.exists_eq_add_of_le' hfuel
  rfl

/-- An operation whose operands come to integers is one on integers. -/
theorem binary {op : Op} {l r : Value} {a b n : Int64} (hl : l.ComesTo a) (hr : r.ComesTo b)
    (hn : Number.integerOp op a b = .number (.int n)) : (Value.binary op l r).ComesTo n := by
  obtain ⟨N, hl⟩ := hl
  obtain ⟨M, hr⟩ := hr
  refine ⟨N + M + 2, fun host c fuel hfuel => ?_⟩
  obtain ⟨k, rfl⟩ := Nat.exists_eq_add_of_le' hfuel
  have hleft := coerce_of_evaluate_number host c (hl host c (k + (N + M) + 1) (by omega))
  have hright := coerce_of_evaluate_number host c (hr host c (k + (N + M) + 1) (by omega))
  exact evaluate_binary host c hleft hright hn

end Value.ComesTo

/-- An expression of integers: literals, sums, differences, products and powers whose exponent is a
literal that is not negative. -/
inductive IntegerExpression where
  | literal (n : Int64)
  | sum (l r : IntegerExpression)
  | difference (l r : IntegerExpression)
  | product (l r : IntegerExpression)
  | power (base : IntegerExpression) (exponent : { k : Int64 // 0 ≤ k })

namespace IntegerExpression

/-- The expression as a tree to be evaluated. -/
def tree : IntegerExpression → Value
  | .literal n => .int n
  | .sum l r => .binary .add l.tree r.tree
  | .difference l r => .binary .sub l.tree r.tree
  | .product l r => .binary .mul l.tree r.tree
  | .power base k => .binary .pow base.tree (.int k)

/-- The integer that the expression stands for, however large. -/
def exact : IntegerExpression → Int
  | .literal n => n.toInt
  | .sum l r => l.exact + r.exact
  | .difference l r => l.exact - r.exact
  | .product l r => l.exact * r.exact
  | .power base k => base.exact ^ k.1.toInt.toNat

/-- It makes no difference whether what arises on the way is wrapped. -/
theorem tree_comesTo (e : IntegerExpression) : e.tree.ComesTo (Int64.ofInt e.exact) := by
  induction e with
  | literal n =>
    rw [exact, Int64.ofInt_toInt]
    exact .int n
  | sum l r ihl ihr =>
    refine ihl.binary ihr ?_
    rw [exact, Int64.ofInt_add, Number.integerOp]
  | difference l r ihl ihr =>
    refine ihl.binary ihr ?_
    rw [exact, Int64.ofInt_sub, Number.integerOp]
  | product l r ihl ihr =>
    refine ihl.binary ihr ?_
    rw [exact, Int64.ofInt_mul, Number.integerOp]
  | power base k ih =>
    refine ih.binary (.int k) ?_
    rw [exact, Number.integerOp, Number.integerPower_one _ k.2, Word.pow, Word.power_ofInt]
    rfl

end IntegerExpression

/-- An expression of integers comes to the exact integer modulo 2^64, the one of its residues that
is a word. -/
theorem integer_expression_wraps (e : IntegerExpression) :
    ∃ n : Int64, n.toInt = e.exact.bmod (2 ^ 64) ∧
      ∃ N, ∀ host c fuel, N ≤ fuel → (Engine.mk host fuel).eval c e.tree = .ok (.int n) :=
  ⟨Int64.ofInt e.exact, Int64.toInt_ofInt, e.tree_comesTo⟩

end Reckon
