import Reckon.Proofs.Quotients
import Reckon.Proofs.Roots

/-!
When an operation on exact numbers is refused: where it has no result, and where the denominator
over which it is calculated wraps to zero. Main statement: `exact_operation_refused_iff`.
-/

namespace Reckon

/-- Whether an operation on rationals has no result: the divisor is zero, or so is the base of a
negative power, or a negative number has an exponent that is no integer. -/
def Op.Undefined (op : Op) (a b : ℚ) : Prop :=
  (op = .div ∨ op = .mod) ∧ b = 0 ∨ op = .pow ∧ (a = 0 ∧ b < 0 ∨ a < 0 ∧ b.den ≠ 1)

instance (op : Op) (a b : ℚ) : Decidable (op.Undefined a b) :=
  inferInstanceAs (Decidable (_ ∨ _))

/-- The denominator of the power of `n / d` with the exponent `k`, before anything is cancelled. The
least exponent has no opposite and counts as zero. -/
def Number.powerDenominator (n d k : Int64) : Int :=
  if 0 ≤ k then d.toInt ^ k.toInt.toNat else n.toInt ^ (-k).toInt.toNat

/-- The denominator over which an operation on exact numbers is calculated, before anything is
cancelled. A power with a fractional exponent has one if exact roots are found. -/
def Op.denominator? (op : Op) (x y : Number) : Option Int :=
  match op with
  | .add | .sub | .mul | .mod => some (x.den.toInt * y.den.toInt)
  | .div => some (x.den.toInt * y.num.toInt)
  | .pow =>
    if y.den = 1 then some (Number.powerDenominator x.num x.den y.num)
    else match Word.root? x.num y.den, Word.root? x.den y.den with
      | .ok (some n), .ok (some d) => some (Number.powerDenominator n d y.num)
      | _, _ => Option.none
  | .none | .fact => Option.none

namespace Word

/-- Whether an integer is zero once it is wrapped to a word. -/
def Vanishes (z : Int) : Prop := 2 ^ 64 ∣ z

instance (z : Int) : Decidable (Vanishes z) := inferInstanceAs (Decidable (_ ∣ _))

theorem ofInt_eq_zero_iff_vanishes {z : Int} : Int64.ofInt z = 0 ↔ Vanishes z := by
  rw [← Int64.toInt_inj, Int64.toInt_ofInt]
  exact ⟨Int.dvd_of_bmod_eq_zero, Int.bmod_eq_zero_of_dvd⟩

theorem mul_eq_zero_iff_vanishes {a b : Int64} : a * b = 0 ↔ Vanishes (a.toInt * b.toInt) := by
  rw [← ofInt_eq_zero_iff_vanishes, Int64.ofInt_mul, Int64.ofInt_toInt, Int64.ofInt_toInt]

theorem pow_eq_zero_iff_vanishes {b e : Int64} :
    pow b e = 0 ↔ Vanishes (b.toInt ^ e.toInt.toNat) := by
  rw [pow_eq_ofInt, ofInt_eq_zero_iff_vanishes]

theorem eq_zero_iff_vanishes {a : Int64} : a = 0 ↔ Vanishes a.toInt := by
  rw [← ofInt_eq_zero_iff_vanishes, Int64.ofInt_toInt]

/-- A word other than zero does not vanish beside both parts of a fraction in lowest terms. -/
theorem not_vanishes_of_coprime {d m k : Int64} (hd : d ≠ 0)
    (hcoprime : m.toInt.natAbs.Coprime k.toInt.natAbs) (hm : Vanishes (d.toInt * m.toInt)) :
    ¬Vanishes (d.toInt * k.toInt) := by
  intro hk
  have hgcd : Vanishes (Int.gcd (d.toInt * m.toInt) (d.toInt * k.toInt)) :=
    Int.dvd_coe_gcd hm hk
  rw [Int.gcd_mul_left, Int.gcd, hcoprime.gcd_eq_one, mul_one, Vanishes, Int.dvd_natAbs] at hgcd
  exact hd (eq_zero_iff_vanishes.mpr hgcd)

end Word

def Answer.IsRefused (z : Answer) : Prop := ∃ c, z = .cause c

theorem Answer.not_isRefused_number (x : Number) : ¬Answer.IsRefused (.number x) := by
  rintro ⟨c, hc⟩
  cases hc

namespace Number

open Word (Vanishes)

theorem ratio_eq_ok {n d : Int64} (hd : d ≠ 0) : ∃ z, ratio n d = .ok z := by
  unfold ratio
  rw [if_neg hd]
  generalize (if d < 0 then (-n, -d) else (n, d)) = p
  dsimp only
  split
  · exact ⟨_, rfl⟩
  · exact ⟨_, rfl⟩

theorem ratio_isRefused_iff {n d : Int64} : Answer.IsRefused (.ok (ratio n d)) ↔ d = 0 := by
  constructor
  · rintro ⟨c, hc⟩
    by_contra hd
    obtain ⟨z, hz⟩ := @ratio_eq_ok n d hd
    rw [hz] at hc
    cases hc
  · rintro rfl
    exact ⟨_, rfl⟩

theorem ratio_mul_isRefused_iff {n d k : Int64} :
    Answer.IsRefused (.ok (ratio n (d * k))) ↔ Vanishes (d.toInt * k.toInt) :=
  ratio_isRefused_iff.trans Word.mul_eq_zero_iff_vanishes

theorem integerPower_isRefused_iff {n d k : Int64} :
    Answer.IsRefused (.ok (integerPower n d k)) ↔
      n = 0 ∧ k < 0 ∨ Vanishes (powerDenominator n d k) := by
  unfold integerPower powerDenominator
  by_cases hk : 0 ≤ k
  · have hneg : ¬k < 0 := Int64.not_lt.mpr hk
    simp only [hk, hneg, ↓reduceIte, and_false, false_or]
    rw [ratio_isRefused_iff, Word.pow_eq_zero_iff_vanishes]
  · have hneg : k < 0 := Int64.not_le.mp hk
    by_cases hn : n = 0
    · simp only [hk, hn, hneg, ↓reduceIte, and_self, true_or, iff_true]
      exact ⟨_, rfl⟩
    · simp only [hk, hn, ↓reduceIte, false_and, false_or]
      rw [ratio_isRefused_iff, Word.pow_eq_zero_iff_vanishes]

section

variable {x y : Number} {a b : ℚ} (hx : x.Denotes a) (hy : y.Denotes b)

include hx in
theorem Denotes.eq_zero_iff : a = 0 ↔ x.num = 0 := by
  rw [← Rat.num_eq_zero, hx.num_eq, ← Int64.toInt_inj]
  rfl

include hx in
theorem Denotes.neg_iff : a < 0 ↔ x.num < 0 := by
  rw [← Rat.num_neg, hx.num_eq, Int64.lt_iff_toInt_lt]
  rfl

include hx in
theorem Denotes.den_eq_one_iff : a.den = 1 ↔ x.den = 1 := by
  rw [← Int.natCast_inj, hx.den_eq, ← Int64.toInt_inj]
  rfl

include hx hy in
theorem undefined_iff {op : Op} : op.Undefined a b ↔ (op = .div ∨ op = .mod) ∧ y.num = 0 ∨
    op = .pow ∧ (x.num = 0 ∧ y.num < 0 ∨ x.num < 0 ∧ y.den ≠ 1) := by
  unfold Op.Undefined
  rw [hx.eq_zero_iff, hy.eq_zero_iff, hx.neg_iff, hy.neg_iff, ne_eq, hy.den_eq_one_iff]

include hx in
theorem Denotes.den_ne_zero : x.den ≠ 0 := by
  intro he
  have hpos := hx.den_pos
  rw [he] at hpos
  exact absurd hpos (by decide)

include hx in
/-- The denominator of zero is 1. -/
theorem Denotes.den_of_num_eq_zero (h0 : x.num = 0) : x.den = 1 := by
  rw [← hx.den_eq_one_iff, hx.eq_zero_iff.mpr h0]
  rfl

/-- A fractional power of a positive fraction is refused exactly if the power of its exact roots
is. -/
theorem fractionalPower_isRefused_iff {n d p q : Int64} (hn : 0 < n) (hq : q ≠ 0) :
    (fractionalPower n d p q).IsRefused ↔
      ∃ rn rd, Word.root? n q = .ok (some rn) ∧ Word.root? d q = .ok (some rd) ∧
        Answer.IsRefused (.ok (integerPower rn rd p)) := by
  obtain ⟨rn, hrn⟩ := rootNear?_eq_ok (n := n) hq Word.rootGuess
  obtain ⟨rd, hrd⟩ := rootNear?_eq_ok (n := d) hq Word.rootGuess
  simp only [fractionalPower, fractionalPowerNear_eq hn hrn hrd, Word.root?, hrn, hrd]
  cases rn with
  | none => simpa using Answer.not_isRefused_number _
  | some rn =>
    cases rd with
    | none => simpa using Answer.not_isRefused_number _
    | some rd => simp

theorem not_vanishes_one : ¬Vanishes 1 := by decide

/-- Zero has the power zero, unless the exponent is negative. -/
theorem fractionalPower_zero_isRefused_iff {d p q : Int64} :
    (fractionalPower 0 d p q).IsRefused ↔ p < 0 := by
  unfold fractionalPower fractionalPowerNear Answer.IsRefused Answer.cause
  by_cases hp : p < 0 <;> simp [hp]

/-- What a power of zero is calculated over is 1, unless the exponent is negative. -/
theorem not_vanishes_powerDenominator {n p : Int64} (hp : ¬p < 0) :
    ¬Vanishes (powerDenominator n 1 p) := by
  rw [powerDenominator, if_pos (Int64.not_lt.mp hp), Int64.toInt_one, one_pow]
  exact not_vanishes_one

/-- The root of a positive word is not zero. -/
theorem root_ne_zero {n q r : Int64} (hn : 0 < n) (hq : 0 < q.toInt)
    (h : Word.root? n q = .ok (some r)) : r ≠ 0 := by
  rintro rfl
  have hpos : 0 < n.toInt := Int64.lt_iff_toInt_lt.mp hn
  have hroot := (Word.rootNear?_sound (by omega) hq h).2
  rw [Int64.toInt_zero, zero_pow (by omega)] at hroot
  omega

include hx hy in
theorem power_isRefused_iff :
    (rationalOp .pow x.num x.den y.num y.den).IsRefused ↔
      (x.num = 0 ∧ y.num < 0 ∨ x.num < 0 ∧ y.den ≠ 1) ∨
        ∃ d, Op.pow.denominator? x y = some d ∧ Vanishes d := by
  unfold rationalOp Op.denominator?
  by_cases hint : y.den = 1
  · simp [hint, integerPower_isRefused_iff]
  simp only [hint, ↓reduceIte, ne_eq, not_false_eq_true, and_true]
  by_cases hneg : x.num < 0
  · refine iff_of_true ⟨.complexPower, ?_⟩ (.inl (.inr hneg))
    simp [fractionalPower, fractionalPowerNear, hneg, Answer.cause]
  by_cases hzero : x.num = 0
  · have hroot : ∀ n : Int64, n < 2 → Word.root? n y.den = .ok (some n) := by
      intro n hn
      simp [Word.root?, Word.rootNear?, hn]
    rw [hx.den_of_num_eq_zero hzero, hzero, hroot 0 (by decide), hroot 1 (by decide),
      fractionalPower_zero_isRefused_iff]
    by_cases hp : y.num < 0
    · simp [hp]
    · simpa [hp] using not_vanishes_powerDenominator hp
  · have hpos : 0 < x.num := Int64.lt_of_le_of_ne (Int64.not_lt.mp hneg) (Ne.symm hzero)
    rw [fractionalPower_isRefused_iff hpos hy.den_ne_zero]
    simp only [hzero, hneg, false_and, false_or]
    constructor
    · rintro ⟨rn, rd, hrn, hrd, hrefused⟩
      have hrn0 : rn ≠ 0 := root_ne_zero hpos hy.den_pos hrn
      rw [integerPower_isRefused_iff] at hrefused
      rw [hrn, hrd]
      exact ⟨_, rfl, hrefused.resolve_left fun h => hrn0 h.1⟩
    · rintro ⟨d, hd, hvanishes⟩
      split at hd
      · next rn rd hrn hrd =>
        cases hd
        exact ⟨rn, rd, hrn, hrd, integerPower_isRefused_iff.mpr (.inr hvanishes)⟩
      · cases hd

end

section

variable {x y : Number} {a b : ℚ} (hx : x.Denotes a) (hy : y.Denotes b)

include hx hy in
/-- A modulus is refused only by the zero divisor: where the denominator vanishes the other products
do not, or the operation stops with a fault. -/
theorem modulus_isRefused_iff :
    (rationalOp .mod x.num x.den y.num y.den).IsRefused ↔
      y.num = 0 ∨ Vanishes (x.den.toInt * y.den.toInt) := by
  unfold rationalOp
  by_cases hzero : y.num = 0
  · simp [hzero, Answer.IsRefused, Answer.cause]
  simp only [hzero, ↓reduceIte, false_or]
  by_cases hwrap : y.num * x.den = 0
  · have hnot : ¬Vanishes (x.den.toInt * y.den.toInt) := by
      rw [Word.mul_eq_zero_iff_vanishes, mul_comm] at hwrap
      exact Word.not_vanishes_of_coprime hx.den_ne_zero hy.coprime hwrap
    simp [hwrap, hnot, Word.floorMod, Answer.IsRefused, Answer.cause]
  · rw [Word.floorMod_eq hwrap]
    exact ratio_mul_isRefused_iff

include hx hy in
theorem rationalOp_isRefused_iff (op : Op) :
    (rationalOp op x.num x.den y.num y.den).IsRefused ↔
      op.Undefined a b ∨ ∃ d, op.denominator? x y = some d ∧ Vanishes d := by
  rw [undefined_iff hx hy]
  cases op with
  | add | sub | mul => simp [rationalOp, Op.denominator?, ratio_mul_isRefused_iff]
  | div =>
    by_cases hzero : y.num = 0
    · simp [rationalOp, hzero, Answer.IsRefused, Answer.cause]
    · simp [rationalOp, hzero, Op.denominator?, ratio_mul_isRefused_iff]
  | mod => simpa [Op.denominator?] using modulus_isRefused_iff hx hy
  | pow => simpa using power_isRefused_iff hx hy
  | none | fact => simp [rationalOp, Op.denominator?, Answer.IsRefused, Answer.cause]

end

/-- An operation on integers is refused where the one on fractions over 1 is. -/
theorem integerOp_isRefused_iff (op : Op) (a b : Int64) :
    (integerOp op a b).IsRefused ↔ (rationalOp op a 1 b 1).IsRefused := by
  have hnumber := Answer.not_isRefused_number
  have hone : ∀ n, ¬Answer.IsRefused (.ok (ratio n 1)) := fun n =>
    ratio_isRefused_iff.not.mpr (by decide)
  unfold integerOp rationalOp
  cases op with
  | add | sub | mul => exact iff_of_false (hnumber _) (hone _)
  | div =>
    by_cases hb : b = 0
    · simp [hb]
    · have hratio : ¬Answer.IsRefused (.ok (ratio a b)) := ratio_isRefused_iff.not.mpr hb
      simp only [hb, ↓reduceIte, Int64.mul_one, Int64.one_mul]
      refine iff_of_false ?_ hratio
      split
      · exact hnumber _
      · exact hratio
  | mod =>
    by_cases hb : b = 0
    · simp [hb]
    · simp only [hb, ↓reduceIte, Int64.mul_one]
      rw [Word.floorMod_eq hb]
      exact iff_of_false (hnumber _) (hone _)
  | pow => simp
  | none | fact => simp [Answer.IsRefused, Answer.cause]

/-- An operation on exact numbers is refused exactly if it has no result, or if the denominator over
which it is calculated wraps to zero. -/
theorem combine_isRefused_iff {x y : Number} {a b : ℚ} (hx : x.Denotes a) (hy : y.Denotes b)
    (p : Precision) (op : Op) :
    (x.combine p op y).IsRefused ↔
      op.Undefined a b ∨ ∃ d, op.denominator? x y = some d ∧ Vanishes d := by
  rw [← rationalOp_isRefused_iff hx hy op]
  cases hx with
  | int _ =>
    cases hy with
    | int _ => exact integerOp_isRefused_iff op _ _
    | frac _ _ _ => rfl
  | frac _ _ _ =>
    cases hy with
    | int _ => rfl
    | frac _ _ _ => rfl

end Number

/-- Among exact numbers an error stands exactly for an operation that has no result, or for a
denominator that wraps to zero before anything is cancelled. -/
theorem exact_operation_refused_iff {x y : Number} {a b : ℚ} (hx : x.Denotes a) (hy : y.Denotes b)
    (p : Precision) (op : Op) :
    (∃ c, Value.arith p op (.number x) (.number y) = .ok (.error c)) ↔
      op.Undefined a b ∨ ∃ d, op.denominator? x y = some d ∧ Word.Vanishes d := by
  rw [← Number.combine_isRefused_iff hx hy p op]
  simp only [Value.arith, Value.broadcast, Value.scalarOp, Answer.IsRefused, Answer.cause]
  rcases x.combine p op y with f | c | z
  · refine iff_of_false ?_ ?_
    all_goals
      rintro ⟨c, hc⟩
      cases hc
  · exact iff_of_true ⟨c, rfl⟩ ⟨c, rfl⟩
  · refine iff_of_false ?_ ?_
    all_goals
      rintro ⟨c, hc⟩
      cases hc

/-- The eighth power of 1/256 is calculated over a denominator that wraps to zero. -/
theorem eighth_power_refused :
    let x : Number := .frac ⟨1, 256⟩
    let y : Number := .int 8
    x.Denotes (1 / 256) ∧ y.Denotes 8 ∧
      ∃ c, Value.arith 64 .pow (.number x) (.number y) = .ok (.error c) := by
  intro x y
  have hx : x.Denotes (1 / 256) := .frac (by decide) (by decide) rfl
  have hy : y.Denotes 8 := .int rfl
  have hdenominator : Op.pow.denominator? x y = some (256 ^ 8) := by decide
  have hvanishes : Word.Vanishes (256 ^ 8) := by decide
  have hrefused := exact_operation_refused_iff hx hy 64 .pow
  exact ⟨hx, hy, hrefused.mpr (.inr ⟨_, hdenominator, hvanishes⟩)⟩

/-- An error does not stand only for an operation without a result: the sum of 1/4294967296 and
itself has one, and is calculated over the square of the denominator. -/
theorem not_refused_iff_undefined :
    ¬∀ (x y : Number) (a b : ℚ), x.Denotes a → y.Denotes b →
      ∀ (p : Precision) (op : Op), op.isInfix →
      ((∃ c, Value.arith p op (.number x) (.number y) = .ok (.error c)) ↔ op.Undefined a b) := by
  intro hclaim
  have hx : (Number.frac ⟨1, 4294967296⟩).Denotes (1 / 4294967296) :=
    .frac (by decide) (by decide) rfl
  have hrefused : Value.arith 64 .add (.number (.frac ⟨1, 4294967296⟩))
      (.number (.frac ⟨1, 4294967296⟩)) = .ok (.error .divisionByZero) := rfl
  have hundefined := (hclaim _ _ _ _ hx hx 64 .add rfl).mp ⟨_, hrefused⟩
  exact absurd hundefined (by simp [Op.Undefined])

end Reckon
