import Mathlib
import Reckon.Number.Arith
import Reckon.Proofs.Grammar

namespace Reckon

/-- The kinds of errors that a calculation may end with. -/
def ErrorKind.isOrdinary : ErrorKind → Bool
  | .math | .malformed | .name | .type | .runtime => true
  | _ => false

namespace Word

theorem natAbs_magnitude (a : Int64) : (magnitude a).toInt.natAbs = a.toInt.natAbs := by
  unfold magnitude
  split
  · rw [Int64.toInt_neg]
    have := Int64.le_toInt a
    have := Int64.toInt_lt a
    by_cases hmin : a.toInt = -2 ^ 63
    · rw [hmin]
      decide
    · rw [Int.bmod_eq_of_le (by omega) (by omega), Int.natAbs_neg]
  · rfl

/-- Euclid's algorithm gives a common divisor. -/
theorem euclid_dvd (a b : Int64) :
    (euclid a b).toInt ∣ a.toInt ∧ (euclid a b).toInt ∣ b.toInt := by
  fun_induction euclid a b with
  | case1 a => simp
  | case2 a b hb ih =>
    refine ⟨?_, ih.1⟩
    have hmod := ih.2
    rw [Int64.toInt_mod] at hmod
    have hsum := Int.tmod_add_mul_tdiv a.toInt b.toInt
    rw [← hsum]
    exact Int.dvd_add hmod (Dvd.dvd.mul_right ih.1 _)

theorem gcd_dvd_right (a b : Int64) : (gcd a b).toInt ∣ b.toInt := by
  rw [← Int.dvd_natAbs, ← natAbs_magnitude, Int.dvd_natAbs]
  exact (euclid_dvd _ _).2

theorem gcd_dvd_left (a b : Int64) : (gcd a b).toInt ∣ a.toInt := by
  rw [← Int.dvd_natAbs, ← natAbs_magnitude, Int.dvd_natAbs]
  exact (euclid_dvd _ _).1

theorem mod_nonneg {a : Int64} (ha : 0 ≤ a) (b : Int64) : 0 ≤ a % b := by
  rw [Int64.le_iff_toInt_le, Int64.toInt_mod]
  exact Int.tmod_nonneg _ (Int64.le_iff_toInt_le.mp ha)

theorem euclid_nonneg {a b : Int64} (ha : 0 ≤ a) (hb : 0 ≤ b) : 0 ≤ euclid a b := by
  fun_induction euclid a b with
  | case1 a => exact ha
  | case2 a b _ ih => exact ih hb (mod_nonneg ha b)

theorem neg_nonneg_of_neg {a : Int64} (h : a < 0) (hmin : a ≠ Int64.minValue) : 0 ≤ -a := by
  have hlt : a.toInt < 0 := Int64.lt_iff_toInt_lt.mp h
  have hne : a.toInt ≠ -2 ^ 63 := fun he => hmin (Int64.toInt_inj.mp (by simpa using he))
  have hle := Int64.le_toInt a
  rw [Int64.le_iff_toInt_le, Int64.toInt_neg, Int.bmod_eq_of_le (by omega) (by omega)]
  simp
  omega

theorem magnitude_nonneg {a : Int64} (h : a ≠ Int64.minValue) : 0 ≤ magnitude a := by
  unfold magnitude
  split
  · next hneg => exact neg_nonneg_of_neg hneg h
  · next hneg => exact Int64.not_lt.mp hneg

/-- Words without a common divisor, the least word apart. -/
theorem gcd_eq_one {a b : Int64} (ha : a ≠ Int64.minValue) (hb : b ≠ Int64.minValue)
    (h : Int.gcd a.toInt b.toInt = 1) : gcd a b = 1 := by
  have hdvd : (gcd a b).toInt ∣ 1 := by
    have := Int.dvd_coe_gcd (gcd_dvd_left a b) (gcd_dvd_right a b)
    rwa [h] at this
  have hpos : 0 ≤ (gcd a b).toInt :=
    Int64.le_iff_toInt_le.mp (euclid_nonneg (magnitude_nonneg ha) (magnitude_nonneg hb))
  apply Int64.toInt_inj.mp
  exact Int.eq_one_of_dvd_one hpos hdvd

/-- The quotient of a word other than zero and a divisor of it is not zero. -/
theorem div_ne_zero_of_dvd {d g : Int64} (hd : d ≠ 0) (hg : g.toInt ∣ d.toInt) : d / g ≠ 0 := by
  obtain ⟨q, hq⟩ := hg
  have hdi : d.toInt ≠ 0 := fun he => hd (Int64.toInt_inj.mp he)
  have hgi : g.toInt ≠ 0 := fun he => hdi (by rw [hq, he, Int.zero_mul])
  have hqi : q ≠ 0 := fun he => hdi (by rw [hq, he, Int.mul_zero])
  intro hz
  have hbmod : q.bmod (2 ^ 64) = 0 := by
    have := congrArg Int64.toInt hz
    rwa [Int64.toInt_div, hq, Int.mul_tdiv_cancel_left q hgi] at this
  have hle : q.natAbs ≤ d.toInt.natAbs := by
    rw [hq, Int.natAbs_mul]
    exact Nat.le_mul_of_pos_left _ (Int.natAbs_pos.mpr hgi)
  have hbig : 2 ^ 64 ≤ q.natAbs := by
    have hdvd := Int.natAbs_dvd_natAbs.mpr (Int.dvd_of_bmod_eq_zero hbmod)
    exact Nat.le_of_dvd (Int.natAbs_pos.mpr hqi) (by simpa using hdvd)
  have := Int64.le_toInt d
  have := Int64.toInt_lt d
  omega

end Word

namespace Number

/-- A fraction in lowest terms is the quotient of its parts. -/
theorem integerOp_div {n d : Int64} (hn : n ≠ Int64.minValue) (hd : 1 < d)
    (h : Int.gcd n.toInt d.toInt = 1) : integerOp .div n d = .number (.frac ⟨n, d⟩) := by
  have hdi : 1 < d.toInt := Int64.lt_iff_toInt_lt.mp hd
  have hzero : d ≠ 0 := by
    rintro rfl
    exact absurd hdi (by decide)
  have hone : d ≠ 1 := by
    rintro rfl
    exact absurd hdi (by decide)
  have hmin : d ≠ Int64.minValue := by
    rintro rfl
    exact absurd hdi (by decide)
  have hneg : ¬d < 0 := by
    rw [Int64.lt_iff_toInt_lt]
    simp
    omega
  have hrem : n % d ≠ 0 := by
    intro he
    have htmod : n.toInt.tmod d.toInt = 0 := by
      rw [← Int64.toInt_mod, he]
      rfl
    have hdvd := Int.dvd_coe_gcd (Int.dvd_of_tmod_eq_zero htmod) (Int.dvd_refl d.toInt)
    rw [h] at hdvd
    have := Int.le_of_dvd (by decide) hdvd
    omega
  have hg := Word.gcd_eq_one hn hmin h
  simp only [integerOp, hzero, hrem, ↓reduceIte, ratio, hneg, hg, Int64.div_one, hone]
  rfl

/-- A fraction has a denominator other than zero. -/
def Proper : Number → Prop
  | .frac f => f.den ≠ 0
  | _ => True

/-- What an operation gives: a proper number, or an error that a calculation may end with. -/
def Landed : Except Cause Number → Prop
  | .ok x => x.Proper
  | .error c => c.kind.isOrdinary = true

/-- Whether the divisor of a modulus wraps to zero: the product of the denominator on the left and
the numerator on the right is zero although neither of them is. -/
def wrapsToZero : Number → Number → Bool
  | .frac f, .int b => b != 0 && b * f.den == 0
  | .frac f, .frac g => g.num != 0 && g.num * f.den == 0
  | _, _ => false

theorem reduced_landed (n : Int64) {d : Int64} (hd : d ≠ 0) :
    Landed (if d / Word.gcd n d = 1 then .ok (.int (n / Word.gcd n d))
      else .ok (.frac ⟨n / Word.gcd n d, d / Word.gcd n d⟩)) := by
  split
  · trivial
  · exact Word.div_ne_zero_of_dvd hd (Word.gcd_dvd_right n d)

theorem ratio_landed (n d : Int64) : Landed (ratio n d) := by
  unfold ratio
  by_cases hd : d = 0
  · rw [if_pos hd]
    rfl
  · rw [if_neg hd]
    by_cases hneg : d < 0
    · simp only [hneg, ↓reduceIte]
      exact reduced_landed (-n) (Int64.neg_ne_zero.mpr hd)
    · simp only [hneg, ↓reduceIte]
      exact reduced_landed n hd

theorem integerPower_landed (n d k : Int64) : Landed (integerPower n d k) := by
  unfold integerPower
  split
  · exact ratio_landed _ _
  · split
    · rfl
    · exact ratio_landed _ _

/-- A root of an order other than zero is found or not. -/
theorem rootNear?_eq_ok {n q : Int64} (hq : q ≠ 0) (guess : Int64 → Int64 → Int64) :
    ∃ r, Word.rootNear? guess n q = .ok r := by
  unfold Word.rootNear?
  split
  · exact ⟨_, rfl⟩
  · split
    · next h => exact absurd h.1 hq
    · split
      · exact ⟨_, rfl⟩
      · split
        · exact ⟨_, rfl⟩
        · exact ⟨_, rfl⟩

theorem fractionalPower_landed (n d p : Int64) {q : Int64} (hq : q ≠ 0) :
    ∃ z, fractionalPower n d p q = .ok z ∧ Landed z := by
  unfold fractionalPower fractionalPowerNear
  split
  · exact ⟨_, rfl, rfl⟩
  · split
    · refine ⟨_, rfl, ?_⟩
      split
      · rfl
      · trivial
    · obtain ⟨rn, hn⟩ := @rootNear?_eq_ok n q hq Word.rootGuess
      obtain ⟨rd, hd⟩ := @rootNear?_eq_ok d q hq Word.rootGuess
      simp only [hn, hd, ok_bind]
      cases rn with
      | none => exact ⟨_, rfl, trivial⟩
      | some rn =>
        cases rd with
        | none => exact ⟨_, rfl, trivial⟩
        | some rd => exact ⟨_, rfl, integerPower_landed rn rd p⟩

theorem rationalOp_landed {op : Op} (hop : op.isInfix = true) (an ad bn : Int64) {bd : Int64}
    (hbd : bd ≠ 0) (hw : op = .mod → bn ≠ 0 → bn * ad ≠ 0) :
    ∃ z, rationalOp op an ad bn bd = .ok z ∧ Landed z := by
  cases op with
  | none | fact => cases hop
  | add | sub | mul => exact ⟨_, rfl, ratio_landed _ _⟩
  | div =>
    by_cases hb : bn = 0
    · exact ⟨_, if_pos hb, rfl⟩
    · exact ⟨_, if_neg hb, ratio_landed _ _⟩
  | mod =>
    by_cases hb : bn = 0
    · exact ⟨_, if_pos hb, rfl⟩
    · simp only [rationalOp, hb, ↓reduceIte, Word.floorMod, hw rfl hb, ok_bind]
      exact ⟨_, rfl, ratio_landed _ _⟩
  | pow =>
    by_cases hb : bd = 1
    · exact ⟨_, if_pos hb, integerPower_landed _ _ _⟩
    · obtain ⟨z, hz, hl⟩ := fractionalPower_landed an ad bn hbd
      exact ⟨z, (if_neg hb).trans hz, hl⟩

theorem integerOp_landed {op : Op} (hop : op.isInfix = true) (a b : Int64) :
    ∃ z, integerOp op a b = .ok z ∧ Landed z := by
  cases op with
  | none | fact => cases hop
  | add | sub | mul => exact ⟨_, rfl, trivial⟩
  | div =>
    by_cases hb : b = 0
    · exact ⟨_, if_pos hb, rfl⟩
    · by_cases hr : a % b = 0
      · exact ⟨_, (if_neg hb).trans (if_pos hr), trivial⟩
      · exact ⟨_, (if_neg hb).trans (if_neg hr), ratio_landed _ _⟩
  | mod =>
    by_cases hb : b = 0
    · exact ⟨_, if_pos hb, rfl⟩
    · simp only [integerOp, hb, ↓reduceIte, Word.floorMod, ok_bind]
      exact ⟨_, rfl, trivial⟩
  | pow => exact ⟨_, rfl, integerPower_landed _ _ _⟩

theorem realOp_landed {op : Op} (hop : op.isInfix = true) (x y : Float) (p : Precision) :
    ∃ z, realOp op x y p = .ok z ∧ Landed z := by
  cases op with
  | none | fact => cases hop
  | add | sub | mul => exact ⟨_, rfl, trivial⟩
  | div | mod =>
    simp only [realOp]
    split
    · exact ⟨_, rfl, rfl⟩
    · exact ⟨_, rfl, trivial⟩
  | pow =>
    refine ⟨_, rfl, ?_⟩
    unfold realPower
    split
    · rfl
    · split
      · rfl
      · trivial

/-- An operation on proper numbers gives a proper number or an error, unless it is a modulus whose
divisor wraps to zero. -/
theorem combine_landed (p : Precision) {op : Op} (hop : op.isInfix = true) {x y : Number}
    (hy : y.Proper) (hw : op = .mod → x.wrapsToZero y = false) :
    ∃ z, x.combine p op y = .ok z ∧ Landed z := by
  cases x with
  | real a => exact realOp_landed hop _ _ p
  | int a =>
    cases y with
    | real b => exact realOp_landed hop _ _ p
    | int b => exact integerOp_landed hop a b
    | frac g => exact rationalOp_landed hop a 1 g.num hy fun _ hn => by simpa using hn
  | frac f =>
    cases y with
    | real b => exact realOp_landed hop _ _ p
    | int b =>
      refine rationalOp_landed hop f.num f.den b (by decide) fun hm hn => ?_
      simpa [wrapsToZero, hn] using hw hm
    | frac g =>
      refine rationalOp_landed hop f.num f.den g.num hy fun hm hn => ?_
      simpa [wrapsToZero, hn] using hw hm

theorem combine_wraps (p : Precision) {x y : Number} (h : x.wrapsToZero y = true) :
    x.combine p .mod y = .error .zeroDivisor := by
  unfold wrapsToZero at h
  split at h
  · simp only [Bool.and_eq_true, bne_iff_ne, ne_eq, beq_iff_eq] at h
    simp [combine, rationalOp, h.1, h.2, Word.floorMod]
  · simp only [Bool.and_eq_true, bne_iff_ne, ne_eq, beq_iff_eq] at h
    simp [combine, rationalOp, h.1, h.2, Word.floorMod]
  · cases h

end Number

end Reckon
