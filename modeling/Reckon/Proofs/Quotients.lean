import Reckon.Proofs.Rationals

/-!
Quotients of integers. They are exact unless the least word, which has no opposite, takes part in a
quotient that does not come out even. Main statement: `integer_quotient_exact_iff`.
-/

namespace Reckon

namespace Word

/-- The parts of the rational in lowest terms are words. -/
def Holds (q : ℚ) : Prop := -2 ^ 63 ≤ q.num ∧ q.num < 2 ^ 63 ∧ q.den < 2 ^ 63

instance (q : ℚ) : Decidable (Holds q) := inferInstanceAs (Decidable (_ ∧ _))

theorem neg_minValue : -Int64.minValue = Int64.minValue := by decide

/-- A positive quotient has operands of one sign. -/
theorem mul_pos_of_div_pos {a b : Int64} (h : 0 < (a / b).toInt) : 0 < a.toInt * b.toInt := by
  have hdiv : (a / b).toInt = a.toInt.tdiv b.toInt := by
    by_cases ha : a = Int64.minValue
    · refine Int64.toInt_div_of_ne_right a b ?_
      rintro rfl
      rw [ha, Int64.minValue_div_neg_one] at h
      exact absurd h (by decide)
    · exact Int64.toInt_div_of_ne_left a b ha
  have hsign := Int.sign_tdiv a.toInt b.toInt
  rw [← hdiv, Int.sign_eq_one_of_pos h] at hsign
  split at hsign
  · cases hsign
  · rw [← Int.sign_mul] at hsign
    exact Int.sign_eq_one_iff_pos.mp hsign.symm

/-- Operands of one sign have no negative quotient, unless it wraps. -/
theorem div_nonneg_of_mul_nonneg {a b : Int64} (ha : a ≠ Int64.minValue)
    (h : 0 ≤ a.toInt * b.toInt) : 0 ≤ (a / b).toInt := by
  rw [Int64.toInt_div_of_ne_left a b ha]
  rcases mul_nonneg_iff.mp h with ⟨ha, hb⟩ | ⟨ha, hb⟩
  · exact Int.tdiv_nonneg ha hb
  · exact Int.tdiv_nonneg_of_nonpos_of_nonpos ha hb

end Word

namespace Number

/-- What is left after cancelling is canonical only if its denominator is positive and its numerator
has the sign of the quotient. -/
theorem Gives.of_cancelled {n d g : Int64} {q : ℚ}
    (h : Gives (if d / g = 1 then .ok (.int (n / g)) else .ok (.frac ⟨n / g, d / g⟩)) q) :
    0 < (d / g).toInt ∧ (0 < q → 0 < (n / g).toInt) ∧ (q < 0 → (n / g).toInt < 0) := by
  have hparts : 0 < (d / g).toInt ∧ q = (n / g).toInt / (d / g).toInt := by
    obtain ⟨z, hz, hq⟩ := h
    split at hz
    · next hone =>
      cases hz
      have heq := hq.eq_div
      refine ⟨by rw [hone]; exact Int.one_pos, ?_⟩
      simpa [num, den, hone] using heq
    · cases hz
      exact ⟨hq.den_pos, hq.eq_div⟩
  obtain ⟨hden, rfl⟩ := hparts
  have hdenq : (0 : ℚ) < (d / g).toInt := Int.cast_pos.mpr hden
  refine ⟨hden, fun hq => ?_, fun hq => ?_⟩
  · exact Int.cast_pos.mp ((div_pos_iff_of_pos_right hdenq).mp hq)
  · by_contra hnum
    exact absurd hq (div_nonneg (Int.cast_nonneg (not_lt.mp hnum)) hdenq.le).not_gt

theorem ratio_of_pos {n d : Int64} (hd : 0 < d.toInt) :
    ratio n d = if d / Word.gcd n d = 1 then .ok (.int (n / Word.gcd n d))
      else .ok (.frac ⟨n / Word.gcd n d, d / Word.gcd n d⟩) := by
  have hneg : ¬d < 0 := fun h => absurd (Int64.lt_iff_toInt_lt.mp h) (by simp; omega)
  have h0 : d ≠ 0 := by
    rintro rfl
    exact absurd hd (by decide)
  simp only [ratio, h0, hneg, ↓reduceIte]

theorem ratio_of_neg {n d : Int64} (hd : d.toInt < 0) :
    ratio n d = if -d / Word.gcd (-n) (-d) = 1 then .ok (.int (-n / Word.gcd (-n) (-d)))
      else .ok (.frac ⟨-n / Word.gcd (-n) (-d), -d / Word.gcd (-n) (-d)⟩) := by
  have hneg : d < 0 := Int64.lt_iff_toInt_lt.mpr hd
  have h0 : d ≠ 0 := by
    rintro rfl
    exact absurd hd (by decide)
  simp only [ratio, h0, hneg, ↓reduceIte]

theorem least_over_pos_iff {d : Int64} (hd : 0 < d.toInt) :
    Gives (ratio Int64.minValue d) (Int64.minValue.toInt / d.toInt) ↔
      0 < (Word.gcd Int64.minValue d).toInt := by
  rw [ratio_of_pos hd]
  constructor
  · intro h
    exact pos_of_mul_pos_right (Word.mul_pos_of_div_pos h.of_cancelled.1) hd.le
  · exact reduced_denotes hd

/-- Over a negative word the least word keeps its sign, so the quotient does, too. -/
theorem not_least_over_neg {d : Int64} (hd : d.toInt < 0) (hmin : d ≠ Int64.minValue) :
    ¬Gives (ratio Int64.minValue d) (Int64.minValue.toInt / d.toInt) := by
  have hleast : Int64.minValue.toInt < 0 := by decide
  have hopposite : 0 < (-d).toInt := by
    rw [Word.toInt_neg hmin]
    omega
  rw [ratio_of_neg hd, Word.neg_minValue]
  intro h
  obtain ⟨hden, hpos, -⟩ := h.of_cancelled
  have hg := pos_of_mul_pos_right (Word.mul_pos_of_div_pos hden) hopposite.le
  have hnum := hpos (div_pos_of_neg_of_neg (Int.cast_lt_zero.mpr hleast) (Int.cast_lt_zero.mpr hd))
  have hsigns := Word.mul_pos_of_div_pos hnum
  nlinarith

/-- Over the least word, which is its own opposite, the numerator alone changes its sign. -/
theorem not_over_least {n : Int64} (hn : n ≠ Int64.minValue) (h0 : n ≠ 0) :
    ¬Gives (ratio n Int64.minValue) (n.toInt / Int64.minValue.toInt) := by
  have hleast : Int64.minValue.toInt < 0 := by decide
  have hleastq : (Int64.minValue.toInt : ℚ) < 0 := Int.cast_lt_zero.mpr hleast
  have hopposite := Word.toInt_neg hn
  have hnz : n.toInt ≠ 0 := fun he => h0 (Int64.toInt_inj.mp he)
  rw [ratio_of_neg hleast, Word.neg_minValue]
  intro h
  obtain ⟨hden, hpos, hneg⟩ := h.of_cancelled
  have hg := neg_of_mul_pos_right (Word.mul_pos_of_div_pos hden) hleast.le
  rcases lt_or_gt_of_ne hnz with hlt | hgt
  · have hnum := hpos (div_pos_of_neg_of_neg (Int.cast_lt_zero.mpr hlt) hleastq)
    have hsigns := Word.mul_pos_of_div_pos hnum
    nlinarith
  · have hnum := hneg (div_neg_of_pos_of_neg (Int.cast_pos.mpr hgt) hleastq)
    have hsigns := Word.div_nonneg_of_mul_nonneg (Word.neg_ne_minValue hn)
      (b := Word.gcd (-n) Int64.minValue) (by nlinarith)
    omega

/-- A quotient that comes out even is exact if it is a word. -/
theorem integerOp_div_of_dvd {a b : Int64} (hb : b ≠ 0) (hq : Word.Holds (a.toInt / b.toInt))
    (hdvd : b.toInt ∣ a.toInt) :
    ∃ z, integerOp .div a b = Answer.number z ∧ z.Denotes (a.toInt / b.toInt) := by
  have hbz : b.toInt ≠ 0 := fun he => hb (Int64.toInt_inj.mp he)
  have hquot : (a.toInt / b.toInt : ℚ) = (a.toInt / b.toInt : Int) :=
    (Int.cast_div hdvd (Int.cast_ne_zero.mpr hbz)).symm
  have hrem : a % b = 0 := by
    rw [← Int64.toInt_inj, Int64.toInt_mod]
    exact Int.tmod_eq_zero_of_dvd hdvd
  rw [integerOp, if_neg hb, if_pos hrem]
  refine ⟨_, rfl, .int ?_⟩
  rw [hquot, Word.Holds, Rat.num_intCast] at hq
  rw [hquot, Int64.toInt_div, Int.tdiv_eq_ediv_of_dvd hdvd,
    Int.bmod_eq_of_le (by omega) (by omega)]

theorem integerOp_div_of_not_dvd {a b : Int64} (hb : b ≠ 0) (h : ¬b.toInt ∣ a.toInt) :
    integerOp .div a b = .ok (ratio a b) := by
  have hrem : a % b ≠ 0 := by
    intro he
    apply h
    apply Int.dvd_of_tmod_eq_zero
    rw [← Int64.toInt_mod, he]
    rfl
  rw [integerOp, if_neg hb, if_neg hrem]

end Number

/-- A quotient of integers that words can hold is found in canonical form just if it comes out even,
or the least word takes no part, or it is divided by a positive word with which Euclid's algorithm
ends in a positive divisor. -/
theorem integer_quotient_exact_iff {a b : Int64} (hb : b ≠ 0)
    (hq : Word.Holds (a.toInt / b.toInt)) :
    (∃ z, Number.integerOp .div a b = Answer.number z ∧ z.Denotes (a.toInt / b.toInt)) ↔
      b.toInt ∣ a.toInt ∨ (a ≠ Int64.minValue ∧ b ≠ Int64.minValue) ∨
        (a = Int64.minValue ∧ 0 < b ∧ 0 < Word.gcd a b) := by
  by_cases hdvd : b.toInt ∣ a.toInt
  · exact iff_of_true (Number.integerOp_div_of_dvd hb hq hdvd) (.inl hdvd)
  have hbz : b.toInt ≠ 0 := fun he => hb (Int64.toInt_inj.mp he)
  have hword : ∀ c : Int64, 0 < c ↔ 0 < c.toInt := fun c => Int64.lt_iff_toInt_lt
  have hgives : (∃ z, Number.integerOp .div a b = Answer.number z ∧
      z.Denotes (a.toInt / b.toInt)) ↔
      Number.Gives (Number.ratio a b) (a.toInt / b.toInt) := by
    rw [Number.integerOp_div_of_not_dvd hb hdvd]
    simp only [Answer.number, Except.ok.injEq, Number.Gives]
  rw [hgives, or_iff_right hdvd, hword, hword]
  by_cases ha : a = Int64.minValue
  · subst ha
    rcases lt_or_gt_of_ne hbz with hneg | hpos
    · have hbm : b ≠ Int64.minValue := by
        rintro rfl
        exact hdvd (dvd_refl _)
      refine iff_of_false (Number.not_least_over_neg hneg hbm) ?_
      rintro (⟨h, -⟩ | ⟨-, h, -⟩)
      · exact h rfl
      · exact absurd h hneg.le.not_gt
    · simp only [Number.least_over_pos_iff hpos, hpos, ne_eq, not_true_eq_false, false_and,
        true_and, false_or]
  · by_cases hbm : b = Int64.minValue
    · subst hbm
      have h0 : a ≠ 0 := by
        rintro rfl
        exact hdvd (dvd_zero _)
      refine iff_of_false (Number.not_over_least ha h0) ?_
      rintro (⟨-, h⟩ | ⟨h, -⟩)
      · exact h rfl
      · exact ha h
    · exact iff_of_true (Number.ratio_denotes ha hbm hb) (.inl ⟨ha, hbm⟩)

/-- A third of the least integer is found, since the two have no divisor to cancel. -/
theorem third_of_least :
    (3 : Int64) ≠ 0 ∧ Word.Holds (Int64.minValue.toInt / (3 : Int64).toInt) ∧
      ∃ z, Number.integerOp .div Int64.minValue 3 = Answer.number z ∧
        z.Denotes (Int64.minValue.toInt / (3 : Int64).toInt) := by
  have hb : (3 : Int64) ≠ 0 := by decide
  have hq : Word.Holds (Int64.minValue.toInt / (3 : Int64).toInt) := by decide +kernel
  have hg : 0 < Word.gcd Int64.minValue 3 := by decide +kernel
  exact ⟨hb, hq, (integer_quotient_exact_iff hb hq).mpr (.inr (.inr ⟨rfl, by decide, hg⟩))⟩

/-- A sixth of the least integer gets a negative denominator. -/
theorem sixth_of_least :
    Word.Holds (Int64.minValue.toInt / (6 : Int64).toInt) ∧
      Number.integerOp .div Int64.minValue 6 =
        Answer.number (.frac ⟨4611686018427387904, -3⟩) ∧
      ¬∃ z, Number.integerOp .div Int64.minValue 6 = Answer.number z ∧
        z.Denotes (Int64.minValue.toInt / (6 : Int64).toInt) := by
  have hgcd : Word.gcd Int64.minValue 6 = -2 := by decide +kernel
  have hfound : Number.integerOp .div Int64.minValue 6 =
      Answer.number (.frac ⟨4611686018427387904, -3⟩) := by
    rw [Number.integerOp_div_of_not_dvd (by decide) (by decide), Number.ratio_of_pos (by decide),
      hgcd]
    rfl
  refine ⟨by decide +kernel, hfound, ?_⟩
  rintro ⟨z, hz, hdenotes⟩
  cases hfound.symm.trans hz
  exact absurd hdenotes.den_pos (by decide)

end Reckon
