import Reckon.Eval.Arith
import Reckon.Proofs.Exact

/-!
Integers and fractions are calculated with exactly, as long as the integers that arise on the way
are words. Main statement: `exact_arithmetic`.
-/

namespace Reckon

namespace Word

/-- The integers that are words and have an opposite that is one. -/
def InRange (z : Int) : Prop := -2 ^ 63 < z ∧ z < 2 ^ 63

instance (z : Int) : Decidable (InRange z) := inferInstanceAs (Decidable (_ ∧ _))

theorem InRange.neg {z : Int} (h : InRange z) : InRange (-z) := by
  unfold InRange at *
  omega

theorem inRange_toInt {a : Int64} (h : a ≠ Int64.minValue) : InRange a.toInt := by
  have hne : a.toInt ≠ -2 ^ 63 := fun he => h (Int64.toInt_inj.mp (by simpa using he))
  have := Int64.le_toInt a
  have := Int64.toInt_lt a
  unfold InRange
  omega

theorem toInt_ofInt {z : Int} (h : InRange z) : (Int64.ofInt z).toInt = z :=
  Int64.toInt_ofInt_of_le (Int.le_of_lt h.1) h.2

theorem ofInt_ne_minValue {z : Int} (h : InRange z) : Int64.ofInt z ≠ Int64.minValue := by
  intro he
  have hz := toInt_ofInt h
  rw [he, Int64.toInt_minValue] at hz
  exact absurd h.1 (by omega)

theorem ofInt_eq_zero_iff {z : Int} (h : InRange z) : Int64.ofInt z = 0 ↔ z = 0 := by
  rw [← Int64.toInt_inj, toInt_ofInt h]
  rfl

theorem neg_eq_ofInt (a : Int64) : -a = Int64.ofInt (-a.toInt) := by
  rw [Int64.ofInt_neg, Int64.ofInt_toInt]

theorem toInt_neg {a : Int64} (h : a ≠ Int64.minValue) : (-a).toInt = -a.toInt := by
  rw [neg_eq_ofInt, toInt_ofInt (inRange_toInt h).neg]

theorem neg_ne_minValue {a : Int64} (h : a ≠ Int64.minValue) : -a ≠ Int64.minValue := by
  rw [neg_eq_ofInt]
  exact ofInt_ne_minValue (inRange_toInt h).neg

/-- Repeated squaring gives the power, wrapped like every product. -/
theorem power_ofInt (z : Int) (e : Nat) : power (Int64.ofInt z) e = Int64.ofInt (z ^ e) := by
  induction e using Nat.strongRecOn generalizing z with
  | ind e ih =>
    rw [power]
    split
    · next he => simp [he]
    · next he =>
      have hsquare : power (Int64.ofInt z * Int64.ofInt z) (e / 2) =
          Int64.ofInt ((z * z) ^ (e / 2)) := by
        rw [← Int64.ofInt_mul]
        exact ih (e / 2) (Nat.div_lt_self (by omega) (by omega)) (z * z)
      have hdouble : (z * z) ^ (e / 2) = z ^ (2 * (e / 2)) := by rw [← pow_two, ← pow_mul]
      split
      · next hodd =>
        have hhalf : e = 2 * (e / 2) + 1 := by omega
        rw [hsquare, ← Int64.ofInt_mul, hdouble, ← pow_succ', ← hhalf]
      · next heven =>
        have hhalf : 2 * (e / 2) = e := by omega
        rw [hsquare, hdouble, hhalf]

theorem pow_eq_ofInt (b e : Int64) : pow b e = Int64.ofInt (b.toInt ^ e.toInt.toNat) := by
  rw [← power_ofInt, Int64.ofInt_toInt]
  rfl

theorem dvd_euclid {k : Int} {a b : Int64} (ha : k ∣ a.toInt) (hb : k ∣ b.toInt) :
    k ∣ (euclid a b).toInt := by
  fun_induction euclid a b with
  | case1 a => exact ha
  | case2 a b _ ih =>
    refine ih hb ?_
    rw [Int64.toInt_mod, Int.tmod_def]
    exact Int.dvd_sub ha (Dvd.dvd.mul_right hb _)

/-- Euclid's algorithm gives the greatest common divisor up to its sign. -/
theorem natAbs_gcd (a b : Int64) : (gcd a b).toInt.natAbs = Int.gcd a.toInt b.toInt := by
  apply Nat.dvd_antisymm
  · rw [← Int.natAbs_natCast (Int.gcd a.toInt b.toInt)]
    exact Int.natAbs_dvd_natAbs.mpr (Int.dvd_coe_gcd (gcd_dvd_left a b) (gcd_dvd_right a b))
  · have hmagnitude : ∀ {c : Int64}, (Int.gcd a.toInt b.toInt : Int) ∣ c.toInt →
        (Int.gcd a.toInt b.toInt : Int) ∣ (magnitude c).toInt := by
      intro c hc
      rwa [← Int.dvd_natAbs, natAbs_magnitude, Int.dvd_natAbs]
    have hdvd := dvd_euclid (hmagnitude (Int.gcd_dvd_left ..)) (hmagnitude (Int.gcd_dvd_right ..))
    exact Int.natCast_dvd.mp hdvd

theorem toInt_gcd {a b : Int64} (h : 0 < (gcd a b).toInt) :
    (gcd a b).toInt = Int.gcd a.toInt b.toInt := by
  have := natAbs_gcd a b
  omega

theorem gcd_pos {a b : Int64} (ha : a ≠ Int64.minValue) (hb : b ≠ Int64.minValue) (h0 : b ≠ 0) :
    0 < (gcd a b).toInt := by
  have hnonneg : 0 ≤ (gcd a b).toInt :=
    Int64.le_iff_toInt_le.mp (euclid_nonneg (magnitude_nonneg ha) (magnitude_nonneg hb))
  have hpos : 0 < (gcd a b).toInt.natAbs := by
    rw [natAbs_gcd]
    exact Int.gcd_pos_of_ne_zero_right _ fun he => h0 (Int64.toInt_inj.mp he)
  omega

/-- An exact quotient by a positive word does not wrap. -/
theorem toInt_div_of_dvd {a g : Int64} (hg : 0 < g.toInt) (h : g.toInt ∣ a.toInt) :
    (a / g).toInt = a.toInt / g.toInt := by
  have hne : g ≠ -1 := by
    rintro rfl
    exact absurd hg (by decide)
  rw [Int64.toInt_div_of_ne_right a g hne, Int.tdiv_eq_ediv_of_dvd h]

/-- The remainder toward the floor is the one toward zero, moved to the divisor's sign. -/
theorem fmod_eq_ite (a : Int) {b : Int} (hb : b ≠ 0) :
    a.fmod b = if a.tmod b ≠ 0 ∧ decide (a.tmod b < 0) ≠ decide (b < 0) then a.tmod b + b
      else a.tmod b := by
  have hnonneg := Int.emod_nonneg a hb
  have hlt := Int.emod_lt_abs a hb
  rw [Int.abs_eq_natAbs] at hlt
  rw [Int.fmod_eq_emod, Int.tmod_eq_emod]
  simp only [Int.dvd_iff_emod_eq_zero, ne_eq, decide_eq_decide]
  generalize a % b = r at *
  split_ifs <;> omega

theorem InRange.fmod {b : Int} (h : InRange b) (hb : b ≠ 0) (a : Int) : InRange (a.fmod b) := by
  have hnonneg := Int.emod_nonneg a hb
  have hlt := Int.emod_lt_abs a hb
  rw [Int.abs_eq_natAbs] at hlt
  rw [Int.fmod_eq_emod]
  unfold InRange at *
  split <;> omega

theorem floorMod_eq {a b : Int64} (hb : b ≠ 0) :
    floorMod a b = .ok (Int64.ofInt (a.toInt.fmod b.toInt)) := by
  have hbi : b.toInt ≠ 0 := fun he => hb (Int64.toInt_inj.mp he)
  have hzero : a % b = 0 ↔ a.toInt.tmod b.toInt = 0 := by
    rw [← Int64.toInt_inj, Int64.toInt_mod]
    rfl
  have hsign : ∀ c : Int64, c < 0 ↔ c.toInt < 0 := fun c => Int64.lt_iff_toInt_lt
  have hrem : a % b = Int64.ofInt (a.toInt.tmod b.toInt) := by
    rw [← Int64.toInt_mod, Int64.ofInt_toInt]
  rw [floorMod, if_neg hb, fmod_eq_ite _ hbi]
  simp only [ne_eq, hzero, hsign, Int64.toInt_mod]
  split
  · rw [Int64.ofInt_add, ← hrem, Int64.ofInt_toInt]
  · rw [hrem]

end Word

/-- The exact result of an operation on rationals, where there is one. A modulus has the sign of its
divisor; exponents are integers. -/
def Op.exact? (op : Op) (a b : ℚ) : Option ℚ :=
  match op with
  | .add => some (a + b)
  | .sub => some (a - b)
  | .mul => some (a * b)
  | .div => if b = 0 then .none else some (a / b)
  | .mod => if b = 0 then .none else some (a - b * ⌊a / b⌋)
  | .pow => if b.den = 1 ∧ ¬(a = 0 ∧ b < 0) then some (a ^ b.num) else .none
  | .none | .fact => .none

/-- The integers that arise when an operation is applied to the quotients `n / d` and `m / k`: those
that a modulus divides, and the numerator and denominator that are brought to lowest terms. -/
def Op.arising (op : Op) (n d m k : Int) : List Int :=
  match op with
  | .add => [n * k + m * d, d * k]
  | .sub => [n * k - m * d, d * k]
  | .mul => [n * m, d * k]
  | .div => [n * k, d * m]
  | .mod => [n * k, m * d, d * k]
  | .pow => if 0 ≤ m then [n ^ m.toNat, d ^ m.toNat] else [d ^ (-m).toNat, n ^ (-m).toNat]
  | .none | .fact => []

theorem floor_div (n m : Int) : ⌊(n : ℚ) / m⌋ = n.fdiv m := by
  rcases Int.natAbs_eq m with h | h
  · rw [h, Int.cast_natCast, Rat.floor_intCast_div_natCast,
      Int.fdiv_eq_ediv_of_nonneg _ (by omega)]
  · have hneg : (n : ℚ) / m = ((-n : Int) : ℚ) / (m.natAbs : ℚ) := by
      rw [h]
      simp [div_neg, neg_div]
    rw [hneg, Rat.floor_intCast_div_natCast, ← Int.fdiv_eq_ediv_of_nonneg _ (by omega),
      ← Int.neg_fdiv_neg, neg_neg, ← h]

/-- The modulus of two quotients is that of their numerators over one denominator. -/
theorem modulus_div {n d m k : Int} (hd : d ≠ 0) (hk : k ≠ 0) (hm : m ≠ 0) :
    (n / d : ℚ) - m / k * ⌊(n / d : ℚ) / (m / k)⌋ = (n * k).fmod (m * d) / (d * k) := by
  have hdq : (d : ℚ) ≠ 0 := Int.cast_ne_zero.mpr hd
  have hkq : (k : ℚ) ≠ 0 := Int.cast_ne_zero.mpr hk
  have hmq : (m : ℚ) ≠ 0 := Int.cast_ne_zero.mpr hm
  have hquot : (n / d : ℚ) / (m / k) = ((n * k : Int) : ℚ) / ((m * d : Int) : ℚ) := by
    push_cast
    field_simp
  rw [hquot, floor_div, Int.fmod_def]
  push_cast
  field_simp

namespace Number

/-- The numerator of an exact number. -/
def num : Number → Int64
  | .int n => n
  | .frac f => f.num
  | .real _ => 0

/-- The denominator of an exact number. -/
def den : Number → Int64
  | .frac f => f.den
  | _ => 1

/-- The number is the canonical form of a rational: an integer, or else a fraction in lowest terms
with a denominator above 1. -/
inductive Denotes : Number → ℚ → Prop
  | int {n : Int64} {q : ℚ} : q = n.toInt → Denotes (.int n) q
  | frac {f : Fraction} {q : ℚ} : 1 < f.den → Int.gcd f.num.toInt f.den.toInt = 1 →
      q = f.num.toInt / f.den.toInt → Denotes (.frac f) q

section

variable {x y : Number} {q : ℚ} (h : x.Denotes q)
include h

theorem Denotes.den_pos : 0 < x.den.toInt := by
  cases h with
  | int _ => exact Int.one_pos
  | frac hd _ _ => exact Int.lt_trans (by decide) (Int64.lt_iff_toInt_lt.mp hd)

theorem Denotes.coprime : x.num.toInt.natAbs.Coprime x.den.toInt.natAbs := by
  cases h with
  | int _ => exact Nat.coprime_one_right _
  | frac _ hg _ => exact hg

theorem Denotes.eq_div : q = x.num.toInt / x.den.toInt := by
  cases h with
  | int hq => simp [num, den, hq]
  | frac _ _ hq => exact hq

theorem Denotes.num_eq : q.num = x.num.toInt := by
  rw [h.eq_div, Rat.num_div_eq_of_coprime h.den_pos h.coprime]

theorem Denotes.den_eq : (q.den : Int) = x.den.toInt := by
  rw [h.eq_div, Rat.den_div_eq_of_coprime h.den_pos h.coprime]

/-- An exact number is made of its numerator and its denominator. -/
theorem Denotes.eq_parts : x = if x.den = 1 then .int x.num else .frac ⟨x.num, x.den⟩ := by
  cases h with
  | int _ => rfl
  | frac hd _ _ => exact (if_neg (Int64.ne_of_lt hd).symm).symm

/-- A rational has one canonical form. -/
theorem Denotes.unique (hy : y.Denotes q) : x = y := by
  have hnum : x.num = y.num := Int64.toInt_inj.mp (h.num_eq.symm.trans hy.num_eq)
  have hden : x.den = y.den := Int64.toInt_inj.mp (h.den_eq.symm.trans hy.den_eq)
  rw [h.eq_parts, hy.eq_parts, hnum, hden]

end

/-- Cancelling a positive greatest common divisor gives the canonical form. -/
theorem reduced_denotes {n d : Int64} (hd : 0 < d.toInt) (hg : 0 < (Word.gcd n d).toInt) :
    ∃ z : Number, (if d / Word.gcd n d = 1 then Except.ok (.int (n / Word.gcd n d))
      else .ok (.frac ⟨n / Word.gcd n d, d / Word.gcd n d⟩)) = (.ok z : Except Cause Number) ∧
      z.Denotes (n.toInt / d.toInt) := by
  have hgcd := Word.toInt_gcd hg
  have hnum := Word.toInt_div_of_dvd hg (Word.gcd_dvd_left n d)
  have hden := Word.toInt_div_of_dvd hg (Word.gcd_dvd_right n d)
  generalize Word.gcd n d = g at *
  have hndvd : g.toInt ∣ n.toInt := hgcd ▸ Int.gcd_dvd_left ..
  have hddvd : g.toInt ∣ d.toInt := hgcd ▸ Int.gcd_dvd_right ..
  have hquot : (n.toInt / d.toInt : ℚ) = ((n / g).toInt : ℚ) / ((d / g).toInt : ℚ) := by
    have hgq : (g.toInt : ℚ) ≠ 0 := by exact_mod_cast hg.ne'
    rw [hnum, hden, Int.cast_div hndvd hgq, Int.cast_div hddvd hgq,
      div_div_div_cancel_right₀ hgq]
  rw [hquot]
  split
  · next hone =>
    refine ⟨_, rfl, ?_⟩
    exact .int (by simp [hone])
  · next hone =>
    refine ⟨_, rfl, .frac ?_ ?_ rfl⟩
    · have hpos : 0 < (d / g).toInt := by
        rw [hden]
        exact Int.ediv_pos_of_pos_of_dvd hd hg.le hddvd
      have hne : (d / g).toInt ≠ 1 := fun he => hone (Int64.toInt_inj.mp he)
      rw [Int64.lt_iff_toInt_lt]
      exact lt_of_le_of_ne hpos hne.symm
    · rw [hnum, hden, hgcd]
      exact Int.gcd_div_gcd_div_gcd (by omega)

/-- A quotient is brought to lowest terms, with the sign in the numerator. -/
theorem ratio_denotes {n d : Int64} (hn : n ≠ Int64.minValue) (hd : d ≠ Int64.minValue)
    (h0 : d ≠ 0) : ∃ z, ratio n d = .ok z ∧ z.Denotes (n.toInt / d.toInt) := by
  unfold ratio
  rw [if_neg h0]
  by_cases hneg : d < 0
  · simp only [hneg, ↓reduceIte]
    have hpos : 0 < (-d).toInt := by
      rw [Word.toInt_neg hd]
      exact Int.neg_pos_of_neg (Int64.lt_iff_toInt_lt.mp hneg)
    obtain ⟨z, hz, hq⟩ := reduced_denotes hpos
      (Word.gcd_pos (Word.neg_ne_minValue hn) (Word.neg_ne_minValue hd) (Int64.neg_ne_zero.mpr h0))
    refine ⟨z, hz, ?_⟩
    rw [Word.toInt_neg hn, Word.toInt_neg hd] at hq
    simpa [neg_div_neg_eq] using hq
  · simp only [hneg, ↓reduceIte]
    have hpos : 0 < d.toInt := by
      have hle := Int64.le_iff_toInt_le.mp (Int64.not_lt.mp hneg)
      have hne : d.toInt ≠ 0 := fun he => h0 (Int64.toInt_inj.mp he)
      simp at hle
      omega
    exact reduced_denotes hpos (Word.gcd_pos hn hd h0)

/-- What is found is the canonical form of a rational. -/
def Gives (x : Except Cause Number) (q : ℚ) : Prop := ∃ z, x = .ok z ∧ z.Denotes q

theorem Gives.answer {x : Except Cause Number} {q : ℚ} (h : Gives x q) :
    ∃ z : Number, (.ok x : Answer) = Answer.number z ∧ z.Denotes q := by
  obtain ⟨z, rfl, hz⟩ := h
  exact ⟨z, rfl, hz⟩

/-- The parts of a quotient may be calculated in words, if they are in range. -/
theorem ratio_gives {a b : Int64} {n d : Int} {q : ℚ} (ha : a = .ofInt n) (hb : b = .ofInt d)
    (hn : Word.InRange n) (hd : Word.InRange d) (h0 : d ≠ 0) (hq : q = n / d) :
    Gives (ratio a b) q := by
  subst ha hb hq
  have hne : Int64.ofInt d ≠ 0 := mt (Word.ofInt_eq_zero_iff hd).mp h0
  have hratio := ratio_denotes (Word.ofInt_ne_minValue hn) (Word.ofInt_ne_minValue hd) hne
  rwa [Word.toInt_ofInt hn, Word.toInt_ofInt hd] at hratio

section

variable {n d m k : Int64} {q : ℚ} (hd : 0 < d.toInt) (hm : m ≠ Int64.minValue)
include hd hm

theorem integerPower_gives (hq : Op.exact? .pow (n.toInt / d.toInt) m.toInt = some q)
    (hin : ∀ z ∈ Op.arising .pow n.toInt d.toInt m.toInt 1, Word.InRange z) :
    Gives (integerPower n d m) q := by
  have hdz : d.toInt ≠ 0 := hd.ne'
  have hdq : (d.toInt : ℚ) ≠ 0 := Int.cast_ne_zero.mpr hdz
  obtain ⟨hdef, hq⟩ := (Option.ite_none_right_eq_some ..).mp hq
  cases hq
  by_cases hpos : 0 ≤ m.toInt
  · simp only [Op.arising, hpos, ↓reduceIte, List.forall_mem_cons] at hin
    have hword : 0 ≤ m := Int64.le_iff_toInt_le.mpr hpos
    rw [integerPower, if_pos hword]
    refine ratio_gives (Word.pow_eq_ofInt n m) (Word.pow_eq_ofInt d m) hin.1 hin.2.1
      (pow_ne_zero _ hdz) ?_
    have hnat : ((m.toInt.toNat : Int)) = m.toInt := Int.toNat_of_nonneg hpos
    rw [Rat.num_intCast, ← hnat, zpow_natCast, div_pow]
    push_cast
    rfl
  · simp only [Op.arising, hpos, ↓reduceIte, List.forall_mem_cons] at hin
    have hword : ¬0 ≤ m := mt Int64.le_iff_toInt_le.mp hpos
    have hneg : (m.toInt : ℚ) < 0 := by exact_mod_cast not_le.mp hpos
    have hnz : n.toInt ≠ 0 := by
      intro he
      exact hdef.2 ⟨by simp [he], hneg⟩
    have hn0 : n ≠ 0 := by
      rintro rfl
      exact hnz rfl
    have hexp : (-m).toInt = -m.toInt := Word.toInt_neg hm
    rw [integerPower, if_neg hword, if_neg hn0]
    refine ratio_gives (Word.pow_eq_ofInt d (-m)) (Word.pow_eq_ofInt n (-m)) (hexp ▸ hin.1)
      (hexp ▸ hin.2.1) (pow_ne_zero _ hnz) ?_
    have hnat : (((-m).toInt.toNat : Int)) = -m.toInt := by
      rw [hexp]
      exact Int.toNat_of_nonneg (by omega)
    rw [Rat.num_intCast, ← neg_neg m.toInt, ← hnat, zpow_neg, zpow_natCast, div_pow, inv_div]
    push_cast
    rfl

/-- An operation on quotients is exact if all that arises from them is in range. -/
theorem rationalOp_gives (hk : 0 < k.toInt) {op : Op} (hpow : op = .pow → k = 1)
    (hq : op.exact? (n.toInt / d.toInt) (m.toInt / k.toInt) = some q)
    (hin : ∀ z ∈ op.arising n.toInt d.toInt m.toInt k.toInt, Word.InRange z) :
    ∃ z, rationalOp op n d m k = Answer.number z ∧ z.Denotes q := by
  have hdz : d.toInt ≠ 0 := hd.ne'
  have hkz : k.toInt ≠ 0 := hk.ne'
  have hdq : (d.toInt : ℚ) ≠ 0 := Int.cast_ne_zero.mpr hdz
  have hkq : (k.toInt : ℚ) ≠ 0 := Int.cast_ne_zero.mpr hkz
  have hden : d * k = .ofInt (d.toInt * k.toInt) := by simp
  have hdk : d.toInt * k.toInt ≠ 0 := mul_ne_zero hdz hkz
  cases op with
  | none | fact => cases hq
  | add | sub | mul =>
    cases hq
    simp only [Op.arising, List.forall_mem_cons] at hin
    refine (ratio_gives ?_ hden hin.1 hin.2.1 hdk ?_).answer
    · simp
    · push_cast
      field_simp
  | div =>
    obtain ⟨hb, hq⟩ := (Option.ite_none_left_eq_some ..).mp hq
    cases hq
    have hmz : m.toInt ≠ 0 := fun he => hb (by simp [he])
    have hm0 : m ≠ 0 := fun he => hmz (by simp [he])
    have hmq : (m.toInt : ℚ) ≠ 0 := Int.cast_ne_zero.mpr hmz
    simp only [Op.arising, List.forall_mem_cons] at hin
    rw [rationalOp, if_neg hm0]
    refine (ratio_gives ?_ ?_ hin.1 hin.2.1 (mul_ne_zero hdz hmz) ?_).answer
    · simp
    · simp
    · push_cast
      field_simp
  | mod =>
    obtain ⟨hb, hq⟩ := (Option.ite_none_left_eq_some ..).mp hq
    cases hq
    have hmz : m.toInt ≠ 0 := fun he => hb (by simp [he])
    have hm0 : m ≠ 0 := fun he => hmz (by simp [he])
    have hmq : (m.toInt : ℚ) ≠ 0 := Int.cast_ne_zero.mpr hmz
    simp only [Op.arising, List.forall_mem_cons] at hin
    have hleft : n * k = .ofInt (n.toInt * k.toInt) := by simp
    have hright : m * d = .ofInt (m.toInt * d.toInt) := by simp
    have hmd : m.toInt * d.toInt ≠ 0 := mul_ne_zero hmz hdz
    have hright0 : m * d ≠ 0 := hright ▸ mt (Word.ofInt_eq_zero_iff hin.2.1).mp hmd
    rw [rationalOp, if_neg hm0, Word.floorMod_eq hright0, ok_bind]
    rw [hleft, hright, Word.toInt_ofInt hin.1, Word.toInt_ofInt hin.2.1]
    refine (ratio_gives rfl hden (hin.2.1.fmod hmd _) hin.2.2.1 hdk ?_).answer
    rw [modulus_div hdz hkz hmz]
    push_cast
    rfl
  | pow =>
    cases hpow rfl
    refine (integerPower_gives hd hm ?_ hin).answer
    simpa using hq

end

theorem int_denotes {a : Int64} {n : Int} {q : ℚ} (ha : a = .ofInt n) (hn : Word.InRange n)
    (hq : q = n) : (int a).Denotes q :=
  .int (by rw [hq, ha, Word.toInt_ofInt hn])

/-- An operation on integers is exact if all that arises from them is in range. -/
theorem integerOp_gives {a b : Int64} (ha : a ≠ Int64.minValue) (hb : b ≠ Int64.minValue) {op : Op}
    {q : ℚ} (hq : op.exact? a.toInt b.toInt = some q)
    (hin : ∀ z ∈ op.arising a.toInt 1 b.toInt 1, Word.InRange z) :
    ∃ z, integerOp op a b = Answer.number z ∧ z.Denotes q := by
  cases op with
  | none | fact => cases hq
  | add | sub | mul =>
    cases hq
    simp only [Op.arising, List.forall_mem_cons, mul_one] at hin
    exact ⟨_, rfl, int_denotes (by simp) hin.1 (by push_cast; rfl)⟩
  | div =>
    obtain ⟨hbq, hq⟩ := (Option.ite_none_left_eq_some ..).mp hq
    cases hq
    have hb0 : b ≠ 0 := fun he => hbq (by simp [he])
    rw [integerOp, if_neg hb0]
    split
    · next hrem =>
      refine ⟨_, rfl, .int ?_⟩
      have hdvd : b.toInt ∣ a.toInt := by
        apply Int.dvd_of_tmod_eq_zero
        rw [← Int64.toInt_mod, hrem]
        rfl
      rw [Int64.toInt_div_of_ne_left a b ha, Int.tdiv_eq_ediv_of_dvd hdvd, Int.cast_div hdvd hbq]
    · exact Gives.answer (ratio_denotes ha hb hb0)
  | mod =>
    obtain ⟨hbq, hq⟩ := (Option.ite_none_left_eq_some ..).mp hq
    cases hq
    have hb0 : b ≠ 0 := fun he => hbq (by simp [he])
    have hbz : b.toInt ≠ 0 := fun he => hbq (by simp [he])
    rw [integerOp, if_neg hb0, Word.floorMod_eq hb0, ok_bind]
    refine ⟨_, rfl, int_denotes rfl ((Word.inRange_toInt hb).fmod hbz _) ?_⟩
    rw [floor_div, Int.fmod_def]
    push_cast
    rfl
  | pow =>
    have hone : 0 < (1 : Int64).toInt := Int.one_pos
    refine (integerPower_gives hone hb ?_ hin).answer
    simpa using hq

/-- An operation on exact numbers is exact if all that arises from them is in range. -/
theorem combine_gives (p : Precision) {op : Op} {x y : Number} {a b q : ℚ} (hx : x.Denotes a)
    (hy : y.Denotes b) (hxm : x.num ≠ Int64.minValue) (hym : y.num ≠ Int64.minValue)
    (hq : op.exact? a b = some q)
    (hin : ∀ z ∈ op.arising x.num.toInt x.den.toInt y.num.toInt y.den.toInt, Word.InRange z) :
    ∃ z, x.combine p op y = Answer.number z ∧ z.Denotes q := by
  have hpow : op = .pow → y.den = 1 := by
    rintro rfl
    obtain ⟨⟨hone, -⟩, -⟩ := (Option.ite_none_right_eq_some ..).mp hq
    apply Int64.toInt_inj.mp
    rw [← hy.den_eq, hone]
    rfl
  rw [hx.eq_div, hy.eq_div] at hq
  have hrational := rationalOp_gives hx.den_pos hym hy.den_pos hpow hq hin
  cases hx with
  | int _ =>
    cases hy with
    | int _ => exact integerOp_gives hxm hym (by simpa [num, den] using hq) hin
    | frac _ _ _ => exact hrational
  | frac _ _ _ =>
    cases hy with
    | int _ => exact hrational
    | frac _ _ _ => exact hrational

end Number

/-- Words are ordered like the integers that they stand for. -/
theorem Word.compare_ofInt {a b : Int64} {n m : Int} (ha : a = .ofInt n) (hb : b = .ofInt m)
    (hn : Word.InRange n) (hm : Word.InRange m) :
    Word.compare a b = SignType.sign (n - m) := by
  subst ha hb
  simp only [Word.compare, Int64.lt_iff_toInt_lt, Word.toInt_ofInt hn, Word.toInt_ofInt hm]
  rcases lt_trichotomy n m with h | h | h
  · rw [if_pos h, sign_neg (sub_neg.mpr h)]
    rfl
  · rw [if_neg (by omega), if_neg (by omega), h, sub_self, sign_zero]
    rfl
  · rw [if_neg (by omega), if_pos h, sign_pos (sub_pos.mpr h)]
    rfl

/-- The order of a fraction and an exact number, found from the products across, is the sign of
their difference. -/
theorem Fraction.compare_eq_sign {f : Fraction} {y : Number} {a b : ℚ}
    (hf : (Number.frac f).Denotes a) (hy : y.Denotes b)
    (hleft : Word.InRange (f.num.toInt * y.den.toInt))
    (hright : Word.InRange (y.num.toInt * f.den.toInt)) :
    f.compare y = SignType.sign (a - b) := by
  have hcompare : f.compare y = Word.compare (f.num * y.den) (y.num * f.den) := by
    cases hy with
    | int _ => simp [compare, Number.num, Number.den]
    | frac _ _ _ => rfl
  have hd : (0 : ℚ) < f.den.toInt := Int.cast_pos.mpr hf.den_pos
  have hk : (0 : ℚ) < y.den.toInt := Int.cast_pos.mpr hy.den_pos
  have hdiff : a - b = ((f.num.toInt * y.den.toInt - y.num.toInt * f.den.toInt : Int) : ℚ) *
      ((f.den.toInt : ℚ) * y.den.toInt)⁻¹ := by
    rw [hf.eq_div, hy.eq_div]
    push_cast
    change (f.num.toInt : ℚ) / f.den.toInt - _ = _
    field_simp
  rw [hcompare, Word.compare_ofInt (by simp) (by simp) hleft hright, hdiff, sign_mul,
    sign_pos (inv_pos.mpr (mul_pos hd hk)), mul_one, sign_intCast]

/-- As long as all that arises is in range, an operation on exact numbers that have opposites gives
the canonical form of the exact result, and a fraction compares as its difference says. -/
theorem exact_arithmetic {x y : Number} {a b : ℚ} (hx : x.Denotes a) (hy : y.Denotes b)
    (hxm : x.num ≠ Int64.minValue) (hym : y.num ≠ Int64.minValue) :
    (∀ p op q, op.exact? a b = some q →
      (∀ z ∈ op.arising x.num.toInt x.den.toInt y.num.toInt y.den.toInt, Word.InRange z) →
      ∃ z, Value.arith p op (.number x) (.number y) = .ok (.ok (.number z)) ∧ z.Denotes q) ∧
    (∀ f, x = .frac f → Word.InRange (f.num.toInt * y.den.toInt) →
      Word.InRange (y.num.toInt * f.den.toInt) → f.compare y = SignType.sign (a - b)) := by
  constructor
  · intro p op q hq hin
    obtain ⟨z, hz, hzq⟩ := Number.combine_gives p hx hy hxm hym hq hin
    refine ⟨z, ?_, hzq⟩
    simp only [Value.arith, Value.broadcast, Value.scalarOp, hz]
    rfl
  · rintro f rfl hleft hright
    exact Fraction.compare_eq_sign hx hy hleft hright

theorem exact_modulus_of_fractions :
    let x : Number := .frac ⟨7, 4⟩
    let y : Number := .frac ⟨-2, 3⟩
    x.Denotes (7 / 4) ∧ y.Denotes (-2 / 3) ∧ x.num ≠ Int64.minValue ∧ y.num ≠ Int64.minValue ∧
      Op.exact? .mod (7 / 4) (-2 / 3) = some (-1 / 4) ∧
      (∀ z ∈ Op.arising .mod x.num.toInt x.den.toInt y.num.toInt y.den.toInt, Word.InRange z) ∧
      (∃ z, Value.arith 64 .mod (.number x) (.number y) = .ok (.ok (.number z)) ∧
        z.Denotes (-1 / 4)) ∧
      Fraction.compare ⟨7, 4⟩ y = SignType.sign (7 / 4 - -2 / 3 : ℚ) := by
  intro x y
  have hx : x.Denotes (7 / 4) := .frac (by decide) (by decide) rfl
  have hy : y.Denotes (-2 / 3) := .frac (by decide) (by decide) rfl
  have hxm : x.num ≠ Int64.minValue := by decide
  have hym : y.num ≠ Int64.minValue := by decide
  have hq : Op.exact? .mod (7 / 4) (-2 / 3) = some (-1 / 4) := by decide +kernel
  have hin : ∀ z ∈ Op.arising .mod x.num.toInt x.den.toInt y.num.toInt y.den.toInt,
      Word.InRange z := by decide
  have hexact := exact_arithmetic hx hy hxm hym
  exact ⟨hx, hy, hxm, hym, hq, hin, hexact.1 64 .mod _ hq hin,
    hexact.2 _ rfl (by decide) (by decide)⟩

end Reckon
