import Reckon.Proofs.Roots

/-!
Powers with a fractional exponent. They are exact exactly where the base is a power of the order of
the root, if the guess at a root comes near it; `Number.fractionalPower` takes `Word.rootGuess` for
the guess. Main statement: `fractional_power_exact`.
-/

namespace Reckon

namespace Number

theorem ratio_ne_real (n d : Int64) (x : Float) : ratio n d ≠ .ok (.real x) := by
  intro h
  unfold ratio at h
  split at h
  · cases h
  · generalize (if d < 0 then (-n, -d) else (n, d)) = p at h
    dsimp only at h
    split at h
    · cases h
    · cases h

/-- An integer power of a fraction is no real. -/
theorem integerPower_ne_real (n d k : Int64) (x : Float) : integerPower n d k ≠ .ok (.real x) := by
  unfold integerPower
  split
  · exact ratio_ne_real _ _ x
  · split
    · exact fun h => nomatch h
    · exact ratio_ne_real _ _ x

end Number

namespace Word

section

variable {n d p q : Int64}

/-- Roots of both parts give a root of the fraction. -/
theorem IsRoot.quotient {r s : Int64} (hr : IsRoot r n q) (hs : IsRoot s d q) :
    (r.toInt / s.toInt : ℚ) ^ q.toInt.toNat = n.toInt / d.toInt := by
  rw [div_pow, ← hr.2, ← hs.2]
  push_cast
  rfl

/-- A positive root of a fraction in lowest terms has roots of both parts as its parts. -/
theorem exists_roots_of_pow (hd : 0 < d.toInt) (hcoprime : Int.gcd n.toInt d.toInt = 1)
    (hq : 1 ≤ q.toInt) {x : ℚ} (hx : 0 < x) (hpow : x ^ q.toInt.toNat = n.toInt / d.toInt) :
    ∃ r s, IsRoot r n q ∧ IsRoot s d q ∧ r.toInt = x.num ∧ s.toInt = x.den := by
  have hnum : x.num ^ q.toInt.toNat = n.toInt := by
    rw [← Rat.num_pow, hpow, Rat.num_div_eq_of_coprime hd hcoprime]
  have hden : (x.den : Int) ^ q.toInt.toNat = d.toInt := by
    rw [← Nat.cast_pow, ← Rat.den_pow, hpow, Rat.den_div_eq_of_coprime hd hcoprime]
  obtain ⟨hr, hrnum⟩ := isRoot_ofInt (Rat.num_pos.mpr hx) hq hnum
  obtain ⟨hs, hsden⟩ := isRoot_ofInt (Int.natCast_pos.mpr x.den_pos) hq hden
  exact ⟨_, _, hr, hs, hrnum, hsden⟩

/-- A fraction in lowest terms has a root exactly if both of its parts have one. -/
theorem exists_pow_eq_iff (hn : 0 < n.toInt) (hd : 0 < d.toInt)
    (hcoprime : Int.gcd n.toInt d.toInt = 1) (hq : 1 ≤ q.toInt) :
    (∃ x : ℚ, x ^ q.toInt.toNat = n.toInt / d.toInt) ↔ ∃ r s, IsRoot r n q ∧ IsRoot s d q := by
  constructor
  · rintro ⟨x, hpow⟩
    have hpos : 0 < (n.toInt : ℚ) / d.toInt := div_pos (Int.cast_pos.mpr hn) (Int.cast_pos.mpr hd)
    have hx : x ≠ 0 := by
      rintro rfl
      rw [zero_pow (by omega)] at hpow
      exact hpos.ne hpow
    -- Of an even order there is a negative root too.
    have habs : |x| ^ q.toInt.toNat = n.toInt / d.toInt := by
      rw [← abs_pow, hpow, abs_of_pos hpos]
    obtain ⟨r, s, hr, hs, -⟩ := exists_roots_of_pow hd hcoprime hq (abs_pos.mpr hx) habs
    exact ⟨r, s, hr, hs⟩
  · rintro ⟨r, s, hr, hs⟩
    exact ⟨_, hr.quotient hs⟩

/-- The exponent of a power that is a word is not the least word, unless the base is 1. -/
theorem eq_one_of_pow_least {z : Int} (hz : 0 < z)
    (h : z ^ Int64.minValue.toInt.natAbs < 2 ^ 63) : z = 1 := by
  by_contra hne
  have hlarge : (2 : Int) ^ Int64.minValue.toInt.natAbs ≤ z ^ Int64.minValue.toInt.natAbs :=
    pow_le_pow_left₀ (by omega) (by omega) _
  have hexp : (Int64.minValue.toInt.natAbs : Int) < 2 ^ Int64.minValue.toInt.natAbs := by
    exact_mod_cast Nat.lt_two_pow_self
  have hleast : (Int64.minValue.toInt.natAbs : Int) = 2 ^ 63 := by decide
  omega

end

end Word

namespace Number

section

variable {r s p : Int64} {x : ℚ} (hx : 0 < x) (hr : r.toInt = x.num) (hs : s.toInt = x.den)
include hx hr hs

/-- The power of a positive fraction is exact if its parts are words. -/
theorem integerPower_of_bounded (hnum : (x ^ p.toInt.natAbs).num < 2 ^ 63)
    (hden : (x ^ p.toInt.natAbs).den < 2 ^ 63) : Gives (integerPower r s p) (x ^ p.toInt) := by
  have hspos : 0 < s.toInt := by
    rw [hs]
    exact Int.natCast_pos.mpr x.den_pos
  have hrpos : 0 < r.toInt := by
    rw [hr]
    exact Rat.num_pos.mpr hx
  rw [Rat.num_pow, ← hr] at hnum
  rw [Rat.den_pow] at hden
  zify at hden
  rw [← hs] at hden
  have hquot : (r.toInt / s.toInt : ℚ) = x := by
    rw [hr, hs, Int.cast_natCast, Rat.num_div_den]
  by_cases hp : p = Int64.minValue
  · subst hp
    have hr1 : r = 1 := Int64.toInt_inj.mp (Word.eq_one_of_pow_least hrpos hnum)
    have hs1 : s = 1 := Int64.toInt_inj.mp (Word.eq_one_of_pow_least hspos hden)
    subst hr1 hs1
    have hx1 : x = 1 := by
      rw [← hquot, Int64.toInt_one, Int.cast_one, div_one]
    rw [hx1, one_zpow, integerPower, if_neg (by decide), if_neg (by decide)]
    simp only [Word.pow_eq_ofInt, Int64.toInt_one, one_pow]
    exact ratio_gives rfl rfl (by decide) (by decide) one_ne_zero (by simp)
  · have hexact : Op.exact? .pow (r.toInt / s.toInt) p.toInt = some (x ^ p.toInt) := by
      simp [ Op.exact?, hquot, hx.ne']
    have hrange : Word.InRange (r.toInt ^ p.toInt.natAbs) ∧
        Word.InRange (s.toInt ^ p.toInt.natAbs) := by
      have := pow_pos hrpos p.toInt.natAbs
      have := pow_pos hspos p.toInt.natAbs
      unfold Word.InRange
      omega
    apply integerPower_gives hspos hp hexact
    dsimp only [Op.arising]
    split
    · next hnonneg =>
      have hexp : p.toInt.toNat = p.toInt.natAbs := by omega
      simpa [hexp] using hrange
    · next hneg =>
      have hexp : (-p.toInt).toNat = p.toInt.natAbs := by omega
      simpa [hexp] using hrange.symm

end

section

variable {guess : Int64 → Int64 → Int64} (hguess : Word.ComesNear guess) {n d p q : Int64}
  (hn : 0 < n) (hd : 0 < d) (hq : 1 ≤ q.toInt)

include hguess hn hd hq

theorem fractionalPowerNear_of_roots {r s : Int64} (hr : Word.IsRoot r n q)
    (hs : Word.IsRoot s d q) :
    fractionalPowerNear guess n d p q = .ok (integerPower r s p) := by
  have hnpos : 0 ≤ n.toInt := Int64.le_iff_toInt_le.mp (Int64.le_of_lt hn)
  have hdpos : 0 ≤ d.toInt := Int64.le_iff_toInt_le.mp (Int64.le_of_lt hd)
  exact fractionalPowerNear_eq hn ((Word.rootNear?_eq_some_iff hnpos hq hguess).mpr hr)
    ((Word.rootNear?_eq_some_iff hdpos hq hguess).mpr hs)

/-- A fractional power is a real exactly where one of the parts has no root. -/
theorem fractionalPowerNear_isReal_iff :
    (∃ x, fractionalPowerNear guess n d p q = .number (.real x)) ↔
      ¬∃ r s, Word.IsRoot r n q ∧ Word.IsRoot s d q := by
  constructor
  · rintro ⟨x, hreal⟩ ⟨r, s, hr, hs⟩
    rw [fractionalPowerNear_of_roots hguess hn hd hq hr hs] at hreal
    exact integerPower_ne_real r s p x (Except.ok.inj hreal)
  · intro hnone
    have hnpos : 0 ≤ n.toInt := Int64.le_iff_toInt_le.mp (Int64.le_of_lt hn)
    have hdpos : 0 ≤ d.toInt := Int64.le_iff_toInt_le.mp (Int64.le_of_lt hd)
    have hq0 : q ≠ 0 := by
      rintro rfl
      exact absurd hq (by decide)
    obtain ⟨rn, hrn⟩ := rootNear?_eq_ok (n := n) hq0 guess
    obtain ⟨rd, hrd⟩ := rootNear?_eq_ok (n := d) hq0 guess
    rw [fractionalPowerNear_eq hn hrn hrd]
    cases rn with
    | none => exact ⟨_, rfl⟩
    | some r =>
      cases rd with
      | none => exact ⟨_, rfl⟩
      | some s =>
        have hr := (Word.rootNear?_eq_some_iff hnpos hq hguess).mp hrn
        have hs := (Word.rootNear?_eq_some_iff hdpos hq hguess).mp hrd
        exact absurd ⟨r, s, hr, hs⟩ hnone

end

end Number

/-- With guesses that come near the roots, a power with a fractional exponent is a real exactly
where the base has no rational root, and otherwise the canonical form of the power of that root, if
its parts are words. -/
theorem fractional_power_exact {guess : Int64 → Int64 → Int64} (hguess : Word.ComesNear guess)
    {n d p q : Int64} (hn : 0 < n) (hd : 0 < d) (hcoprime : Int.gcd n.toInt d.toInt = 1)
    (hq : 2 ≤ q) :
    ((∃ x, Number.fractionalPowerNear guess n d p q = .number (.real x)) ↔
      ¬∃ x : ℚ, x ^ q.toInt.toNat = n.toInt / d.toInt) ∧
    ∀ x : ℚ, 0 < x → x ^ q.toInt.toNat = n.toInt / d.toInt →
      (x ^ p.toInt.natAbs).num < 2 ^ 63 → (x ^ p.toInt.natAbs).den < 2 ^ 63 →
      ∃ z, Number.fractionalPowerNear guess n d p q = .number z ∧ z.Denotes (x ^ p.toInt) := by
  have hnpos : 0 < n.toInt := Int64.lt_iff_toInt_lt.mp hn
  have hdpos : 0 < d.toInt := Int64.lt_iff_toInt_lt.mp hd
  have hqpos : 1 ≤ q.toInt := (by decide : (1 : Int) ≤ 2).trans (Int64.le_iff_toInt_le.mp hq)
  constructor
  · rw [Number.fractionalPowerNear_isReal_iff hguess hn hd hqpos,
      Word.exists_pow_eq_iff hnpos hdpos hcoprime hqpos]
  · intro x hx hpow hnum hden
    obtain ⟨r, s, hr, hs, hrnum, hsden⟩ := Word.exists_roots_of_pow hdpos hcoprime hqpos hx hpow
    obtain ⟨z, hz, hdenotes⟩ := (Number.integerPower_of_bounded hx hrnum hsden hnum hden).answer
    rw [Number.fractionalPowerNear_of_roots hguess hn hd hqpos hr hs]
    exact ⟨z, hz, hdenotes⟩

theorem inverse_root_of_prime_square :
    let guess : Int64 → Int64 → Int64 := fun m q => .ofNat (q.toInt.toNat.nthRoot m.toInt.toNat)
    Word.ComesNear guess ∧ (0 : Int64) < 4611686014132420609 ∧ (0 : Int64) < 4 ∧
      Int.gcd (4611686014132420609 : Int64).toInt (4 : Int64).toInt = 1 ∧ (2 : Int64) ≤ 2 ∧
      ∃ z, Number.fractionalPowerNear guess 4611686014132420609 4 (-1) 2 = .number z ∧
        z.Denotes ((2147483647 / 2) ^ (-1 : Int)) := by
  intro guess
  have hguess : Word.ComesNear guess := Word.comesNear_nthRoot
  have hcoprime : Int.gcd (4611686014132420609 : Int64).toInt (4 : Int64).toInt = 1 := by decide
  have hpow : (2147483647 / 2 : ℚ) ^ (2 : Int64).toInt.toNat =
      (4611686014132420609 : Int64).toInt / (4 : Int64).toInt := by decide +kernel
  have hexact := fractional_power_exact hguess (n := 4611686014132420609) (d := 4) (p := -1)
    (q := 2) (by decide) (by decide) hcoprime (by decide)
  exact ⟨hguess, by decide, by decide, hcoprime, by decide,
    hexact.2 _ (by decide +kernel) hpow (by decide +kernel) (by decide +kernel)⟩

end Reckon
