import Reckon.Proofs.Rationals

/-!
Roots of words. What is found is an exact root, and a root is found where there is one, as long as
the guesses come near the roots of what trial division leaves. Main statements:
`rootNear?_eq_some_iff` and `root_search_exact`.
-/

namespace Reckon

namespace Word

/-- Nothing below `p` divides the number, 1 apart. -/
def Sieved (p n : Nat) : Prop := ∀ k, 2 ≤ k → k ∣ n → p ≤ k

/-- Stripping takes out a power of the divisor and leaves none. -/
theorem strip_spec {p n : Nat} (hp : 2 ≤ p) (hn : 0 < n) :
    n = p ^ (strip p n).2 * (strip p n).1 ∧ ¬p ∣ (strip p n).1 ∧ 0 < (strip p n).1 := by
  fun_induction strip p n with
  | case1 n h m k hstrip ih =>
    have hdvd : p ∣ n := Nat.dvd_of_mod_eq_zero h.2.2
    have hpos : 0 < n / p := Nat.div_pos (Nat.le_of_dvd hn hdvd) (by omega)
    rw [hstrip] at ih
    obtain ⟨hpow, hleft, hm⟩ := ih hpos
    dsimp only at hpow hleft hm ⊢
    refine ⟨?_, hleft, hm⟩
    rw [pow_succ', mul_assoc, ← hpow, Nat.mul_div_cancel' hdvd]
  | case2 n h =>
    refine ⟨by simp, ?_, hn⟩
    intro hdvd
    exact h ⟨hp, hn, Nat.mod_eq_zero_of_dvd hdvd⟩

/-- What is left after stripping has no divisor up to `p`. -/
theorem Sieved.strip {p n : Nat} (h : Sieved p n) (hp : 2 ≤ p) (hn : 0 < n) :
    Sieved (p + 1) (Word.strip p n).1 := by
  obtain ⟨hpow, hleft, -⟩ := strip_spec hp hn
  intro k hk hdvd
  have hle : p ≤ k := h k hk (hpow ▸ Dvd.dvd.mul_left hdvd _)
  have hne : k ≠ p := by
    rintro rfl
    exact hleft hdvd
  omega

/-- The least divisor of a number is prime. -/
theorem Sieved.prime {p n : Nat} (h : Sieved p n) (hp : 2 ≤ p) (hdvd : p ∣ n) : p.Prime := by
  have hfactor : p.minFac.Prime := Nat.minFac_prime (by omega)
  have hle : p ≤ p.minFac := h _ hfactor.two_le ((Nat.minFac_dvd p).trans hdvd)
  rwa [← le_antisymm hle (Nat.minFac_le (by omega))] at hfactor

/-- In a power of order `q` every prime has a multiplicity that `q` divides. -/
theorem dvd_of_pow_eq {p k m s q : Nat} (hp : p.Prime) (hm : ¬p ∣ m) (h : s ^ q = p ^ k * m) :
    q ∣ k := by
  have hm0 : m ≠ 0 := by
    rintro rfl
    exact hm (dvd_zero p)
  have hleft : (s ^ q).factorization p = q * s.factorization p := by
    simp [Nat.factorization_pow]
  have hright : (p ^ k * m).factorization p = k := by
    rw [Nat.factorization_mul (pow_ne_zero k hp.ne_zero) hm0, hp.factorization_pow]
    simp [Nat.factorization_eq_zero_of_not_dvd hm]
  rw [h, hright] at hleft
  exact ⟨_, hleft⟩

/-- A power of order `q` that is taken out of another leaves a third. -/
theorem exists_root_of_mul {a b s q : Nat} (hq : q ≠ 0) (ha : 0 < a) (h : s ^ q = a ^ q * b) :
    ∃ t, t ^ q = b := by
  obtain ⟨t, rfl⟩ : a ∣ s := (Nat.pow_dvd_pow_iff hq).mp ⟨b, h⟩
  refine ⟨t, ?_⟩
  rw [mul_pow] at h
  exact Nat.eq_of_mul_eq_mul_left (pow_pos ha q) h

/-- A multiplicity that the order divides is the order times the exponent of the root. -/
theorem toNat_tdiv_mul {k q : Nat} (h : Int.tmod k q = 0) : (Int.tdiv k q).toNat * q = k := by
  rw [← Int.ofNat_tmod, Int.natCast_eq_zero] at h
  rw [← Int.ofNat_tdiv, Int.toNat_natCast, Nat.div_mul_cancel (Nat.dvd_of_mod_eq_zero h)]

section

variable {q p n root : Nat} (hp : 2 ≤ p) (hn : 0 < n)
include hp hn

/-- Trial division keeps the product of the number and the power of the root. -/
theorem pow_mul_of_cofactor {rest root' : Nat} (h : cofactor q p n root = .left rest root') :
    root' ^ q * rest = root ^ q * n ∧ 0 < rest := by
  fun_induction cofactor q p n root with
  | case1 p n root hgo m k hstrip hmod => cases h
  | case2 p n root hgo m k hstrip hmod ih =>
    obtain ⟨hpow, -, hm⟩ := strip_spec hp hn
    rw [hstrip] at hpow hm
    dsimp only at hpow hm
    obtain ⟨heq, hrest⟩ := ih (by omega) hm h
    refine ⟨heq.trans ?_, hrest⟩
    rw [hpow, Nat.pow_eq, mul_pow, ← pow_mul, toNat_tdiv_mul (not_not.mp hmod), mul_assoc]
  | case3 p n root hstop =>
    cases h
    exact ⟨rfl, hn⟩

/-- Trial division leaves a power of order `q` if it began with one. -/
theorem exists_root_of_cofactor {s : Nat} (hq : q ≠ 0) (hs : Sieved p n) (hpow : s ^ q = n) :
    ∃ rest root', cofactor q p n root = .left rest root' ∧ ∃ t, t ^ q = rest := by
  fun_induction cofactor q p n root generalizing s with
  | case1 p n root hgo m k hstrip hmod =>
    obtain ⟨hn', hleft, -⟩ := strip_spec hp hn
    rw [hstrip] at hn' hleft
    dsimp only at hn' hleft
    apply absurd _ hmod
    rcases Nat.eq_zero_or_pos k with rfl | hk
    · simp
    · have hprime : p.Prime := hs.prime hp (hn' ▸ Dvd.dvd.mul_right (dvd_pow_self p hk.ne') m)
      exact Int.tmod_eq_zero_of_dvd
        (Int.natCast_dvd_natCast.mpr (dvd_of_pow_eq hprime hleft (hpow.trans hn')))
  | case2 p n root hgo m k hstrip hmod ih =>
    obtain ⟨hn', -, hm⟩ := strip_spec hp hn
    have hsieved := hs.strip hp hn
    rw [hstrip] at hn' hm hsieved
    dsimp only at hn' hm hsieved
    rw [← toNat_tdiv_mul (not_not.mp hmod), pow_mul] at hn'
    obtain ⟨t, ht⟩ := exists_root_of_mul hq (pow_pos (by omega) _) (hpow.trans hn')
    exact ih (by omega) hm hsieved ht
  | case3 p n root hstop => exact ⟨n, root, rfl, s, hpow⟩

end

theorem toInt_ofNat {m : Nat} (h : (m : Int) < 2 ^ 63) : (Int64.ofNat m).toInt = m :=
  Int64.toInt_ofNat_of_lt (by omega)

/-- A product of positive words that is within a word does not wrap. -/
theorem toInt_mul_of_le {a b n : Int64} (ha : 0 < a.toInt) (hb : 0 < b.toInt)
    (h : a.toInt * b.toInt ≤ n.toInt) : (a * b).toInt = a.toInt * b.toInt := by
  have hpos := Int.mul_pos ha hb
  have hlt := Int64.toInt_lt n
  have hwrap : a * b = .ofInt (a.toInt * b.toInt) := by
    rw [Int64.ofInt_mul, Int64.ofInt_toInt, Int64.ofInt_toInt]
  rw [hwrap, toInt_ofInt ⟨by omega, by omega⟩]

/-- The loop multiplies as long as the product stays within `n`, so it never wraps. -/
theorem isPowerFrom_iff {c n : Int64} (hc : 2 ≤ c.toInt) (hn : 0 < n.toInt) {k : Nat} {acc : Int64}
    (hacc : 0 < acc.toInt) :
    isPowerFrom c n k acc = true ↔ acc.toInt * c.toInt ^ k = n.toInt := by
  have hquot : (n / c).toInt = n.toInt / c.toInt := by
    have hne : c ≠ -1 := by
      rintro rfl
      exact absurd hc (by decide)
    rw [Int64.toInt_div_of_ne_right n c hne, Int.tdiv_eq_ediv_of_nonneg (by omega)]
  induction k generalizing acc with
  | zero => simp [isPowerFrom, Int64.toInt_inj]
  | succ k ih =>
    have hbeyond : n / c < acc ↔ n.toInt < acc.toInt * c.toInt := by
      rw [Int64.lt_iff_toInt_lt, hquot, Int.ediv_lt_iff_lt_mul (by omega)]
    rw [isPowerFrom, pow_succ', ← mul_assoc]
    split
    · next hlt =>
      have hge : acc.toInt * c.toInt ≤ acc.toInt * c.toInt * c.toInt ^ k :=
        le_mul_of_one_le_right (by positivity) (one_le_pow₀ (by omega))
      have := hbeyond.mp hlt
      exact iff_of_false (by simp) (by omega)
    · next hle =>
      have hmul := toInt_mul_of_le hacc (by omega) (not_lt.mp (hbeyond.not.mp hle))
      have hpos : 0 < (acc * c).toInt := by
        rw [hmul]
        positivity
      exact (ih hpos).trans (by rw [hmul])

section

variable {s n q : Int64} (hn : 0 < n.toInt)
include hn

theorem largeRoot?_sound {c : Int64} (h : largeRoot? s n q = some c) :
    2 ≤ c.toInt ∧ c.toInt ^ q.toInt.toNat = n.toInt := by
  have hfound := List.find?_some h
  rw [Bool.and_eq_true, decide_eq_true_iff, Int64.lt_iff_toInt_lt, Int64.toInt_one] at hfound
  obtain ⟨hc, hpow⟩ := hfound
  refine ⟨hc, ?_⟩
  simpa using (isPowerFrom_iff hc hn (by decide)).mp hpow

/-- Some candidate is a root if the guess comes near one. -/
theorem largeRoot?_isSome {r : Int64} (hq : 2 ≤ q.toInt) (hr : 2 ≤ r.toInt)
    (hpow : r.toInt ^ q.toInt.toNat = n.toInt) (hnear : |s.toInt - r.toInt| ≤ 1) :
    (largeRoot? s n q).isSome := by
  have hsmall : r.toInt < 2 ^ 32 := by
    have hle : r.toInt ^ 2 ≤ r.toInt ^ q.toInt.toNat :=
      pow_le_pow_right₀ (by omega) (by omega)
    have := Int64.toInt_lt n
    nlinarith
  rw [abs_le] at hnear
  have hpred : (s - 1).toInt = s.toInt - 1 := by
    have hwrap : s - 1 = .ofInt (s.toInt - 1) := by
      rw [Int64.ofInt_sub, Int64.ofInt_toInt]
      rfl
    rw [hwrap, toInt_ofInt ⟨by omega, by omega⟩]
  have hsucc : (s + 1).toInt = s.toInt + 1 := by
    have hwrap : s + 1 = .ofInt (s.toInt + 1) := by
      rw [Int64.ofInt_add, Int64.ofInt_toInt]
      rfl
    rw [hwrap, toInt_ofInt ⟨by omega, by omega⟩]
  have hmem : r ∈ rootCandidates s := by
    rw [rootCandidates, if_pos (by rw [Int64.le_iff_toInt_le]; omega)]
    simp only [List.mem_cons, ← Int64.toInt_inj, hpred, hsucc, List.not_mem_nil, or_false]
    omega
  rw [largeRoot?, List.find?_isSome]
  refine ⟨r, hmem, ?_⟩
  rw [Bool.and_eq_true, decide_eq_true_iff, Int64.lt_iff_toInt_lt]
  exact ⟨hr, (isPowerFrom_iff hr hn (by decide)).mpr (by simpa using hpow)⟩

end

/-- A guess comes near the roots: where a word is a power of order `q`, it is off by one at most. -/
def ComesNear (guess : Int64 → Int64 → Int64) : Prop :=
  ∀ m q r : Int64, 2 ≤ q.toInt → 0 ≤ r.toInt → r.toInt ^ q.toInt.toNat = m.toInt →
    |(guess m q).toInt - r.toInt| ≤ 1

/-- The root of order `q` of a word, an exact one. -/
def IsRoot (r n q : Int64) : Prop := 0 ≤ r.toInt ∧ r.toInt ^ q.toInt.toNat = n.toInt

section

variable {r n q : Int64} (hn : 0 ≤ n.toInt) (hq : 1 ≤ q.toInt)

include hq in
theorem IsRoot.unique {s : Int64} (hr : IsRoot r n q) (hs : IsRoot s n q) : r = s := by
  have heq := hr.2.trans hs.2.symm
  rw [pow_left_inj₀ hr.1 hs.1 (by omega)] at heq
  exact Int64.toInt_inj.mp heq

include hn hq in
/-- Zero and one are their own roots, and so is every number for the order 1. -/
theorem isRoot_self (h : n.toInt < 2 ∨ q.toInt = 1) : IsRoot n n q := by
  refine ⟨hn, ?_⟩
  rcases h with h | h
  · obtain h0 | h1 : n.toInt = 0 ∨ n.toInt = 1 := by omega
    · rw [h0, zero_pow (by omega)]
    · rw [h1, one_pow]
  · simp [h]

include hq in
/-- The root of a product with a power; it is a word, as the product is. -/
theorem IsRoot.mul {m : Int64} {root : Nat} (h : IsRoot r m q) (hm : 0 < m.toInt)
    (hprod : (root : Int) ^ q.toInt.toNat * m.toInt = n.toInt) (hn : 0 < n.toInt) :
    IsRoot (.ofNat root * r) n q := by
  have hlt := Int64.toInt_lt n
  have hpow : ((root : Int) * r.toInt) ^ q.toInt.toNat = n.toInt := by
    rw [mul_pow, h.2, hprod]
  have hr : 0 < r.toInt := by
    refine lt_of_le_of_ne h.1 fun h0 => ?_
    rw [IsRoot, ← h0, zero_pow (by omega)] at h
    omega
  have hroot : 0 < (root : Int) := by
    refine lt_of_le_of_ne (by omega) fun h0 => ?_
    rw [← h0, zero_mul, zero_pow (by omega)] at hpow
    omega
  have hle : (root : Int) * r.toInt ≤ n.toInt := by
    rw [← hpow]
    exact le_self_pow₀ (Int.mul_pos hroot hr) (by omega)
  have hword : (Int64.ofNat root).toInt = root := by
    refine toInt_ofNat (lt_of_le_of_lt ?_ hlt)
    exact le_trans (le_mul_of_one_le_right (by omega) (by omega)) hle
  have hmul : (Int64.ofNat root * r).toInt = root * r.toInt := by
    rw [← hword] at hle
    rw [toInt_mul_of_le (by omega) hr hle, hword]
  rw [IsRoot, hmul]
  exact ⟨by positivity, hpow⟩

/-- What trial division leaves of a word, as a word. -/
theorem cofactor_word {rest root : Nat} (hn : 2 ≤ n.toInt) (hq : 0 ≤ q.toInt)
    (h : cofactor q.toInt 2 n.toInt.toNat 1 = .left rest root) :
    (root : Int) ^ q.toInt.toNat * (Int64.ofNat rest).toInt = n.toInt ∧
      (Int64.ofNat rest).toInt = rest ∧ 0 < rest := by
  rw [← Int.toNat_of_nonneg hq] at h
  obtain ⟨hprod, hrest⟩ := pow_mul_of_cofactor le_rfl (by omega) h
  rw [one_pow, one_mul] at hprod
  have hle : rest ≤ n.toInt.toNat := Nat.le_of_dvd (by omega) (hprod ▸ Nat.dvd_mul_left _ _)
  have hlt := Int64.toInt_lt n
  have hword : (Int64.ofNat rest).toInt = rest := toInt_ofNat (by omega)
  refine ⟨?_, hword, hrest⟩
  rw [hword]
  zify at hprod
  rw [hprod]
  omega

variable {guess : Int64 → Int64 → Int64}

theorem rootNear?_of_small (h : n.toInt < 2 ∨ q.toInt = 1) :
    rootNear? guess n q = .ok (some n) := by
  have hself : n < 2 ∨ q = 1 := by
    rw [Int64.lt_iff_toInt_lt, ← Int64.toInt_inj]
    exact h
  rw [rootNear?, if_pos hself]

theorem rootNear?_of_large (h2 : 2 ≤ n.toInt) (hq : 2 ≤ q.toInt) :
    rootNear? guess n q = match cofactor q.toInt 2 n.toInt.toNat 1 with
      | .noRoot => .ok none
      | .left rest root =>
        if rest = 1 then .ok (some (Int64.ofNat root))
        else .ok ((largeRoot? (guess (.ofNat rest) q) (.ofNat rest) q).map (.ofNat root * ·)) := by
  have hself : ¬(n < 2 ∨ q = 1) := by
    rw [Int64.lt_iff_toInt_lt, ← Int64.toInt_inj]
    have h1 : (1 : Int64).toInt = 1 := by decide
    have h2 : (2 : Int64).toInt = 2 := by decide
    omega
  have hzero : ¬(q = 0 ∧ 4 ≤ n) := by
    rw [← Int64.toInt_inj]
    have h0 : (0 : Int64).toInt = 0 := by decide
    omega
  unfold rootNear?
  exact (if_neg hself).trans (if_neg hzero)

include hn hq

/-- What is found near a guess is a root, whatever the guess. -/
theorem rootNear?_sound (h : rootNear? guess n q = .ok (some r)) : IsRoot r n q := by
  by_cases hsmall : n.toInt < 2 ∨ q.toInt = 1
  · rw [rootNear?_of_small hsmall] at h
    cases h
    exact isRoot_self hn hq hsmall
  have h2 : 2 ≤ n.toInt := by omega
  rw [rootNear?_of_large h2 (by omega)] at h
  split at h
  · cases h
  next rest root hleft =>
  obtain ⟨hprod, hword, hpos⟩ := cofactor_word h2 (by omega) hleft
  have hm : 0 < (Int64.ofNat rest).toInt := by omega
  split at h
  · next hone =>
    cases h
    have h1 : IsRoot 1 (.ofNat rest) q := ⟨by decide, by simp [hone]⟩
    simpa using h1.mul hq hm hprod (by omega)
  · simp only [Except.ok.injEq, Option.map_eq_some_iff] at h
    obtain ⟨c, hc, rfl⟩ := h
    obtain ⟨hge, hpow⟩ := largeRoot?_sound hm hc
    exact IsRoot.mul hq ⟨by omega, hpow⟩ hm hprod (by omega)

/-- A root is found where there is one, if the guess comes near it. -/
theorem rootNear?_complete (hguess : ComesNear guess) (hr : IsRoot r n q) :
    rootNear? guess n q = .ok (some r) := by
  suffices h : ∃ s, rootNear? guess n q = .ok (some s) by
    obtain ⟨s, hs⟩ := h
    rw [hs, (rootNear?_sound hn hq hs).unique hq hr]
  by_cases hsmall : n.toInt < 2 ∨ q.toInt = 1
  · exact ⟨n, rootNear?_of_small hsmall⟩
  have h2 : 2 ≤ n.toInt := by omega
  have hpow : n.toInt.toNat = r.toInt.toNat ^ q.toInt.toNat := by
    zify
    rw [Int.toNat_of_nonneg hr.1, Int.toNat_of_nonneg hn, hr.2]
  have hsieved : Sieved 2 n.toInt.toNat := fun k hk _ => hk
  obtain ⟨rest, root, hleft, t, ht⟩ :
      ∃ rest root, cofactor q.toInt.toNat 2 n.toInt.toNat 1 = .left rest root ∧
        ∃ t, t ^ q.toInt.toNat = rest :=
    exists_root_of_cofactor le_rfl (by omega) (by omega) hsieved hpow.symm
  rw [Int.toNat_of_nonneg (by omega)] at hleft
  obtain ⟨-, hword, hrest⟩ := cofactor_word h2 (by omega) hleft
  rw [rootNear?_of_large h2 (by omega), hleft]
  dsimp only
  split
  · exact ⟨_, rfl⟩
  · next hone =>
    have hle : t ≤ rest := by
      rw [← ht]
      exact Nat.le_self_pow (by omega) t
    have ht2 : 1 < t := (Nat.one_lt_pow_iff (n := q.toInt.toNat) (by omega)).mp (by omega)
    have hlt := Int64.toInt_lt (.ofNat rest)
    have htword : (Int64.ofNat t).toInt = t := toInt_ofNat (by omega)
    have htpow : (Int64.ofNat t).toInt ^ q.toInt.toNat = (Int64.ofNat rest).toInt := by
      rw [htword, hword, ← ht]
      push_cast
      rfl
    have hfound := largeRoot?_isSome (by omega) (by omega) (by omega) htpow
      (hguess (.ofNat rest) q (.ofNat t) (by omega) (by omega) htpow)
    obtain ⟨c, hc⟩ := Option.isSome_iff_exists.mp hfound
    exact ⟨_, by rw [hc]; rfl⟩

/-- With guesses that come near the roots, the root that is found is the root. -/
theorem rootNear?_eq_some_iff (hguess : ComesNear guess) :
    rootNear? guess n q = .ok (some r) ↔ IsRoot r n q :=
  ⟨rootNear?_sound hn hq, rootNear?_complete hn hq hguess⟩

end

section

variable {n q : Int64}

/-- A positive integer is a word if a power of it is. -/
theorem isRoot_ofInt {z : Int} (hz : 0 < z) (hq : 1 ≤ q.toInt) (h : z ^ q.toInt.toNat = n.toInt) :
    IsRoot (.ofInt z) n q ∧ (Int64.ofInt z).toInt = z := by
  have hle : z ≤ n.toInt := by
    rw [← h]
    exact le_self_pow₀ hz (by omega)
  have hlt := Int64.toInt_lt n
  have hword : (Int64.ofInt z).toInt = z := toInt_ofInt ⟨by omega, by omega⟩
  refine ⟨⟨by omega, ?_⟩, hword⟩
  rw [hword, h]

/-- If any integer is a root, a word is: of an even order the opposite of a root is one too. -/
theorem exists_isRoot_of_pow (hn : 0 ≤ n.toInt) (hq : 1 ≤ q.toInt) {z : Int}
    (h : z ^ q.toInt.toNat = n.toInt) : ∃ r, IsRoot r n q := by
  have habs : |z| ^ q.toInt.toNat = n.toInt := by rw [← abs_pow, h, abs_of_nonneg hn]
  rcases (abs_nonneg z).eq_or_lt with hzero | hpos
  · refine ⟨0, le_rfl, ?_⟩
    rw [← habs, ← hzero]
    rfl
  · exact ⟨_, (isRoot_ofInt hpos hq habs).1⟩

end

/-- The floor of the root is a guess that comes near. -/
theorem comesNear_nthRoot :
    ComesNear fun m q => .ofNat (q.toInt.toNat.nthRoot m.toInt.toNat) := by
  intro m q r hq hr hpow
  have hm : m.toInt.toNat = r.toInt.toNat ^ q.toInt.toNat := by
    rw [← hpow, Int.toNat_pow_of_nonneg hr]
  have hroot : q.toInt.toNat.nthRoot m.toInt.toNat = r.toInt.toNat := by
    rw [hm, Nat.nthRoot_pow (by omega)]
  have hlt := Int64.toInt_lt r
  dsimp only
  rw [hroot, toInt_ofNat (by omega), Int.toNat_of_nonneg hr, sub_self, abs_zero]
  decide

/-- The search for a root comes to an end, and what it finds is an exact root, whatever the guesses.
With guesses that come near the roots it finds none only where no integer is one. `root?` searches
with `rootGuess`. -/
theorem root_search_exact {n q : Int64} (hn : 0 ≤ n) (hq : 1 ≤ q)
    (guess : Int64 → Int64 → Int64) :
    ∃ found, rootNear? guess n q = .ok found ∧
      (∀ r, found = some r → 0 ≤ r ∧ r.toInt ^ q.toInt.toNat = n.toInt) ∧
      (ComesNear guess → found = none → ∀ z : Int, z ^ q.toInt.toNat ≠ n.toInt) := by
  have hn0 : 0 ≤ n.toInt := Int64.le_iff_toInt_le.mp hn
  have hq1 : 1 ≤ q.toInt := Int64.le_iff_toInt_le.mp hq
  have hq0 : q ≠ 0 := by
    rintro rfl
    exact absurd hq (by decide)
  obtain ⟨found, hfound⟩ := Number.rootNear?_eq_ok (n := n) hq0 guess
  refine ⟨found, hfound, ?_, ?_⟩
  · rintro r rfl
    obtain ⟨hr, hpow⟩ := rootNear?_sound hn0 hq1 hfound
    exact ⟨Int64.le_iff_toInt_le.mpr hr, hpow⟩
  · rintro hguess rfl z hz
    obtain ⟨r, hr⟩ := exists_isRoot_of_pow hn0 hq1 hz
    cases hfound.symm.trans (rootNear?_complete hn0 hq1 hguess hr)

/-- A square of a prime beyond the reach of trial division, and the number after it. -/
theorem root_search_exact_beyond_trial :
    let guess : Int64 → Int64 → Int64 := fun m q => .ofNat (q.toInt.toNat.nthRoot m.toInt.toNat)
    ComesNear guess ∧ (0 : Int64) ≤ 4611686014132420609 ∧ (0 : Int64) ≤ 4611686014132420610 ∧
      (1 : Int64) ≤ 2 ∧ rootNear? guess 4611686014132420609 2 = .ok (some 2147483647) ∧
      rootNear? guess 4611686014132420610 2 = .ok none := by
  intro guess
  have hguess : ComesNear guess := comesNear_nthRoot
  refine ⟨hguess, by decide, by decide, by decide, ?_, ?_⟩
  · obtain ⟨found, hfound, hroot, hnone⟩ := root_search_exact (n := 4611686014132420609) (q := 2)
      (by decide) (by decide) guess
    cases found with
    | none => exact absurd (by decide) (hnone hguess rfl 2147483647)
    | some r =>
      obtain ⟨hr, hpow⟩ := hroot r rfl
      have hprime : IsRoot 2147483647 4611686014132420609 2 := ⟨by decide, by decide⟩
      have hword : IsRoot r 4611686014132420609 2 := ⟨Int64.le_iff_toInt_le.mp hr, hpow⟩
      rw [hfound, hword.unique (by decide) hprime]
  · obtain ⟨found, hfound, hroot, -⟩ := root_search_exact (n := 4611686014132420610) (q := 2)
      (by decide) (by decide) guess
    cases found with
    | none => exact hfound
    | some r =>
      obtain ⟨hr, hpow⟩ := hroot r rfl
      have hsquare : r.toInt ^ 2 = 4611686014132420610 := hpow
      have hr0 : 0 ≤ r.toInt := Int64.le_iff_toInt_le.mp hr
      -- it lies between two squares that follow each other
      have hlow : 2147483647 < r.toInt := by nlinarith
      have hhigh : r.toInt < 2147483648 := by nlinarith
      omega

end Word

/-- A fractional power of a positive fraction, given what is found of the roots. -/
theorem Number.fractionalPowerNear_eq {guess : Int64 → Int64 → Int64} {n d p q : Int64}
    {rn rd : Option Int64} (hn : 0 < n) (hrn : Word.rootNear? guess n q = .ok rn)
    (hrd : Word.rootNear? guess d q = .ok rd) :
    fractionalPowerNear guess n d p q = match rn, rd with
      | some rn, some rd => .ok (integerPower rn rd p)
      | _, _ => .number (.real
          (Float.pow (n.toFloat / d.toFloat) (p.toFloat / q.toFloat))) := by
  have hneg : ¬n < 0 := Int64.not_lt.mpr (Int64.le_of_lt hn)
  have hzero : n ≠ 0 := (Int64.ne_of_lt hn).symm
  simp only [fractionalPowerNear, hrn, hrd, hneg, hzero, ↓reduceIte, ok_bind]
  cases rn with
  | none => rfl
  | some rn =>
    cases rd with
    | none => rfl
    | some rd => rfl

end Reckon
