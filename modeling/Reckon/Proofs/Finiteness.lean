import Reckon.Eval.Arith
import Reckon.Proofs.Outcome
import Reckon.Proofs.Radicals

namespace Reckon

theorem exists_right_of_mem {α β : Type} {R : α → β → Prop} {as : List α} {bs : List β}
    (h : List.Forall₂ R as bs) {a : α} (ha : a ∈ as) : ∃ b ∈ bs, R a b := by
  induction h with
  | nil => cases ha
  | @cons a' b as bs hab _ ih =>
    rcases List.mem_cons.mp ha with rfl | ha
    · exact ⟨b, List.mem_cons_self, hab⟩
    · obtain ⟨b', hb', hr⟩ := ih ha
      exact ⟨b', List.mem_cons_of_mem b hb', hr⟩

theorem exists_left_of_mem {α β : Type} {R : α → β → Prop} {as : List α} {bs : List β}
    (h : List.Forall₂ R as bs) {b : β} (hb : b ∈ bs) : ∃ a ∈ as, R a b :=
  exists_right_of_mem (R := flip R) h.flip hb

namespace Value

mutual

/-- Whether all reals in a result are finite, at any depth of vectors. -/
def isFinite : Value → Bool
  | .number x => x.isFinite
  | .vector elems => areFinite elems
  | _ => true

def areFinite : List Value → Bool
  | [] => true
  | v :: vs => isFinite v && areFinite vs

end

theorem areFinite_iff {vs : List Value} : areFinite vs = true ↔ ∀ v ∈ vs, v.isFinite = true := by
  induction vs with
  | nil => simp [areFinite]
  | cons v vs ih => simp [areFinite, ih]

theorem isFinite_vector {elems : List Value} :
    (Value.vector elems).isFinite = true ↔ ∀ v ∈ elems, v.isFinite = true := by
  rw [isFinite, areFinite_iff]

end Value

/-- What an operation on doubles comes to where it is not refused. -/
def Double.operate (p : Precision) (op : Op) (x y : Float) : Float :=
  match op with
  | .add => x + y
  | .sub => x - y
  | .mul => x * y
  | .div => x / y
  | .mod => floorMod x y
  | .pow => power p x y
  | .none | .fact => 0

namespace Number

def hasRoot (n q : Int64) : Bool :=
  match Word.root? n q with
  | .ok (some _) => true
  | _ => false

/-- The double that `n / d` to the power of `p / q` comes to if the roots are not exact. -/
def inexactPower? (n d p q : Int64) : Option Float :=
  if q = 1 ∨ n = 0 ∨ hasRoot n q ∧ hasRoot d q then none
  else some (Float.pow (n.toFloat / d.toFloat) (p.toFloat / q.toFloat))

/-- The double that an operation on numbers comes to, unless it stays exact. -/
def double? (p : Precision) (op : Op) : Number → Number → Option Float
  | .real x, b => some (Double.operate p op x b.toFloat)
  | a, .real y => some (Double.operate p op a.toFloat y)
  | .int n, .frac g => if op = .pow then inexactPower? n 1 g.num g.den else none
  | .frac f, .frac g => if op = .pow then inexactPower? f.num f.den g.num g.den else none
  | _, .int _ => none

/-- The number is a real just if there is a double, and is that double. -/
def IsDouble (z : Number) (x : Option Float) : Prop := ∀ r, z = .real r ↔ x = some r

theorem IsDouble.isFinite {z : Number} {x : Option Float} (h : z.IsDouble x) :
    z.isFinite = x.all Float.isFinite := by
  cases z with
  | real r =>
    rw [(h r).mp rfl]
    rfl
  | int | frac =>
    cases x with
    | none => rfl
    | some r => cases (h r).mpr rfl

theorem isDouble_none {z : Number} (h : ∀ r, z ≠ .real r) : z.IsDouble none := by
  intro r
  exact ⟨fun hz => absurd hz (h r), fun hr => nomatch hr⟩

theorem isDouble_ratio {n d : Int64} {z : Number} (h : ratio n d = .ok z) : z.IsDouble none := by
  apply isDouble_none
  rintro r rfl
  exact ratio_ne_real n d r h

theorem isDouble_integerPower {n d k : Int64} {z : Number} (h : integerPower n d k = .ok z) :
    z.IsDouble none := by
  apply isDouble_none
  rintro r rfl
  exact integerPower_ne_real n d k r h

theorem isDouble_integerOp {op : Op} {a b : Int64} {z : Number}
    (h : integerOp op a b = .number z) : z.IsDouble none := by
  unfold integerOp at h
  cases op with
  | add | sub | mul =>
    cases h
    exact isDouble_none fun _ => nofun
  | div =>
    dsimp only at h
    split at h
    · cases h
    · split at h
      · cases h
        exact isDouble_none fun _ => nofun
      · exact isDouble_ratio (Except.ok.inj h)
  | mod =>
    dsimp only at h
    split at h
    · cases h
    · obtain ⟨r, -, h⟩ := bind_eq_ok_iff.mp h
      cases h
      exact isDouble_none fun _ => nofun
  | pow => exact isDouble_integerPower (Except.ok.inj h)
  | none | fact => cases h

theorem isDouble_fractionalPower {n d p q : Int64} (hq : q ≠ 1) {z : Number}
    (h : fractionalPower n d p q = .number z) : z.IsDouble (inexactPower? n d p q) := by
  unfold fractionalPower fractionalPowerNear at h
  by_cases hneg : n < 0
  · simp only [hneg, ↓reduceIte] at h
    cases h
  by_cases hzero : n = 0
  · simp only [hzero, Int64.lt_irrefl, ↓reduceIte] at h
    simp only [inexactPower?, hzero, true_or, or_true, ↓reduceIte]
    have h := Except.ok.inj h
    split at h
    · cases h
    · cases h
      exact isDouble_none fun _ => nofun
  simp only [hneg, hzero, ↓reduceIte] at h
  simp only [inexactPower?, hasRoot, Word.root?, hq, hzero, false_or]
  obtain ⟨rn, hrn, h⟩ := bind_eq_ok_iff.mp h
  rw [hrn]
  cases rn with
  | none =>
    cases h
    simp [IsDouble]
  | some rn =>
    obtain ⟨rd, hrd, h⟩ := bind_eq_ok_iff.mp h
    rw [hrd]
    cases rd with
    | none =>
      cases h
      simp [IsDouble]
    | some rd =>
      simp only [and_self, ↓reduceIte]
      exact isDouble_integerPower (Except.ok.inj h)

theorem isDouble_rationalOp {op : Op} {an ad bn bd : Int64} {z : Number}
    (h : rationalOp op an ad bn bd = .number z) :
    z.IsDouble (if op = .pow then inexactPower? an ad bn bd else none) := by
  unfold rationalOp at h
  cases op with
  | add | sub | mul => exact isDouble_ratio (Except.ok.inj h)
  | div =>
    dsimp only at h
    split at h
    · cases h
    · exact isDouble_ratio (Except.ok.inj h)
  | mod =>
    dsimp only at h
    split at h
    · cases h
    · obtain ⟨r, -, h⟩ := bind_eq_ok_iff.mp h
      exact isDouble_ratio (Except.ok.inj h)
  | pow =>
    rw [if_pos rfl]
    dsimp only at h
    split at h
    · next hbd =>
      simp only [inexactPower?, hbd, true_or, ↓reduceIte]
      exact isDouble_integerPower (Except.ok.inj h)
    · next hbd => exact isDouble_fractionalPower hbd h
  | none | fact => cases h

theorem isDouble_realOp {p : Precision} {op : Op} {x y : Float} {z : Number}
    (h : realOp op x y p = .number z) : z.IsDouble (some (Double.operate p op x y)) := by
  have hz : z = .real (Double.operate p op x y) := by
    unfold realOp at h
    cases op with
    | add | sub | mul =>
      cases h
      rfl
    | div | mod =>
      dsimp only at h
      split at h
      · cases h
      · cases h
        rfl
    | pow =>
      dsimp only [realPower] at h
      split at h
      · cases h
      · split at h
        · cases h
        · cases h
          rfl
    | none | fact => cases h
  simp [IsDouble, hz]

/-- An operation on numbers is exact, or it comes to the double that is told. -/
theorem isDouble_combine {p : Precision} {op : Op} {x y z : Number}
    (h : x.combine p op y = .number z) : z.IsDouble (x.double? p op y) := by
  cases x with
  | real a => exact isDouble_realOp h
  | int a =>
    cases y with
    | real b => exact isDouble_realOp h
    | int b => exact isDouble_integerOp h
    | frac g => exact isDouble_rationalOp h
  | frac f =>
    cases y with
    | real b => exact isDouble_realOp h
    | int b =>
      have hz := isDouble_rationalOp (h : rationalOp op f.num f.den b 1 = .number z)
      change z.IsDouble none
      simpa [inexactPower?] using hz
    | frac g => exact isDouble_rationalOp h

end Number

namespace Value

/-- The pairs of parts to which an operation on vectors comes down. -/
def couples : Value → Value → List (Value × Value)
  | .vector as, .vector bs => as.zip bs
  | .vector as, b => as.map (·, b)
  | a, .vector bs => bs.map (a, ·)
  | _, _ => []

/-- An operation on two values combines the numbers `x` and `y`. -/
inductive Meets : Value → Value → Number → Number → Prop
  | numbers (x y : Number) : Meets (.number x) (.number y) x y
  | within {a b a' b' x y} : (a', b') ∈ couples a b → Meets a' b' x y → Meets a b x y

section

variable {p : Precision} {op : Op}

/-- A vector of results has one for each computation. -/
theorem forall₂_ofElements {α : Type} {f : α → ValueAnswer} {as : List α}
    {xs : List (Except Cause Value)} (h : as.mapM f = .ok xs) {r : Value}
    (hr : ofElements xs = .ok r) :
    ∃ rs, r = .vector rs ∧ List.Forall₂ (fun a r => f a = .ok (.ok r)) as rs := by
  have hall : ∀ rs, xs.mapM id = .ok rs →
      List.Forall₂ (fun a r => f a = .ok (.ok r)) as rs := by
    intro rs hrs
    have hresults : List.Forall₂ (fun x r => x = .ok r) xs rs :=
      forall₂_of_mapM hrs fun _ _ _ hx => hx
    have hgiven : List.Forall₂ (fun a x => f a = .ok x) as xs :=
      forall₂_of_mapM h fun _ _ _ hx => hx
    clear h hr hrs
    induction hgiven generalizing rs with
    | nil =>
      cases hresults
      exact .nil
    | cons ha _ ih =>
      cases hresults with
      | cons hx hxs =>
        subst hx
        exact .cons ha (ih _ hxs)
  unfold ofElements at hr
  cases hrs : xs.mapM id with
  | error c =>
    rw [hrs] at hr
    cases hr
  | ok rs =>
    rw [hrs] at hr
    cases hr
    exact ⟨rs, rfl, hall rs hrs⟩

/-- An operation with a vector on the right gives a vector. -/
theorem parts_of_broadcast {a r : Value} (ha : ∀ as, a ≠ .vector as) {bs : List Value}
    (h : a.arith p op (.vector bs) = .ok (.ok r)) :
    ∃ rs, r = .vector rs ∧
      List.Forall₂ (fun ab r => ab.1.arith p op ab.2 = .ok (.ok r)) (bs.map (a, ·)) rs := by
  have harith : ∀ v, a.arith p op v = a.broadcast p op v := by
    intro v
    rw [arith]
    exact ha
  rw [harith, broadcast] at h
  split at h
  · cases h
  · obtain ⟨xs, hxs, h⟩ := bind_eq_ok_iff.mp h
    rw [broadcastAll_eq_mapM] at hxs
    obtain ⟨rs, hr, hrs⟩ := forall₂_ofElements hxs (Except.ok.inj h)
    refine ⟨rs, hr, ?_⟩
    rw [List.forall₂_map_left_iff]
    exact hrs.imp fun b r hbr => (harith b).trans hbr

theorem parts_of_arith {as : List Value} {b r : Value}
    (h : (Value.vector as).arith p op b = .ok (.ok r)) :
    ∃ rs, r = .vector rs ∧ List.Forall₂ (fun ab r => ab.1.arith p op ab.2 = .ok (.ok r))
      (couples (.vector as) b) rs := by
  by_cases hb : ∃ bs, b = .vector bs
  · obtain ⟨bs, rfl⟩ := hb
    rw [arith] at h
    split at h
    · cases h
    · split at h
      · obtain ⟨xs, hxs, h⟩ := bind_eq_ok_iff.mp h
        rw [arithZip_eq_mapM] at hxs
        exact forall₂_ofElements hxs (Except.ok.inj h)
      · cases h
  · have hscalar : ∀ bs, b ≠ .vector bs := fun bs hbs => hb ⟨bs, hbs⟩
    have hcouples : couples (.vector as) b = as.map (·, b) := by
      cases b with
      | vector bs => exact absurd rfl (hscalar bs)
      | _ => rfl
    rw [arith] at h
    · split at h
      · cases h
      · obtain ⟨xs, hxs, h⟩ := bind_eq_ok_iff.mp h
        rw [arithAll_eq_mapM] at hxs
        obtain ⟨rs, hr, hrs⟩ := forall₂_ofElements hxs (Except.ok.inj h)
        rw [hcouples]
        exact ⟨rs, hr, List.forall₂_map_left_iff.mpr hrs⟩
    · exact hscalar

theorem number_of_arith {x y : Number} {r : Value}
    (h : (Value.number x).arith p op (.number y) = .ok (.ok r)) :
    ∃ z, r = .number z ∧ x.combine p op y = .number z := by
  simp only [arith, broadcast, scalarOp] at h
  obtain ⟨z, hz, h⟩ := bind_eq_ok_iff.mp h
  cases z with
  | error c => cases h
  | ok z =>
    cases h
    exact ⟨z, rfl, hz⟩

/-- An operation that succeeds combines two numbers or gives a vector, with an element for each pair
of parts. -/
theorem arith_eq_ok {a b r : Value} (h : a.arith p op b = .ok (.ok r)) :
    (∃ x y z, a = .number x ∧ b = .number y ∧ r = .number z ∧ x.combine p op y = .number z) ∨
      ∃ rs, r = .vector rs ∧
        List.Forall₂ (fun ab r => ab.1.arith p op ab.2 = .ok (.ok r)) (couples a b) rs := by
  by_cases ha : ∃ as, a = .vector as
  · obtain ⟨as, rfl⟩ := ha
    exact .inr (parts_of_arith h)
  have hscalar : ∀ as, a ≠ .vector as := fun as has => ha ⟨as, has⟩
  by_cases hb : ∃ bs, b = .vector bs
  · obtain ⟨bs, rfl⟩ := hb
    have hcouples : couples a (.vector bs) = bs.map (a, ·) := by
      cases a with
      | vector as => exact absurd rfl (hscalar as)
      | _ => rfl
    rw [hcouples]
    exact .inr (parts_of_broadcast hscalar h)
  · left
    have hop : scalarOp p op a b = .ok (.ok r) := by
      rw [arith, broadcast] at h
      · exact h
      · exact fun bs hbs => hb ⟨bs, hbs⟩
      · exact hscalar
    unfold scalarOp at hop
    split at hop
    · next x y =>
      obtain ⟨z, hr, hz⟩ := number_of_arith h
      exact ⟨x, y, z, rfl, rfl, hr, hz⟩
    · cases hop
    · cases hop

/-- The numbers in a result are those that the numbers which meet come to: they are finite exactly
if the doubles are. By induction on the result: an element of it is the result for two parts. -/
theorem isFinite_of_arith {a b r : Value} (h : a.arith p op b = .ok (.ok r)) :
    r.isFinite = true ↔
      ∀ x y, Meets a b x y → (x.double? p op y).all Float.isFinite = true := by
  rcases arith_eq_ok h with ⟨x, y, z, rfl, rfl, rfl, hz⟩ | ⟨rs, rfl, hrs⟩
  · have hdouble : z.isFinite = (x.double? p op y).all Float.isFinite :=
      (Number.isDouble_combine hz).isFinite
    rw [isFinite, hdouble]
    constructor
    · intro hx u v hmeets
      cases hmeets with
      | numbers => exact hx
      | within hmem => cases hmem
    · exact fun hall => hall x y (.numbers x y)
  · rw [isFinite_vector]
    constructor
    · intro hfinite x y hmeets
      cases hmeets with
      | numbers =>
        obtain ⟨z, hr, -⟩ := number_of_arith h
        cases hr
      | within hmem hparts =>
        obtain ⟨r, hr, hpart⟩ := exists_right_of_mem hrs hmem
        have hlt := List.sizeOf_lt_of_mem hr
        exact (isFinite_of_arith hpart).mp (hfinite r hr) x y hparts
    · intro hall r hr
      have hlt := List.sizeOf_lt_of_mem hr
      obtain ⟨⟨a', b'⟩, hmem, hpart⟩ := exists_left_of_mem hrs hr
      exact (isFinite_of_arith hpart).mpr fun x y hparts => hall x y (.within hmem hparts)
termination_by sizeOf r

end

end Value

end Reckon
