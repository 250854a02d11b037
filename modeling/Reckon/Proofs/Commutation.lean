import Reckon.Proofs.Answers

/-!
Sums and products of exact values do not depend on the order of the operands, whatever wraps and
wherever in nested vectors the first error is. Main statement: `sum_and_product_commute`.
-/

namespace Reckon

/-- Sums and products. -/
def Op.isCommutative : Op → Bool
  | .add | .mul => true
  | _ => false

/-- Integers, fractions and vectors of these at any depth. The denominators may be any words. -/
inductive Rational : Value → Prop
  | int (n : Int64) : Rational (.int n)
  | frac (n d : Int64) : Rational (.frac n d)
  | vector {elems} : (∀ v ∈ elems, Rational v) → Rational (.vector elems)

variable {op : Op} (hop : op.isCommutative = true)

namespace Number

include hop

/-- The numerator and the denominator of the result are symmetric in the operands. -/
theorem rationalOp_comm (an ad bn bd : Int64) :
    ∃ z, rationalOp op an ad bn bd = .ok z ∧ rationalOp op bn bd an ad = .ok z := by
  cases op with
  | add =>
    refine ⟨_, rfl, ?_⟩
    simp only [rationalOp, Int64.add_comm (bn * ad), Int64.mul_comm bd]
  | mul =>
    refine ⟨_, rfl, ?_⟩
    simp only [rationalOp, Int64.mul_comm bn, Int64.mul_comm bd]
  | _ => cases hop

theorem integerOp_comm (a b : Int64) :
    ∃ z, integerOp op a b = .ok z ∧ integerOp op b a = .ok z := by
  cases op with
  | add => exact ⟨_, rfl, by rw [integerOp, Int64.add_comm]; rfl⟩
  | mul => exact ⟨_, rfl, by rw [integerOp, Int64.mul_comm]; rfl⟩
  | _ => cases hop

end Number

namespace Value

/-- In both orders the operation gives the same value or the same error. -/
def Commutes (p : Precision) (op : Op) (a b : Value) : Prop :=
  ∃ z, a.arith p op b = .ok z ∧ b.arith p op a = .ok z

variable {p : Precision}

theorem Commutes.symm {a b : Value} (h : Commutes p op a b) : Commutes p op b a := by
  obtain ⟨z, hab, hba⟩ := h
  exact ⟨z, hba, hab⟩

theorem arith_number (x y : Number) :
    (Value.number x).arith p op (.number y) = do return (← x.combine p op y).map .number := by
  simp only [arith, broadcast, scalarOp]

theorem commutes_numbers {x y : Number}
    (h : ∃ z, x.combine p op y = .ok z ∧ y.combine p op x = .ok z) :
    Commutes p op (.number x) (.number y) := by
  obtain ⟨z, hxy, hyx⟩ := h
  exact ⟨z.map .number, by rw [arith_number, hxy]; rfl, by rw [arith_number, hyx]; rfl⟩

/-- A scalar meets the elements of a vector one by one, on whichever side it stands. -/
theorem commutes_elements {x : Number} {bs : List Value}
    (h : ∀ b ∈ bs, Commutes p op (.number x) b) :
    ∃ zs, broadcastAll p op (.number x) bs = .ok zs ∧ arithAll p op bs (.number x) = .ok zs := by
  induction bs with
  | nil => exact ⟨[], rfl, by rw [arithAll]⟩
  | cons b bs ih =>
    obtain ⟨z, hxb, hbx⟩ := h b (by simp)
    obtain ⟨zs, hxs, hsx⟩ := ih fun b hb => h b (List.mem_cons_of_mem _ hb)
    rw [arith] at hxb
    · exact ⟨z :: zs, by simp [broadcastAll, hxb, hxs], by simp [arithAll, hbx, hsx]⟩
    · simp

/-- Vectors meet element by element, as far as both go. -/
theorem commutes_pairs {as bs : List Value} (h : ∀ a ∈ as, ∀ b ∈ bs, Commutes p op a b) :
    ∃ zs, arithZip p op as bs = .ok zs ∧ arithZip p op bs as = .ok zs := by
  induction as generalizing bs with
  | nil => exact ⟨[], by simp [arithZip], by simp [arithZip]⟩
  | cons a as ih =>
    cases bs with
    | nil => exact ⟨[], by simp [arithZip], by simp [arithZip]⟩
    | cons b bs =>
      obtain ⟨z, hab, hba⟩ := h a (by simp) b (by simp)
      obtain ⟨zs, hzs, hsz⟩ := @ih bs fun c hc d hd =>
        h c (List.mem_cons_of_mem _ hc) d (List.mem_cons_of_mem _ hd)
      exact ⟨z :: zs, by simp [arithZip, hab, hzs], by simp [arithZip, hba, hsz]⟩

include hop

theorem not_mod_of_isCommutative : op ≠ .mod := by
  rintro rfl
  cases hop

/-- A scalar and what is built from scalars. -/
theorem commutes_scalar {x : Number}
    (hx : ∀ y, Rational (.number y) → Commutes p op (.number x) (.number y)) {b : Value}
    (hb : Rational b) : Commutes p op (.number x) b := by
  have hm := not_mod_of_isCommutative hop
  induction hb with
  | int n => exact hx _ (.int n)
  | frac n d => exact hx _ (.frac n d)
  | vector _ ih =>
    obtain ⟨zs, hxs, hsx⟩ := commutes_elements ih
    exact ⟨ofElements zs, by simp [arith, broadcast, hm, hxs], by simp [arith, hm, hsx]⟩

theorem commutes_rational {a b : Value} (ha : Rational a) (hb : Rational b) :
    Commutes p op a b := by
  have hm := not_mod_of_isCommutative hop
  have hint : ∀ n {b}, Rational b → Commutes p op (.int n) b := by
    intro n b hb
    refine commutes_scalar hop (fun y hy => commutes_numbers ?_) hb
    cases hy with
    | int m => exact Number.integerOp_comm hop n m
    | frac m d => exact Number.rationalOp_comm hop n 1 m d
  have hfrac : ∀ n d {b}, Rational b → Commutes p op (.frac n d) b := by
    intro n d b hb
    refine commutes_scalar hop (fun y hy => commutes_numbers ?_) hb
    cases hy with
    | int m => exact Number.rationalOp_comm hop n d m 1
    | frac m e => exact Number.rationalOp_comm hop n d m e
  induction ha generalizing b with
  | int n => exact hint n hb
  | frac n d => exact hfrac n d hb
  | @vector as has ih =>
    cases hb with
    | int n => exact (hint n (.vector has)).symm
    | frac n d => exact (hfrac n d (.vector has)).symm
    | @vector bs hbs =>
      by_cases hl : as.length = bs.length
      · obtain ⟨zs, hab, hba⟩ := commutes_pairs fun a ha b hb => ih a ha (hbs b hb)
        exact ⟨ofElements zs, by simp [arith, hm, hl, hab], by simp [arith, hm, hl, hba]⟩
      · have hl' : bs.length ≠ as.length := fun he => hl he.symm
        exact ⟨.error (.sizesDiffer op), by simp [arith, hm, hl], by simp [arith, hm, hl']⟩

end Value

/-- A sum, or a product, of exact values in one order and in the other is the same value or the same
error. -/
theorem sum_and_product_commute (c : Context) {op : Op} (hop : op = .add ∨ op = .mul) {a b : Value}
    (ha : Rational a) (hb : Rational b) :
    Recur.arith c op a b = Recur.arith c op b a ∧ Answers (Recur.arith c op a b) := by
  have hcomm : op.isCommutative = true := by
    rcases hop with rfl | rfl
    all_goals rfl
  obtain ⟨z, hab, hba⟩ := Value.commutes_rational (p := c.precision) hcomm ha hb
  have hanswer : Recur.arith c op a b = Recur.ofAnswer (.ok z) := congrArg Recur.ofAnswer hab
  refine ⟨hanswer.trans (congrArg Recur.ofAnswer hba).symm, ?_⟩
  rw [hanswer]
  cases z with
  | ok v => exact .ok v
  | error cause => exact .error _

/-- Vectors of different sizes meet inside vectors, beside a denominator that wraps to zero. -/
theorem sum_of_ragged_vectors_commutes :
    let c := Context.fresh 1024 64
    let a : Value := .vector [.vector [.int 1, .int 2], .frac 1 4294967296]
    let b : Value := .vector [.vector [.int 1, .int 2, .int 3], .frac 1 4294967296]
    (Op.add = .add ∨ Op.add = .mul) ∧ Rational a ∧ Rational b ∧
      Recur.arith c .add a b = Recur.arith c .add b a ∧
      Recur.arith c .add a b = Recur.refuse (.sizesDiffer .add) := by
  intro c a b
  have ha : Rational a := by
    refine .vector (List.forall_mem_cons.mpr ⟨.vector ?_, ?_⟩)
    · simpa using ⟨.int 1, .int 2⟩
    · simpa using .frac 1 4294967296
  have hb : Rational b := by
    refine .vector (List.forall_mem_cons.mpr ⟨.vector ?_, ?_⟩)
    · simpa using ⟨.int 1, .int 2, .int 3⟩
    · simpa using .frac 1 4294967296
  exact ⟨.inl rfl, ha, hb, (sum_and_product_commute c (.inl rfl) ha hb).1, by rfl⟩

end Reckon
