import Reckon.Proofs.BuiltinCalls
import Reckon.Proofs.Commutation

/-!
Dot and cross products of integer vectors, whose components wrap as words do. The ring identities
hold of what the calls evaluate to. Main statement: `integer_vector_products`.
-/

namespace Reckon

namespace Word

/-- The sum of the products of the components in pairs. -/
def dot (as bs : List Int64) : Int64 := (List.zipWith (· * ·) as bs).sum

/-- The cross product of two vectors of three components. -/
def cross : List Int64 → List Int64 → List Int64
  | [a0, a1, a2], [b0, b1, b2] => [a1 * b2 - a2 * b1, a2 * b0 - a0 * b2, a0 * b1 - a1 * b0]
  | _, _ => []

theorem dot_nil_left (bs : List Int64) : dot [] bs = 0 := rfl

theorem dot_nil_right (as : List Int64) : dot as [] = 0 := by
  cases as <;> rfl

theorem dot_cons (a b : Int64) (as bs : List Int64) :
    dot (a :: as) (b :: bs) = a * b + dot as bs := by
  rw [dot, List.zipWith_cons_cons, List.sum_cons, dot]

theorem dot_comm (as bs : List Int64) : dot as bs = dot bs as := by
  rw [dot, dot, List.zipWith_comm]
  simp only [Int64.mul_comm]

theorem dot_add {as bs : List Int64} (cs : List Int64) (h : as.length = bs.length) :
    dot (List.zipWith (· + ·) as bs) cs = dot as cs + dot bs cs := by
  induction as generalizing bs cs with
  | nil =>
    cases List.length_eq_zero_iff.mp h.symm
    rfl
  | cons a as ih =>
    obtain ⟨b, bs, rfl⟩ := List.exists_cons_of_length_eq_add_one h.symm
    cases cs with
    | nil => simp only [dot_nil_right, Int64.add_zero]
    | cons d cs =>
      have htail := ih cs (Nat.succ_inj.mp h)
      rw [List.zipWith_cons_cons, dot_cons, dot_cons, dot_cons, htail]
      grind

section

variable {as bs : List Int64} (has : as.length = 3) (hbs : bs.length = 3)

include has hbs

theorem cross_swap : cross bs as = (cross as bs).map (-1 * ·) := by
  obtain ⟨a0, a1, a2, rfl⟩ := List.length_eq_three.mp has
  obtain ⟨b0, b1, b2, rfl⟩ := List.length_eq_three.mp hbs
  simp only [cross, List.map_cons, List.map_nil, List.cons.injEq, and_true]
  grind

theorem dot_cross_left : dot as (cross as bs) = 0 := by
  obtain ⟨a0, a1, a2, rfl⟩ := List.length_eq_three.mp has
  obtain ⟨b0, b1, b2, rfl⟩ := List.length_eq_three.mp hbs
  simp only [cross, dot_cons, dot_nil_left]
  grind

theorem dot_cross_right : dot bs (cross as bs) = 0 := by
  obtain ⟨a0, a1, a2, rfl⟩ := List.length_eq_three.mp has
  obtain ⟨b0, b1, b2, rfl⟩ := List.length_eq_three.mp hbs
  simp only [cross, dot_cons, dot_nil_left]
  grind

theorem length_cross : (cross as bs).length = 3 := by
  obtain ⟨a0, a1, a2, rfl⟩ := List.length_eq_three.mp has
  obtain ⟨b0, b1, b2, rfl⟩ := List.length_eq_three.mp hbs
  rfl

end

end Word

/-- A vector of integers. -/
def Value.ints (ns : List Int64) : Value := .vector (ns.map .int)

namespace Value

variable (p : Precision) (as bs : List Int64)

theorem ofElements_ints : ofElements (as.map fun n => .ok (.int n)) = .ok (.ints as) := by
  have helems : (as.map fun n => (.ok (.int n) : Except Cause Value)).mapM id =
      .ok (as.map Value.int) := by
    induction as with
    | nil => rfl
    | cons a as ih => rw [List.map_cons, List.mapM_cons, id, ok_bind, ih]; rfl
  rw [ofElements, helems]
  rfl

theorem arithZip_ints :
    arithZip p .add (as.map .int) (bs.map .int) =
      .ok ((List.zipWith (· + ·) as bs).map fun n => .ok (.int n)) := by
  induction as generalizing bs with
  | nil => rw [List.map_nil, arithZip] <;> simp
  | cons a as ih =>
    cases bs with
    | nil => rw [List.map_nil, arithZip] <;> simp
    | cons b bs =>
      have hsum : (int a).arith p .add (int b) = .ok (.ok (.int (a + b))) := arith_number _ _
      rw [List.map_cons, List.map_cons, arithZip, hsum, ok_bind, ih bs, ok_bind]
      rfl

theorem broadcastAll_ints (n : Int64) :
    broadcastAll p .mul (int n) (as.map .int) =
      .ok ((as.map (n * ·)).map fun n => .ok (.int n)) := by
  induction as with
  | nil => rfl
  | cons a as ih =>
    have hproduct : (int n).broadcast p .mul (int a) = .ok (.ok (.int (n * a))) := rfl
    rw [List.map_cons, broadcastAll, hproduct, ok_bind, ih, ok_bind]
    rfl

variable {as bs}

/-- The sum of integer vectors is taken component by component. -/
theorem add_ints (h : as.length = bs.length) :
    (ints as).arith p .add (ints bs) = .ok (.ok (.ints (List.zipWith (· + ·) as bs))) := by
  rw [ints, ints, arith, if_neg (by simp), if_pos (by simpa using h), arithZip_ints, ok_bind,
    ofElements_ints]
  rfl

/-- The product of an integer and an integer vector. -/
theorem mul_ints (n : Int64) :
    (int n).arith p .mul (ints as) = .ok (.ok (.ints (as.map (n * ·)))) := by
  have hbroadcast : (int n).arith p .mul (ints as) = (int n).broadcast p .mul (ints as) := by
    rw [int, arith]
    simp
  rw [hbroadcast, ints, broadcast, if_neg (by simp), broadcastAll_ints, ok_bind, ofElements_ints]
  rfl

variable (as)

theorem isConcrete_ints : (ints as).isConcrete = true := by
  rw [ints, isConcrete, areConcrete_iff]
  exact List.forall_mem_map.mpr fun _ _ => rfl

theorem isFinite_ints : (ints as).isFinite = true :=
  isFinite_vector.mpr (List.forall_mem_map.mpr fun _ _ => rfl)

end Value

theorem Builtin.dotFrom_ints (c : Context) (s : Int64) (as bs : List Int64) :
    dotFrom c (.int s) (as.map .int) (bs.map .int) = .ok (.int (s + Word.dot as bs)) := by
  induction as generalizing s bs with
  | nil => rw [Word.dot_nil_left, Int64.add_zero]; rfl
  | cons a as ih =>
    cases bs with
    | nil => rw [Word.dot_nil_right, Int64.add_zero]; rfl
    | cons b bs =>
      rw [Word.dot_cons, ← Int64.add_assoc]
      exact ih (s + a * b) bs

theorem Builtin.dotOf_ints (c : Context) {as bs : List Int64} (h : as.length = bs.length) :
    dotOf c (as.map .int) (bs.map .int) = .ok (.int (Word.dot as bs)) := by
  rw [dotOf, if_pos (by simpa using h)]
  exact (dotFrom_ints c 0 as bs).trans (by rw [Int64.zero_add])

variable {c : Context} {f u v w : Value} {as bs cs : List Int64}

/-- Integer operations on expressions that come to integers. -/
theorem Coerces.binary_int {op : Op} {l r : Value} {a b n : Int64} (hl : Coerces c l (.int a))
    (hr : Coerces c r (.int b)) (hn : Number.integerOp op a b = .number (.int n)) :
    Coerces c (.binary op l r) (.int n) := by
  have harith : (Value.int a).arith c.precision op (.int b) = .ok (.ok (.int n)) :=
    (Value.arith_number _ _).trans (by rw [Number.combine, hn]; rfl)
  exact (Evaluates.binary hl hr harith).coerces rfl

theorem Coerces.both (hu : Coerces c u (.ints as)) (hv : Coerces c v (.ints bs)) :
    List.Forall₂ (Coerces c) [u, v] ([as.map .int, bs.map .int].map .vector) :=
  .cons hu (.cons hv .nil)

theorem Evaluates.dot (hf : Callee c false .dot f) (hu : Coerces c u (.ints as))
    (hv : Coerces c v (.ints bs)) (h : as.length = bs.length) :
    Evaluates c (.call f [u, v] false) (.int (Word.dot as bs)) := by
  obtain ⟨N, hN⟩ := vectorArgs_eventually "dot" (hu.both hv)
  refine .call hf rfl ⟨N, fun fuel hfuel => ?_⟩ (.concrete rfl) rfl
  have hargs : Builtin.vectorArgs _ c "dot" [u, v] 2 = .ok [as.map .int, bs.map .int] :=
    hN fuel hfuel
  rw [Builtin.run, hargs, ok_bind]
  exact Builtin.dotOf_ints c h

/-- A component of a cross product, as the call leaves it to evaluation. -/
theorem Coerces.component (a b x y : Int64) :
    Coerces c (.binary .sub (.binary .mul (.int a) (.int b)) (.binary .mul (.int x) (.int y)))
      (.int (a * b - x * y)) := by
  have hint : ∀ n, Coerces c (.int n) (.int n) := fun _ => .concrete rfl
  exact ((hint a).binary_int (hint b) rfl).binary_int ((hint x).binary_int (hint y) rfl) rfl

theorem Evaluates.cross (hf : Callee c false .cross f) (hu : Coerces c u (.ints as))
    (hv : Coerces c v (.ints bs)) (has : as.length = 3) (hbs : bs.length = 3) :
    Evaluates c (.call f [u, v] false) (.ints (Word.cross as bs)) := by
  obtain ⟨N, hN⟩ := vectorArgs_eventually "cross" (hu.both hv)
  obtain ⟨a0, a1, a2, rfl⟩ := List.length_eq_three.mp has
  obtain ⟨b0, b1, b2, rfl⟩ := List.length_eq_three.mp hbs
  refine .call hf rfl ⟨N, fun fuel hfuel => ?_⟩
    (.vector (.cons (.component a1 b2 a2 b1) (.cons (.component a2 b0 a0 b2)
      (.cons (.component a0 b1 a1 b0) .nil))))
    (Value.isFinite_ints (Word.cross [a0, a1, a2] [b0, b1, b2]))
  have hargs : Builtin.vectorArgs _ c "cross" [u, v] 2 = .ok _ := hN fuel hfuel
  rw [Builtin.run, hargs, ok_bind]
  rfl

theorem Evaluates.sum (hu : Coerces c u (.ints as)) (hv : Coerces c v (.ints bs))
    (h : as.length = bs.length) :
    Evaluates c (.binary .add u v) (.ints (List.zipWith (· + ·) as bs)) :=
  .binary hu hv (Value.add_ints _ h)

/-- The cross product of integer vectors is -1 times that in the other order and orthogonal to both
operands. The dot product does not depend on the order, and that with a sum is the sum of those with
its terms. Each call is evaluated to the product that the words give, whatever wraps. -/
theorem integer_vector_products {cross dot m : Value}
    (hcross : Callee c false .cross cross) (hdot : Callee c false .dot dot)
    (hm : Coerces c m (.int (-1)))
    (hu : Coerces c u (.ints as)) (hv : Coerces c v (.ints bs)) (hw : Coerces c w (.ints cs)) :
    (as.length = 3 → bs.length = 3 →
      Evaluates c (.call cross [u, v] false) (.ints (Word.cross as bs)) ∧
      Evaluates c (.call cross [v, u] false) (.ints (Word.cross bs as)) ∧
      Evaluates c (.binary .mul m (.call cross [u, v] false)) (.ints (Word.cross bs as)) ∧
      Evaluates c (.call dot [u, .call cross [u, v] false] false) (.int 0) ∧
      Evaluates c (.call dot [v, .call cross [u, v] false] false) (.int 0)) ∧
    (as.length = bs.length → bs.length = cs.length →
      Evaluates c (.call dot [u, v] false) (.int (Word.dot as bs)) ∧
      Evaluates c (.call dot [v, u] false) (.int (Word.dot as bs)) ∧
      Evaluates c (.call dot [.binary .add u v, w] false)
        (.int (Word.dot as cs + Word.dot bs cs)) ∧
      Evaluates c (.binary .add (.call dot [u, w] false) (.call dot [v, w] false))
        (.int (Word.dot as cs + Word.dot bs cs))) := by
  constructor
  · intro has hbs
    have huv := Evaluates.cross hcross hu hv has hbs
    have hproduct : Coerces c (.call cross [u, v] false) (.ints (Word.cross as bs)) :=
      huv.coerces (Value.isConcrete_ints _)
    have hlength := Word.length_cross has hbs
    refine ⟨huv, .cross hcross hv hu hbs has, ?_, ?_, ?_⟩
    · rw [Word.cross_swap has hbs]
      exact .binary hm hproduct (Value.mul_ints _ _)
    · rw [← Word.dot_cross_left has hbs]
      exact .dot hdot hu hproduct (has.trans hlength.symm)
    · rw [← Word.dot_cross_right has hbs]
      exact .dot hdot hv hproduct (hbs.trans hlength.symm)
  · intro hab hbc
    have hac := hab.trans hbc
    have huw := Evaluates.dot hdot hu hw hac
    have hvw := Evaluates.dot hdot hv hw hbc
    have hsum := (Evaluates.sum hu hv hab).coerces (Value.isConcrete_ints _)
    refine ⟨.dot hdot hu hv hab, ?_, ?_, ?_⟩
    · rw [Word.dot_comm]
      exact .dot hdot hv hu hab.symm
    · rw [← Word.dot_add cs hab]
      refine .dot hdot hsum hw ?_
      simpa [hab] using hbc
    · exact .binary (huw.coerces rfl) (hvw.coerces rfl) (Value.arith_number _ _)

/-- Components whose products and sums wrap, in the calls of a new session. -/
theorem integer_vector_products_wrap :
    let c := Context.fresh 1024 64
    let as : List Int64 := [9223372036854775807, 3037000500, -7]
    let bs : List Int64 := [4294967296, -9223372036854775808, 5]
    let u := Value.ints as
    let v := Value.ints bs
    let m : Value := .binary .mul (.int (-1)) (.int 1)
    let cross u v : Value := .call (.var "cross") [u, v] false
    let dot u v : Value := .call (.var "dot") [u, v] false
    Callee c false .cross (.var "cross") ∧ Callee c false .dot (.var "dot") ∧
      Coerces c m (.int (-1)) ∧ Coerces c u u ∧ Coerces c v v ∧ as.length = 3 ∧ bs.length = 3 ∧
      Evaluates c (.binary .mul m (cross v u))
        (.ints [-9223372021669773308, 9223372006790004741, -3820445788580872192]) ∧
      Evaluates c (dot u (cross u v)) (.int 0) ∧
      Evaluates c (dot (.binary .add u v) u) (.int 9223372032705282719) := by
  intro c as bs u v m cross dot
  have hcross : Callee c false .cross (.var "cross") := .named rfl rfl
  have hdot : Callee c false .dot (.var "dot") := .named rfl rfl
  have hm : Coerces c m (.int (-1)) :=
    (Evaluates.binary (.concrete rfl) (.concrete rfl) (Value.arith_number _ _)).coerces rfl
  have hu : Coerces c u u := .concrete (Value.isConcrete_ints as)
  have hv : Coerces c v v := .concrete (Value.isConcrete_ints bs)
  obtain ⟨hthree, hequal⟩ := integer_vector_products hcross hdot hm hu hv hu
  have hopposite := (integer_vector_products hcross hdot hm hv hu hv).1 rfl rfl
  have hdistributed := (hequal rfl rfl).2.2.1
  have hdots : Word.dot as as + Word.dot bs as = 9223372032705282719 := by decide
  rw [hdots] at hdistributed
  exact ⟨hcross, hdot, hm, hu, hv, rfl, rfl, hopposite.2.2.1, (hthree rfl rfl).2.2.2.1,
    hdistributed⟩

end Reckon
