import Reckon.Eval.Evaluator
import Reckon.Proofs.Exact
import Reckon.Proofs.Readable

namespace Reckon

def Builtin.isStandard : Builtin → Bool
  | .host _ _ => false
  | _ => true

/-- Trees that evaluation handles: their operators have a meaning where they stand, and nothing is
missing in them. -/
inductive Evaluable : Value → Prop
  | number {x} : x.Proper → Evaluable (.number x)
  | binary {op l r} : op.isInfix = true → Evaluable l → Evaluable r → Evaluable (.binary op l r)
  | factorial {v} : Evaluable v → Evaluable (.unary .fact v)
  | call {f args synthesized} : Evaluable f → (∀ v ∈ args, Evaluable v) →
      Evaluable (.call f args synthesized)
  | var (name : String) : Evaluable (.var name)
  | vector {elems} : (∀ v ∈ elems, Evaluable v) → Evaluable (.vector elems)
  | func {params body} : Evaluable body → Evaluable (.func params body)
  | builtin {b} : b.isStandard = true → Evaluable (.builtin b)

theorem Readable.evaluable {v : Value} (h : Readable v) : Evaluable v := by
  induction h with
  | int => exact .number trivial
  | real => exact .number trivial
  | minus _ ih => exact .binary rfl (.number trivial) ih
  | binary hop _ _ ihl ihr => exact .binary hop ihl ihr
  | factorial _ ih => exact .factorial ih
  | call _ _ _ ihf iha => exact .call ihf iha
  | subscript _ _ _ ihb ihi =>
    refine .call (.var "elem") fun v hv => ?_
    rcases List.mem_cons.mp hv with rfl | hv
    · exact ihb
    · rw [List.mem_singleton.mp hv]
      exact ihi
  | var => exact .var _
  | vector _ _ ih => exact .vector ih
  | func _ _ ih => exact .func ih

/-- Results: numbers, functions, builtin functions and vectors of results. -/
inductive Concrete : Value → Prop
  | number {x} : x.Proper → Concrete (.number x)
  | vector {elems} : (∀ v ∈ elems, Concrete v) → Concrete (.vector elems)
  | func {params body} : Evaluable body → Concrete (.func params body)
  | builtin {b} : b.isStandard = true → b.isFunction = true → Concrete (.builtin b)

namespace Value

/-- What an operation gives: a result, or an error that a calculation may end with. -/
def Landed : Except Cause Value → Prop
  | .ok v => Concrete v
  | .error c => c.kind.isOrdinary = true

/-- Whether the divisor of a modulus of two values wraps to zero. -/
def wrapsToZero : Value → Value → Bool
  | .number x, .number y => x.wrapsToZero y
  | _, _ => false

theorem scalarOp_landed (p : Precision) {op : Op} (hop : op.isInfix = true) {a b : Value}
    (hb : Concrete b) (hw : op = .mod → a.wrapsToZero b = false) :
    ∃ z, scalarOp p op a b = .ok z ∧ Landed z := by
  cases a with
  | number x =>
    cases hb with
    | @number y hy =>
      obtain ⟨z, hz, hl⟩ := Number.combine_landed p hop hy hw
      refine ⟨z.map .number, by simp [scalarOp, hz], ?_⟩
      cases z with
      | ok z => exact .number hl
      | error c => exact hl
    | _ => exact ⟨_, rfl, rfl⟩
  | _ => exact ⟨_, rfl, rfl⟩

theorem ofElements_landed {xs : List (Except Cause Value)} (h : ∀ x ∈ xs, Landed x) :
    Landed (ofElements xs) := by
  have hall : (∃ vs, xs.mapM id = .ok vs ∧ ∀ v ∈ vs, Concrete v) ∨
      ∃ c, xs.mapM id = .error c ∧ c.kind.isOrdinary = true := by
    induction xs with
    | nil => exact .inl ⟨[], rfl, by simp⟩
    | cons x xs ih =>
      have hx := h x (by simp)
      cases x with
      | error c => exact .inr ⟨c, by simp, hx⟩
      | ok v =>
        rcases ih (fun y hy => h y (List.mem_cons_of_mem _ hy)) with ⟨vs, hvs, hc⟩ | ⟨c, hc, ho⟩
        · refine .inl ⟨v :: vs, by simp [hvs], fun w hw => ?_⟩
          rcases List.mem_cons.mp hw with rfl | hw
          · exact hx
          · exact hc w hw
        · exact .inr ⟨c, by simp [hc], ho⟩
  unfold ofElements
  rcases hall with ⟨vs, hvs, hc⟩ | ⟨c, hc, ho⟩
  · rw [hvs]
    exact .vector hc
  · rw [hc]
    exact ho

theorem mapM_landed {α : Type} {f : α → ValueAnswer} {as : List α}
    (h : ∀ a ∈ as, ∃ z, f a = .ok z ∧ Landed z) :
    ∃ zs, as.mapM f = .ok zs ∧ ∀ z ∈ zs, Landed z := by
  induction as with
  | nil => exact ⟨[], rfl, by simp⟩
  | cons a as ih =>
    obtain ⟨z, hz, hl⟩ := h a (by simp)
    obtain ⟨zs, hzs, hls⟩ := ih fun b hb => h b (List.mem_cons_of_mem _ hb)
    refine ⟨z :: zs, by simp [hz, hzs], fun w hw => ?_⟩
    rcases List.mem_cons.mp hw with rfl | hw
    · exact hl
    · exact hls w hw

theorem broadcast_landed (p : Precision) {op : Op} (hop : op.isInfix = true) {a b : Value}
    (hb : Concrete b) (hw : op = .mod → a.wrapsToZero b = false) :
    ∃ z, broadcast p op a b = .ok z ∧ Landed z := by
  have hscalar := scalarOp_landed p hop hb hw
  induction hb with
  | @vector elems helems ih =>
    by_cases hm : op = .mod
    · exact ⟨.error .modulusOfVectors, by simp [broadcast, hm], rfl⟩
    · have helem : ∀ b ∈ elems, ∃ z, broadcast p op a b = .ok z ∧ Landed z := by
        intro b hb
        have hne : op = .mod → a.wrapsToZero b = false := fun he => absurd he hm
        exact ih b hb hne (scalarOp_landed p hop (helems b hb) hne)
      obtain ⟨zs, hzs, hl⟩ := mapM_landed helem
      exact ⟨ofElements zs, by simp [broadcast, hm, broadcastAll_eq_mapM, hzs],
        ofElements_landed hl⟩
  | number | func | builtin =>
    rw [broadcast]
    · exact hscalar
    · simp

/-- An operation on results gives a result or an error, unless it is a modulus whose divisor wraps
to zero. -/
theorem arith_landed (p : Precision) {op : Op} (hop : op.isInfix = true) {a b : Value}
    (ha : Concrete a) (hb : Concrete b) (hw : op = .mod → a.wrapsToZero b = false) :
    ∃ z, arith p op a b = .ok z ∧ Landed z := by
  induction ha generalizing b with
  | @vector as _ ih =>
    by_cases hm : op = .mod
    · exact ⟨.error .modulusOfVectors, by simp [arith, hm], rfl⟩
    · have helem : ∀ a ∈ as, ∀ b, Concrete b → ∃ z, arith p op a b = .ok z ∧ Landed z :=
        fun a ha b hb => ih a ha hb fun he => absurd he hm
      obtain ⟨zs, hzs, hz⟩ := mapM_landed fun a ha => helem a ha b hb
      rw [← arithAll_eq_mapM] at hzs
      cases hb with
      | @vector bs hbs =>
        by_cases hl : as.length = bs.length
        · obtain ⟨zs, hzs, hz⟩ := mapM_landed fun ab (hab : ab ∈ as.zip bs) =>
            helem ab.1 (List.of_mem_zip hab).1 ab.2 (hbs ab.2 (List.of_mem_zip hab).2)
          rw [← arithZip_eq_mapM] at hzs
          exact ⟨ofElements zs, by simp [arith, hm, hl, hzs], ofElements_landed hz⟩
        · exact ⟨.error (.sizesDiffer op), by simp [arith, hm, hl], rfl⟩
      | number | func | builtin =>
        exact ⟨ofElements zs, by simp [arith, hm, hzs], ofElements_landed hz⟩
  | number | func | builtin =>
    rw [arith]
    · exact broadcast_landed p hop hb hw
    · simp

theorem arith_wraps (p : Precision) {a b : Value} (h : a.wrapsToZero b = true) :
    arith p .mod a b = .error .zeroDivisor := by
  unfold wrapsToZero at h
  split at h
  · next x y => simp [arith, broadcast, scalarOp, Number.combine_wraps p h]
  · cases h

theorem unaryOp_landed (v : Value) : ∃ z, unaryOp .fact v = .ok z ∧ Landed z := by
  unfold unaryOp
  simp only [ne_eq, not_true_eq_false, ↓reduceIte]
  split
  · split
    · exact ⟨_, rfl, rfl⟩
    · split
      · exact ⟨_, rfl, rfl⟩
      · exact ⟨_, rfl, .number trivial⟩
  · exact ⟨_, rfl, rfl⟩

end Value

end Reckon
