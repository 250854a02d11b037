import Reckon.Proofs.Answers

namespace Reckon

namespace Value

mutual

/-- Numbers, functions, builtins that are functions, and vectors of these. -/
def isConcrete : Value → Bool
  | .number _ | .func _ _ => true
  | .builtin b => b.isFunction
  | .vector elems => areConcrete elems
  | _ => false

def areConcrete : List Value → Bool
  | [] => true
  | v :: vs => isConcrete v && areConcrete vs

end

theorem areConcrete_iff {vs : List Value} :
    areConcrete vs = true ↔ ∀ v ∈ vs, v.isConcrete = true := by
  induction vs with
  | nil => simp [areConcrete]
  | cons v vs ih => simp [areConcrete, ih]

end Value

theorem Concrete.isConcrete {v : Value} (h : Concrete v) : v.isConcrete = true := by
  induction h with
  | number | func => rfl
  | builtin _ hf => exact hf
  | vector _ ih => exact Value.areConcrete_iff.mpr ih

section

variable (host : Host) (c : Context) {w : Value} (hw : w.isConcrete = true)
include hw

theorem settle_of_isConcrete (fuel : Nat) : evaluator host (fuel + 1) .settle c w = .ok w := by
  cases w with
  | number | func | vector => rfl
  | builtin b =>
    have hf : b.isFunction = true := hw
    simp [evaluator, Recur.settleStep, hf]
  | _ => cases hw

/-- By induction on the fuel: the elements of a vector are smaller than it. -/
theorem evaluate_of_isConcrete {fuel : Nat} (hf : sizeOf w ≤ fuel) :
    evaluator host fuel .evaluate c w = .ok w := by
  induction fuel generalizing w with
  | zero => cases w <;> simp at hf
  | succ fuel ih =>
    cases w with
    | number | func | builtin => rfl
    | vector elems =>
      have hall := Value.areConcrete_iff.mp hw
      have hself : elems.mapM ((evaluator host fuel).coerce c) = .ok elems := by
        refine mapM_eq_self fun v hv => ?_
        have hlt := List.sizeOf_lt_of_mem hv
        simp only [Value.vector.sizeOf_spec] at hf
        cases fuel with
        | zero => omega
        | succ fuel =>
          rw [Recur.coerce, ih (hall v hv) (by omega), ok_bind]
          exact settle_of_isConcrete host c (hall v hv) fuel
      simp [evaluator, Recur.evalStep, hself]
    | _ => cases hw

theorem coerce_of_isConcrete {fuel : Nat} (hf : sizeOf w < fuel) :
    (evaluator host fuel).coerce c w = .ok w := by
  cases fuel with
  | zero => omega
  | succ fuel =>
    rw [Recur.coerce, evaluate_of_isConcrete host c hw (Nat.le_of_lt hf), ok_bind]
    exact settle_of_isConcrete host c hw fuel

end

/-- An error or a concrete value. -/
def Returned : Result → Prop
  | .ok v => v.isConcrete = true
  | .error (.error _) => True
  | .error _ => False

/-- Whether the coercion of a value comes to a modulus whose divisor wraps to zero. -/
def Value.Wraps (v : Value) (fuel : Nat) (c : Context) : Prop :=
  (watcher fuel).coerce c v = .error .wrapping

theorem Agree.returned {x y : Result} (h : Agree Concrete x y) (hfuel : y ≠ .error .outOfFuel)
    (hw : x ≠ .error .wrapping) : Returned y := by
  have ha := h.answers hfuel hw
  cases h with
  | value hv => exact hv.isConcrete
  | wrap => exact absurd rfl hw
  | @stop s _ =>
    obtain ⟨e, rfl⟩ := ha s rfl
    exact trivial

theorem coercion_returns_iff {c : Context} (hc : c.Sound) {v : Value} (hv : Evaluable v) :
    ∃ N, ∀ fuel, N ≤ fuel →
      (Returned ((Engine.ofFuel fuel).coerce c v) ↔ ¬ v.Wraps fuel c) ∧
      (v.Wraps fuel c → (Engine.ofFuel fuel).coerce c v = .error (.fault .zeroDivisor)) := by
  have hends := coercion_ends hc hv
  obtain ⟨N, r, hr, hN⟩ := hends.halts
  refine ⟨N, fun fuel hfuel => ?_⟩
  have hagree : Agree Concrete ((watcher fuel).coerce c v) ((Engine.ofFuel fuel).coerce c v) :=
    hends.agree fuel
  have hne : (Engine.ofFuel fuel).coerce c v ≠ .error .outOfFuel := by
    intro he
    exact hr ((hN fuel hfuel).symm.trans he)
  have hfault : v.Wraps fuel c →
      (Engine.ofFuel fuel).coerce c v = .error (.fault .zeroDivisor) := by
    intro hw
    rw [show (watcher fuel).coerce c v = _ from hw] at hagree
    exact hagree.eq_fault
  refine ⟨⟨fun hret hw => ?_, hagree.returned hne⟩, hfault⟩
  rw [hfault hw] at hret
  exact hret

/-- What evaluation gives as a reference is one to a function or builtin. -/
theorem functional_of_eval {c : Context} (hc : c.Sound) {v : Value} (hv : Evaluable v) {fuel : Nat}
    {name : String} (h : (Engine.ofFuel fuel).eval c v = .ok (.var name)) :
    ∃ b, c.get? name = some b ∧ b.value.isFunctional = true := by
  have hevaluated : Evaluated c (.var name) :=
    (Sure.tree hc (evaluation_ends c) hv).holds h
  cases hevaluated with
  | result hconc => cases hconc
  | reference hb hf => exact ⟨_, hb, hf⟩

/-- In a context whose names are bound to results or builtins, the coercion of an expression returns
an error or a concrete value exactly if it does not come to a modulus whose divisor wraps to zero;
if it does, it stops there with a fault. A reference that evaluation gives is one to a function or
builtin. A concrete value is coerced to itself in every context. -/
theorem coercion_is_concrete_iff {c : Context} (hc : c.Sound) {lines : List String} {src : String}
    {v : Value} {used : Nat} (hv : Reading.parse { lines } src = .ok ⟨v, used⟩) :
    (∃ N, ∀ fuel, N ≤ fuel →
      (Returned ((Engine.ofFuel fuel).coerce c v) ↔ ¬ v.Wraps fuel c) ∧
      (v.Wraps fuel c → (Engine.ofFuel fuel).coerce c v = .error (.fault .zeroDivisor))) ∧
    (∀ fuel name, (Engine.ofFuel fuel).eval c v = .ok (.var name) →
      ∃ b, c.get? name = some b ∧ b.value.isFunctional = true) ∧
    ∀ w, w.isConcrete = true → ∀ d, ∃ N, ∀ fuel, N ≤ fuel →
      (Engine.ofFuel fuel).coerce d w = .ok w := by
  have hev : Evaluable v := (Reading.parse_readable rfl hv).evaluable
  refine ⟨coercion_returns_iff hc hev, fun fuel name => functional_of_eval hc hev, ?_⟩
  intro w hw d
  exact ⟨sizeOf w + 1, fun fuel hfuel => coerce_of_isConcrete Host.none d hw hfuel⟩

/-- A parameter that is bound to a builtin hides the global of its name and stays a reference. -/
theorem coercion_of_parameter_is_concrete :
    let c := { Context.fresh 1024 64 with frames := [[⟨"pi", .builtin .sqrt⟩]] }
    (c.Sound ∧ Reading.parse {} "pi" = .ok ⟨.var "pi", 0⟩) ∧
      (∃ N, ∀ fuel, N ≤ fuel → (Returned ((Engine.ofFuel fuel).coerce c (.var "pi")) ↔
        ¬ (Value.var "pi").Wraps fuel c)) ∧
      ∃ b, c.get? "pi" = some b ∧ b.value.isFunctional = true := by
  intro c
  have hc : c.Sound := by
    refine ⟨(Context.fresh_orderly 1024 64).sound.1, fun frame hframe b hb => ?_⟩
    rw [List.mem_singleton.mp hframe] at hb
    rw [List.mem_singleton.mp hb]
    exact .builtin rfl
  have hv : Reading.parse {} "pi" = .ok ⟨.var "pi", 0⟩ := by cbv
  obtain ⟨⟨N, hN⟩, hname, -⟩ := coercion_is_concrete_iff hc hv
  exact ⟨⟨hc, hv⟩, ⟨N, fun fuel hfuel => (hN fuel hfuel).1⟩, hname 1 "pi" rfl⟩

/-- The product of the denominator and the divisor is 2 to the power of 64. -/
theorem coercion_of_modulus_stops :
    (Context.fresh 1024 64).Sound ∧ ∃ v used,
      Reading.parse {} "1/4294967296 % 4294967296" = .ok ⟨v, used⟩ ∧
      ({} : Engine).coerce (.fresh 1024 64) v = .error (.fault .zeroDivisor) ∧
      ¬ Returned (({} : Engine).coerce (.fresh 1024 64) v) := by
  refine ⟨(Context.fresh_orderly 1024 64).sound, ?_⟩
  have hstop : ({} : Engine).evalText "1/4294967296 % 4294967296" [.maxDepth 1024, .precision 64] =
      .error (.fault .zeroDivisor) := eq_error_of_fault? (by decide +kernel)
  unfold Engine.evalText at hstop
  cases hv : Reading.parse {} "1/4294967296 % 4294967296" with
  | error f =>
    obtain ⟨e, hs, -⟩ := Reading.parse_kind rfl (by decide +kernel) hv
    rw [hv] at hstop
    cases hs.symm.trans (Except.error.inj hstop)
  | ok read =>
    obtain ⟨v, used⟩ := read
    have hcreate : Context.create [.maxDepth 1024, .precision 64] = .ok (.fresh 1024 64) :=
      Context.create_eq_fresh 1024 64
    rw [hv, hcreate] at hstop
    have hfault : ({} : Engine).coerce (.fresh 1024 64) v = .error (.fault .zeroDivisor) := hstop
    refine ⟨v, used, rfl, hfault, ?_⟩
    rw [hfault]
    exact id

/-- With enough fuel lines lead to one context, and the coercion of an expression in it comes to one
end, whatever the fuel. -/
theorem session_coercion_ends (maxDepth : Int) (precision : Precision) (before : List Line)
    {lines : List String} {src : String} {v : Value} {used : Nat}
    (hv : Reading.parse { lines } src = .ok ⟨v, used⟩) :
    ∃ N c result, result ≠ .error .outOfFuel ∧ ∀ fuel, N ≤ fuel →
      (Engine.ofFuel fuel).session (.fresh maxDepth precision) before = c ∧
      (Engine.ofFuel fuel).coerce c v = result := by
  obtain ⟨N, c, hc, hN⟩ := session_settles (Context.fresh_orderly maxDepth precision) before
  have hev : Evaluable v := (Reading.parse_readable rfl hv).evaluable
  obtain ⟨M, result, hresult, hM⟩ := (coercion_ends hc.sound hev).halts
  refine ⟨max N M, c, result, hresult, fun fuel hfuel => ⟨?_, ?_⟩⟩
  · exact hN fuel (Nat.le_trans (Nat.le_max_left N M) hfuel)
  · exact hM fuel (Nat.le_trans (Nat.le_max_right N M) hfuel)

/-- Two functions that call each other, and one of them is applied to itself. -/
theorem session_coercion_ends_of_recursion :
    let before : List Line := [{ text := "f(g) = h(g)" }, { text := "h(g) = g(g)" }]
    let v : Value := .call (.var "f") [.var "f"] false
    Reading.parse {} "f(f)" = .ok ⟨v, 0⟩ ∧
      ∃ N c result, result ≠ .error .outOfFuel ∧ ∀ fuel, N ≤ fuel →
        (Engine.ofFuel fuel).session (.fresh 1024 64) before = c ∧
        (Engine.ofFuel fuel).coerce c v = result := by
  intro before v
  have hv : Reading.parse {} "f(f)" = .ok ⟨v, 0⟩ := by cbv
  exact ⟨hv, session_coercion_ends 1024 64 before hv⟩

end Reckon
