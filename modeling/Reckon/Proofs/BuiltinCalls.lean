import Reckon.Proofs.Calls
import Reckon.Proofs.Finiteness

namespace Reckon

def Coerces (c : Context) (v w : Value) : Prop :=
  ∃ N, ∀ fuel, N ≤ fuel → (Engine.ofFuel fuel).coerce c v = .ok w

variable {c : Context}

theorem Coerces.concrete {w : Value} (hw : w.isConcrete = true) : Coerces c w w :=
  ⟨sizeOf w + 1, fun _ hfuel => coerce_of_isConcrete Host.none c hw hfuel⟩

theorem coerces_all {vs ws : List Value} (h : List.Forall₂ (Coerces c) vs ws) :
    ∃ N, ∀ fuel, N ≤ fuel → vs.mapM ((evaluator Host.none fuel).coerce c) = .ok ws :=
  mapM_eventually h

namespace Evaluates

theorem concrete {w : Value} (hw : w.isConcrete = true) : Evaluates c w w :=
  ⟨sizeOf w, fun _ hfuel => evaluate_of_isConcrete Host.none c hw hfuel⟩

theorem coerces {v w : Value} (h : Evaluates c v w) (hw : w.isConcrete = true) :
    Coerces c v w := by
  obtain ⟨N, hN⟩ := h
  refine ⟨N + 1, fun fuel hfuel => ?_⟩
  obtain ⟨n, rfl⟩ : ∃ n, fuel = n + 1 := ⟨fuel - 1, by omega⟩
  have heval : evaluator Host.none (n + 1) .evaluate c v = .ok w := hN (n + 1) (by omega)
  change (evaluator Host.none (n + 1)).coerce c v = .ok w
  rw [Recur.coerce, heval, ok_bind, settle_of_isConcrete Host.none c hw]

/-- One step more than the step itself takes. -/
theorem step {v w : Value}
    (h : ∃ N, ∀ fuel, N ≤ fuel → (evaluator Host.none fuel).evalStep Host.none c v = .ok w) :
    Evaluates c v w := by
  obtain ⟨N, hN⟩ := h
  refine ⟨N + 1, fun fuel hfuel => ?_⟩
  obtain ⟨n, rfl⟩ : ∃ n, fuel = n + 1 := ⟨fuel - 1, by omega⟩
  exact hN n (by omega)

theorem ne_missing {v w : Value} (h : Evaluates c v w) : v ≠ .missing := by
  rintro rfl
  obtain ⟨N, hN⟩ := h
  cases hN (N + 1) (Nat.le_succ N)

theorem vector {vs ws : List Value} (h : List.Forall₂ (Coerces c) vs ws) :
    Evaluates c (.vector vs) (.vector ws) := by
  obtain ⟨N, hN⟩ := coerces_all h
  refine .step ⟨N, fun fuel hfuel => ?_⟩
  rw [Recur.evalStep, hN fuel hfuel]
  rfl

theorem binary {op : Op} {l r a b w : Value} (hl : Coerces c l a) (hr : Coerces c r b)
    (hw : a.arith c.precision op b = .ok (.ok w)) : Evaluates c (.binary op l r) w := by
  obtain ⟨N, hN⟩ := hl
  obtain ⟨M, hM⟩ := hr
  refine .step ⟨max N M, fun fuel hfuel => ?_⟩
  have hleft : (evaluator Host.none fuel).coerce c l = .ok a :=
    hN fuel (Nat.le_trans (Nat.le_max_left N M) hfuel)
  have hright : (evaluator Host.none fuel).coerce c r = .ok b :=
    hM fuel (Nat.le_trans (Nat.le_max_right N M) hfuel)
  rw [Recur.evalStep, hleft, ok_bind, hright, ok_bind, Recur.arith, hw]
  rfl

end Evaluates

/-- The callee of a call stands for a builtin: it is the builtin, or a name of it. A synthesized
call means the global. -/
inductive Callee (c : Context) (synthesized : Bool) (b : Builtin) : Value → Prop
  | itself : Callee c synthesized b (.builtin b)
  | named {name binding} : (if synthesized then c.global? name else c.get? name) = some binding →
      binding.value = .builtin b → Callee c synthesized b (.var name)

variable {b : Builtin} {synthesized : Bool} {f : Value} {args : List Value}

theorem Callee.evaluate (hf : Callee c synthesized b f) (fuel : Nat) :
    evaluator Host.none (fuel + 2) .evaluate c (.call f args synthesized) =
      (evaluator Host.none (fuel + 1)).callBuiltin Host.none c b args synthesized := by
  cases hf with
  | itself => rfl
  | @named name binding hb hv =>
    obtain ⟨n, w⟩ := binding
    cases hv
    change Recur.apply Host.none _ c (.var name) args synthesized = _
    simp only [Recur.apply, hb]

/-- What a builtin gives is evaluated, and if it comes to something finite that is the value of the
call. -/
theorem Evaluates.call {given w : Value} (hf : Callee c synthesized b f)
    (hb : b.isFunction = true)
    (hrun : ∃ N, ∀ fuel, N ≤ fuel →
      b.run Host.none (evaluator Host.none fuel) c args synthesized = .ok given)
    (hgiven : Evaluates c given w) (hfin : w.isFinite = true) :
    Evaluates c (.call f args synthesized) w := by
  have hpresent := hgiven.ne_missing
  obtain ⟨N, hN⟩ := hrun
  obtain ⟨M, hM⟩ := hgiven
  refine ⟨max N M + 2, fun fuel hfuel => ?_⟩
  obtain ⟨n, rfl⟩ : ∃ n, fuel = n + 2 := ⟨fuel - 2, by omega⟩
  have heval : evaluator Host.none (n + 1) .evaluate c given = .ok w := hM (n + 1) (by omega)
  have hinvoke : evaluator Host.none (n + 2) .evaluate c (.call f args synthesized) =
      (evaluator Host.none (n + 1)).invoke Host.none c b args synthesized := by
    rw [hf.evaluate]
    unfold Recur.callBuiltin
    exact if_pos hb
  change evaluator Host.none (n + 2) .evaluate c _ = _
  rw [hinvoke, Recur.invoke, hN (n + 1) (by omega), ok_bind]
  split
  · exact absurd rfl hpresent
  · rw [heval, ok_bind]
    cases w with
    | number x => exact if_pos hfin
    | _ => rfl

section

variable (name : String)

/-- The arguments of a builtin, once they come to results. -/
theorem coerceArgs_eventually {ws : List Value} (h : List.Forall₂ (Coerces c) args ws) :
    ∃ N, ∀ fuel, N ≤ fuel →
      Builtin.coerceArgs (evaluator Host.none fuel) c name args ws.length = .ok ws := by
  obtain ⟨N, hN⟩ := coerces_all h
  refine ⟨N, fun fuel hfuel => ?_⟩
  rw [Builtin.coerceArgs, Builtin.arity, if_pos h.length_eq]
  exact hN fuel hfuel

theorem vectorArgs_eventually {ess : List (List Value)}
    (h : List.Forall₂ (Coerces c) args (ess.map .vector)) :
    ∃ N, ∀ fuel, N ≤ fuel →
      Builtin.vectorArgs (evaluator Host.none fuel) c name args ess.length = .ok ess := by
  obtain ⟨N, hN⟩ := coerceArgs_eventually name h
  rw [List.length_map] at hN
  refine ⟨N, fun fuel hfuel => ?_⟩
  rw [Builtin.vectorArgs, hN fuel hfuel, ok_bind]
  exact mapM_map_eq fun _ _ => rfl

end

end Reckon
