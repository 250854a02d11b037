import Reckon.Proofs.Substitution

namespace Reckon

/-- What evaluation comes to in any context: something concrete, a builtin, or a reference to a
function or builtin. -/
inductive Outcome (c : Context) : Value → Prop
  | concrete {w} : w.isConcrete = true → Outcome c w
  | builtin (b : Builtin) : Outcome c (.builtin b)
  | reference {name b} : c.get? name = some b → b.value.isFunctional = true →
      Outcome c (.var name)

/-- An evaluator whose results are of the forms above, whatever the context and the host. -/
structure Recur.Settles (ev : Recur) : Prop where
  evaluate : ∀ {c v w}, ev .evaluate c v = .ok w → Outcome c w
  settle : ∀ {c v w}, Outcome c v → ev .settle c v = .ok w → w.isConcrete = true

namespace Recur

variable {host : Host} {ev : Recur} {c : Context} {b : Builtin} {args : List Value}
  {synthesized : Bool} {r : Value}

/-- What a builtin gives is evaluated, and the check lets a number through only if it is finite. -/
theorem invoke_eq_ok (h : ev.invoke host c b args synthesized = .ok r) :
    (∃ w, b.run host ev c args synthesized = .ok w ∧ ev .evaluate c w = .ok r) ∧
      ∀ x, r = .number x → x.isFinite = true := by
  obtain ⟨w, hw, h⟩ := bind_eq_ok_iff.mp h
  split at h
  · cases h
  · obtain ⟨r', hr, h⟩ := bind_eq_ok_iff.mp h
    split at h
    · next x =>
      split at h
      · next hx =>
        cases h
        refine ⟨⟨w, hw, hr⟩, fun y hy => ?_⟩
        cases hy
        exact hx
      · cases h
    · next hne =>
      cases h
      exact ⟨⟨w, hw, hr⟩, fun x hx => absurd hx (hne x)⟩

theorem isConcrete_of_arith {op : Op} {x y : Value} (h : arith c op x y = .ok r) :
    r.isConcrete = true :=
  (numeric_of_ofAnswer (Value.arith_givesNumeric _ _ _ _) h).isConcrete

theorem outcome_of_deliver {v : Value} (hv : v.isFunctional = true) (h : deliver v = .ok r) :
    Outcome c r := by
  cases v with
  | func params body =>
    cases h
    exact .concrete rfl
  | builtin b =>
    cases h
    exact .builtin b
  | _ => cases hv

namespace Settles

variable (h : ev.Settles)
include h

theorem coerce {v w : Value} (hw : ev.coerce c v = .ok w) : w.isConcrete = true := by
  obtain ⟨u, hu, hw⟩ := bind_eq_ok_iff.mp hw
  exact h.settle (h.evaluate hu) hw

omit h in
theorem multiply {x arg : Value} (hr : ev.multiply c x arg = .ok r) : Outcome c r := by
  obtain ⟨y, -, hr⟩ := bind_eq_ok_iff.mp hr
  exact .concrete (isConcrete_of_arith hr)

theorem invoke (hr : ev.invoke host c b args synthesized = .ok r) : Outcome c r := by
  obtain ⟨⟨w, -, hw⟩, -⟩ := invoke_eq_ok hr
  exact h.evaluate hw

theorem callBuiltin (hr : ev.callBuiltin host c b args synthesized = .ok r) : Outcome c r := by
  unfold Recur.callBuiltin at hr
  split at hr
  · exact h.invoke hr
  · split at hr
    · exact h.invoke hr
    · obtain ⟨x, -, hr⟩ := bind_eq_ok_iff.mp hr
      exact multiply hr
    · cases hr

/-- A reference that the body comes to is one in the frame of the call, and is resolved there. -/
theorem enter {params : List String} {body : Value} {vals : List Value}
    (hr : ev.enter c params body vals = .ok r) : Outcome c r := by
  obtain ⟨inside, -, hr⟩ := bind_eq_ok_iff.mp hr
  obtain ⟨bound, -, hr⟩ := bind_eq_ok_iff.mp hr
  obtain ⟨x, hx, hr⟩ := bind_eq_ok_iff.mp hr
  have houtcome := h.evaluate hx
  cases houtcome with
  | concrete hw =>
    cases x with
    | var => cases hw
    | _ =>
      cases hr
      exact .concrete hw
  | builtin b =>
    cases hr
    exact .builtin b
  | reference hb hf =>
    simp only [resolve, hb] at hr
    exact outcome_of_deliver hf hr

theorem callFunc {params : List String} {body : Value}
    (hr : ev.callFunc c params body args = .ok r) : Outcome c r := by
  rw [callFunc_eq] at hr
  split at hr
  · cases hr
  · obtain ⟨vals, -, hr⟩ := bind_eq_ok_iff.mp hr
    exact h.enter hr

theorem apply {callee : Value} (hr : ev.apply host c callee args synthesized = .ok r) :
    Outcome c r := by
  cases callee with
  | var name =>
    unfold Recur.apply at hr
    dsimp only at hr
    generalize (if synthesized then c.global? name else c.get? name) = found at hr
    split at hr
    · cases hr
    · exact h.callFunc hr
    · exact h.callBuiltin hr
    · cases hr
    · split at hr
      · obtain ⟨x, -, hr⟩ := bind_eq_ok_iff.mp hr
        exact multiply hr
      · cases hr
  | func params body => exact h.callFunc hr
  | builtin b => exact h.callBuiltin hr
  | number | vector =>
    unfold Recur.apply at hr
    dsimp only at hr
    split at hr
    · exact multiply hr
    · cases hr
  | _ => cases hr

theorem evalName {name : String} (hr : ev.evalName c name = .ok r) : Outcome c r := by
  unfold Recur.evalName at hr
  split at hr
  · cases hr
  · next hb =>
    cases hr
    exact .reference hb rfl
  · next hb =>
    cases hr
    exact .reference hb rfl
  · cases hr
  · exact h.evaluate hr

theorem evalStep {v : Value} (hr : ev.evalStep host c v = .ok r) : Outcome c r := by
  cases v with
  | number | func =>
    cases hr
    exact .concrete rfl
  | builtin b =>
    cases hr
    exact .builtin b
  | binary op l r =>
    obtain ⟨a, -, hr⟩ := bind_eq_ok_iff.mp hr
    obtain ⟨b, -, hr⟩ := bind_eq_ok_iff.mp hr
    exact .concrete (isConcrete_of_arith hr)
  | unary op x =>
    obtain ⟨a, -, hr⟩ := bind_eq_ok_iff.mp hr
    exact .concrete (numeric_of_ofAnswer (Value.unaryOp_givesNumeric op a) hr).isConcrete
  | call f args synthesized =>
    cases f with
    | missing => cases hr
    | var name =>
      have hr : ev.apply host c (.var name) args synthesized = .ok r := hr
      exact h.apply hr
    | _ =>
      obtain ⟨callee, -, hr⟩ := bind_eq_ok_iff.mp hr
      exact h.apply hr
  | var name => exact h.evalName hr
  | vector elems =>
    obtain ⟨ws, hws, hr⟩ := bind_eq_ok_iff.mp hr
    cases hr
    have hall := forall_of_mapM hws fun v _ w hw => h.coerce hw
    exact .concrete (Value.areConcrete_iff.mpr hall)
  | _ => cases hr

theorem settleStep {v : Value} (hv : Outcome c v) (hr : ev.settleStep host c v = .ok r) :
    r.isConcrete = true := by
  have hbuiltin : ∀ {w : Value} {b : Builtin}, (b.isFunction = true → w = .builtin b) →
      (if b.isFunction then .ok w else do ev .settle c (← ev.invoke host c b [] false)) = .ok r →
      r.isConcrete = true := by
    intro w b hw hr
    split at hr
    · next hf =>
      cases hr
      rw [hw hf]
      exact hf
    · obtain ⟨u, hu, hr⟩ := bind_eq_ok_iff.mp hr
      exact h.settle (h.invoke hu) hr
  cases hv with
  | concrete hw =>
    cases v with
    | number | func | vector =>
      cases hr
      exact hw
    | builtin b => exact hbuiltin (fun _ => rfl) hr
    | _ => cases hw
  | builtin b => exact hbuiltin (fun _ => rfl) hr
  | @reference name b hb hf =>
    obtain ⟨n, w⟩ := b
    simp only [Recur.settleStep, hb] at hr
    cases w with
    | func params body =>
      cases hr
      rfl
    | builtin b => exact hbuiltin (fun _ => rfl) hr
    | _ => cases hf

end Settles

end Recur

/-- By induction on the fuel: one step of evaluation, or of settling what was evaluated. -/
theorem evaluator_settles (host : Host) (fuel : Nat) : (evaluator host fuel).Settles := by
  induction fuel with
  | zero => exact ⟨nofun, fun _ => nofun⟩
  | succ fuel ih => exact ⟨fun hw => ih.evalStep hw, fun hv hw => ih.settleStep hv hw⟩

section

variable {host : Host} {fuel : Nat} {c : Context} {w r : Value}

theorem eq_of_settle_concrete (hw : w.isConcrete = true)
    (h : evaluator host fuel .settle c w = .ok r) : r = w := by
  cases fuel with
  | zero => cases h
  | succ fuel => exact Except.ok.inj (h.symm.trans (settle_of_isConcrete host c hw fuel))

/-- A concrete value is evaluated to nothing but itself. By induction on the fuel, since the
elements of a vector are coerced in turn. -/
theorem eq_of_evaluate_concrete (hw : w.isConcrete = true)
    (h : evaluator host fuel .evaluate c w = .ok r) : r = w := by
  induction fuel generalizing w r with
  | zero => cases h
  | succ fuel ih =>
    cases w with
    | number | func | builtin => exact (Except.ok.inj h).symm
    | vector elems =>
      obtain ⟨rs, hrs, h⟩ := bind_eq_ok_iff.mp h
      cases h
      have hself : List.Forall₂ Eq rs elems := by
        refine (forall₂_of_mapM hrs fun v hv u hu => ?_).flip
        obtain ⟨e, he, hsettled⟩ := bind_eq_ok_iff.mp hu
        have hconc := Value.areConcrete_iff.mp hw v hv
        obtain rfl := ih hconc he
        exact eq_of_settle_concrete hconc hsettled
      rw [List.forall₂_eq_eq_eq] at hself
      rw [hself]
    | _ => cases hw

theorem eq_of_coerce_concrete (hw : w.isConcrete = true)
    (h : (evaluator host fuel).coerce c w = .ok r) : r = w := by
  obtain ⟨u, hu, hsettled⟩ := bind_eq_ok_iff.mp h
  obtain rfl := eq_of_evaluate_concrete hw hu
  exact eq_of_settle_concrete hw hsettled

end

end Reckon
