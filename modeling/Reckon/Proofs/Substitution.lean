import Reckon.Proofs.Fuel

namespace Reckon

open Leeway

/-- What is neither an operation nor a reference: numbers, functions, builtins and vectors of
these. -/
inductive Solid : Value → Prop
  | number (x : Number) : Solid (.number x)
  | func (params : List String) (body : Value) : Solid (.func params body)
  | builtin (b : Builtin) : Solid (.builtin b)
  | vector {elems} : (∀ v ∈ elems, Solid v) → Solid (.vector elems)

theorem Numeric.solid {v : Value} (h : Numeric v) : Solid v := by
  induction h with
  | number x => exact .number x
  | vector _ ih => exact .vector ih

theorem Numeric.isConcrete {v : Value} (h : Numeric v) : v.isConcrete = true := by
  induction h with
  | number => rfl
  | vector _ ih => exact Value.areConcrete_iff.mpr ih

theorem Numeric.isReference {v : Value} (h : Numeric v) : v.isReference = false := by
  cases h <;> rfl

theorem Numeric.ne_missing {v : Value} (h : Numeric v) : v ≠ .missing := by
  cases h <;> simp

theorem Concrete.solid {v : Value} (h : Concrete v) : Solid v := by
  induction h with
  | number => exact .number _
  | func => exact .func _ _
  | builtin => exact .builtin _
  | vector _ ih => exact .vector ih

theorem Held.solid {v : Value} (h : Held v) : Solid v := by
  cases h with
  | result hv => exact hv.solid
  | builtin => exact .builtin _

theorem Solid.elem {elems : List Value} {v : Value} (h : Solid (.vector elems)) (hv : v ∈ elems) :
    Solid v := by
  cases h with
  | vector hall => exact hall v hv

/-- What an evaluation comes to: something solid, or a reference. -/
def Final (v : Value) : Prop := Solid v ∨ v.isReference = true

theorem solid_of_settled {v : Value} (h : Settled Final v) : Solid v := by
  rcases h with ⟨hv | hv, hr⟩
  · exact hv
  · simp [hr] at hv

theorem forms_final : Forms (fun _ => True) Final fun _ => True where
  literal := by
    intro v _ hv
    cases v with
    | number | func | builtin => exact .inl (by constructor)
    | _ => cases hv
  reference _ := .inr rfl
  again _ := trivial
  numeric hv := .inl hv.solid
  vector h := .inl (.vector fun v hv => solid_of_settled (h v hv))
  elem := by
    rintro elems v (h | h) hv
    · exact .inl (h.elem hv)
    · cases h
  body _ := trivial
  call _ _ := trivial
  absent := trivial
  binary := by simp
  unary _ := trivial
  elements := by simp
  args _ _ _ := trivial
  callee _ _ := trivial
  synthesized _ _ _ := trivial

/-- The names that can be seen are bound to solid values. -/
structure Context.Firm (c : Context) : Prop where
  locals : ∀ name b, c.local? name = some b → Solid b.value
  globals : ∀ name b, c.global? name = some b → Solid b.value

/-- Evaluation does not depend on the frames of callers. -/
theorem lockstep_callers :
    Lockstep .exact (fun _ => True) Final Solid (fun _ => True)
      (fun c d => c.AgreesOn Set.univ d ∧ c.Firm) where
  forms := forms_final
  precision h := h.1.precision
  sees := by
    intro c d h
    refine ⟨fun {name} _ => ?_, fun {name b} _ hb => ?_, .inl, solid_of_settled⟩
    · rw [Context.get?_eq, Context.get?_eq, h.1.locals name trivial, h.1.globals name trivial]
    · rw [Context.get?_eq] at hb
      rcases Option.or_eq_some_iff.mp hb with hb | ⟨-, hb⟩
      · exact h.2.locals name b hb
      · exact h.2.globals name b hb
  globally h _ := ⟨h.1.globals _ trivial, h.2.globals _⟩
  frame h := Context.opened_pairs h.1.maxDepth h.1.depth
  calling h hbs :=
    ⟨h.1.calling _, fun _ b hb => hbs b (Context.mem_of_findBinding? hb), h.2.globals⟩

namespace Value

mutual

/-- The tree with what a frame binds in place of the variables. A name that a synthesized call means
stays, and so do functions. -/
def instantiate (frame : List Binding) : Value → Value
  | .var name =>
    match findBinding? name frame with
    | some b => b.value
    | none => .var name
  | .binary op l r => .binary op (l.instantiate frame) (r.instantiate frame)
  | .unary op x => .unary op (x.instantiate frame)
  | .call callee args synthesized =>
    .call (if synthesized && callee.isReference then callee else callee.instantiate frame)
      (instantiateAll frame args) synthesized
  | .vector elems => .vector (instantiateAll frame elems)
  | v => v

def instantiateAll (frame : List Binding) : List Value → List Value
  | [] => []
  | v :: vs => v.instantiate frame :: instantiateAll frame vs

end

attribute [local simp] instantiate instantiateAll

variable {frame : List Binding}

theorem instantiateAll_eq_map (vs : List Value) :
    instantiateAll frame vs = vs.map (instantiate frame) := by
  induction vs with
  | nil => rfl
  | cons v vs ih => simp [ih]

theorem instantiate_of_bound {name : String} {b : Binding} (h : findBinding? name frame = some b) :
    (Value.var name).instantiate frame = b.value := by
  simp [h]

theorem instantiate_of_free {name : String} (h : findBinding? name frame = none) :
    (Value.var name).instantiate frame = .var name := by
  simp [h]

theorem instantiate_of_solid {v : Value} (h : Solid v) : v.instantiate frame = v := by
  induction h with
  | number | func | builtin => simp
  | @vector elems _ ih =>
    have hmap : elems.map (instantiate frame) = elems := (List.map_congr_left ih).trans (by simp)
    simp [instantiateAll_eq_map, hmap]

theorem forall₂_instantiateAll (vs : List Value) :
    List.Forall₂ (fun v w => w = v.instantiate frame) vs (instantiateAll frame vs) := by
  rw [instantiateAll_eq_map, List.forall₂_map_right_iff]
  exact List.forall₂_same.mpr fun _ _ => rfl

end Value

/-- All that a frame binds is numeric. -/
def NumericFrame (frame : List Binding) : Prop := ∀ b ∈ frame, Numeric b.value

/-- `w` is `v` with what the frame binds in place of variables. -/
def Instance (frame : List Binding) (v w : Value) : Prop := w = v.instantiate frame

/-- What an evaluation inside the call comes to: something solid, or a name that the frame does not
bind. -/
def FinalOutside (frame : List Binding) (v : Value) : Prop :=
  Solid v ∨ ∃ name, findBinding? name frame = none ∧ v = .var name

theorem FinalOutside.free {frame : List Binding} {name : String}
    (h : FinalOutside frame (.var name)) : findBinding? name frame = none := by
  rcases h with h | ⟨_, hfree, he⟩
  · cases h
  · cases he
    exact hfree

theorem FinalOutside.solid {frame : List Binding} {v : Value} (h : Settled (FinalOutside frame) v) :
    Solid v := by
  rcases h with ⟨h | ⟨name, -, rfl⟩, hr⟩
  · exact h
  · cases hr

theorem FinalOutside.instantiate {frame : List Binding} {v : Value} (h : FinalOutside frame v) :
    v.instantiate frame = v := by
  rcases h with h | ⟨name, hfree, rfl⟩
  · exact Value.instantiate_of_solid h
  · exact Value.instantiate_of_free hfree

theorem instance_matching {frame : List Binding} (hframe : NumericFrame frame) :
    Matching (Instance frame) (FinalOutside frame) where
  numeric hv := .inl hv.solid
  vector h := .inl (.vector fun v hv => FinalOutside.solid (h v hv))
  elem := by
    rintro elems v (h | ⟨name, -, he⟩) hv
    · exact .inl (h.elem hv)
    · cases he
  again h := h.instantiate.symm
  missing := by
    rintro v _ rfl
    cases v with
    | var name =>
      cases hb : findBinding? name frame with
      | none => simp [Value.instantiate, hb]
      | some b =>
        have hn := (hframe b (Context.mem_of_findBinding? hb)).ne_missing
        simp [Value.instantiate_of_bound hb, hn]
    | _ => simp [Value.instantiate]
  absent := rfl
  binary := by
    rintro op a _ b _ rfl rfl
    simp [Instance, Value.instantiate]
  elements := by
    intro vs ws h
    have hws : ws = vs.map (Value.instantiate frame) := by
      induction h with
      | nil => rfl
      | cons hv _ ih => rw [List.map_cons, ← ih, hv]
    simp [Instance, Value.instantiate, Value.instantiateAll_eq_map, hws]
  call := by
    intro f x hf hx
    simp [Instance, Value.instantiate, Value.instantiateAll, hf.instantiate, hx.instantiate]

/-- Running out of fuel counts for nothing, and of an error its kind alone counts. -/
def Leeway.kinds : Leeway where
  left := (· = .outOfFuel)
  right := (· = .outOfFuel)
  alike s t := s = t ∨ ∃ e f : Error, s = .error e ∧ t = .error f ∧ e.kind = f.kind
  refl _ := .inl rfl

theorem Recur.evalStep_call {ev : Recur} {c : Context} {f : Value} (hr : f.isReference = false)
    (hm : f ≠ .missing) (args : List Value) (synthesized : Bool) :
    ev.evalStep Host.none c (.call f args synthesized) =
      ev .evaluate c f >>= fun g => ev.apply Host.none c g args synthesized := by
  cases f with
  | missing => exact absurd rfl hm
  | var => cases hr
  | _ => rfl

section

variable {c : Context} (hc : c.Sound) {frame : List Binding}
include hc

theorem callers_agree {bs : List Binding} (hbs : ∀ b ∈ bs, Solid b.value) :
    ((c.calling frame).calling bs).AgreesOn Set.univ ((c.calling []).calling bs) ∧
      ((c.calling frame).calling bs).Firm :=
  ⟨⟨rfl, rfl, rfl, fun _ _ => rfl, fun _ _ => rfl, rfl⟩,
    fun _ b hb => hbs b (Context.mem_of_findBinding? hb),
    fun name b (hb : c.global? name = some b) => (hc.global? hb).solid⟩

omit hc in
theorem get?_of_bound {name : String} {b : Binding} (h : findBinding? name frame = some b) :
    (c.calling frame).get? name = some b := by
  change (findBinding? name frame).or (c.global? name) = some b
  rw [h, Option.some_or]

omit hc in
theorem get?_of_free {name : String} (h : findBinding? name frame = none) :
    (c.calling frame).get? name = c.global? name := by
  change (findBinding? name frame).or (c.global? name) = c.global? name
  rw [h, Option.none_or]

theorem opens_outside (fuel : Nat) (body : Value) :
    Opens .kinds Final Solid (evaluator Host.none fuel) (evaluator Host.none fuel)
      (c.calling frame) (c.calling []) body where
  frame := Context.opened_pairs rfl rfl
  evaluate hbs :=
    ((lockstep_callers.abreast (callers_agree hc hbs) fuel).evaluate ⟨rfl, trivial⟩).ofExact
  sees hbs := lockstep_callers.sees (callers_agree hc hbs)

theorem sees_outside : Sees (FinalOutside frame) Solid (c.calling frame) (c.calling []) where
  lookup := by
    intro name hname
    exact get?_of_free hname.free
  bound := by
    intro name b hname hb
    rw [get?_of_free hname.free] at hb
    exact (hc.global? hb).solid
  result := .inl
  settled := FinalOutside.solid

variable (hframe : NumericFrame frame) {fuel : Nat}

omit hc in
include hframe in
/-- A parameter evaluates to its value, and so does the value in its place. -/
theorem evalParameter {name : String} {b : Binding} (hb : findBinding? name frame = some b) :
    Leeway.kinds.Pairs (Both (FinalOutside frame))
      ((evaluator Host.none fuel).evalStep Host.none (c.calling frame) (.var name))
      ((evaluator Host.none fuel).evalStep Host.none (c.calling []) b.value) := by
  have hw : Numeric b.value := hframe b (Context.mem_of_findBinding? hb)
  have hname : (evaluator Host.none fuel).evalStep Host.none (c.calling frame) (.var name) =
      evaluator Host.none fuel .evaluate (c.calling frame) b.value := by
    simp only [Recur.evalStep, Recur.evalName, get?_of_bound hb]
    obtain ⟨n, w⟩ := b
    cases hw <;> rfl
  rw [hname]
  rcases evaluate_concrete_or hw.isConcrete fuel (c.calling frame) with he | he
  · rw [he]
    rcases evaluate_concrete_or hw.isConcrete (fuel + 1) (c.calling []) with he | he
    · rw [show Recur.evalStep Host.none _ _ _ = _ from he]
      exact .ok (.inl hw.solid)
    · rw [show Recur.evalStep Host.none _ _ _ = _ from he]
      exact .right rfl
  · rw [he]
    exact .left rfl

variable
  (h : Abreast .kinds (Instance frame) (FinalOutside frame) (evaluator Host.none fuel)
    (evaluator Host.none fuel) (c.calling frame) (c.calling []))
include hframe h

omit hc in
/-- A parameter that is called multiplies, and so does the number in its place. -/
theorem applyParameter {name : String} {b : Binding} (hb : findBinding? name frame = some b)
    {args args' : List Value} (hargs : List.Forall₂ (Instance frame) args args') :
    Leeway.kinds.Pairs (Both (FinalOutside frame))
      ((evaluator Host.none fuel).evalStep Host.none (c.calling frame)
        (.call (.var name) args false))
      ((evaluator Host.none fuel).evalStep Host.none (c.calling [])
        (.call b.value args' false)) := by
  have hw : Numeric b.value := hframe b (Context.mem_of_findBinding? hb)
  have hget := get?_of_bound hb (c := c)
  obtain ⟨n, w⟩ := b
  have hscale : ∀ arg arg', Instance frame arg arg' →
      Leeway.kinds.Pairs (Both (FinalOutside frame))
        ((evaluator Host.none fuel).coerce (c.calling frame) w >>= fun x =>
          (evaluator Host.none fuel).multiply (c.calling frame) x arg)
        ((evaluator Host.none fuel).multiply (c.calling []) w arg') := by
    intro arg arg' harg
    rcases coerce_concrete_or hw.isConcrete fuel (c.calling frame) with he | he
    · rw [he]
      exact h.multiply (instance_matching hframe) w harg
    · rw [he]
      exact .left rfl
  have halike : ∀ cause, cause.kind = .type → Leeway.kinds.alike (.ofCause (.notFunction name))
      (.ofCause cause) := fun cause hk => .inr ⟨_, _, rfl, rfl, hk.symm⟩
  rw [Recur.evalStep_call hw.isReference hw.ne_missing]
  simp only [Recur.evalStep, Recur.apply, hget]
  rcases evaluate_concrete_or hw.isConcrete fuel (c.calling []) with he | he
  · rw [he]
    cases hw with
    | number => exact Abreast.single (halike _ rfl) hscale hargs
    | vector => exact Abreast.single (halike _ rfl) hscale hargs
  · rw [he]
    exact .right rfl

theorem evalCall_outside (f : Value) (args : List Value) (synthesized : Bool) :
    Leeway.kinds.Pairs (Both (FinalOutside frame))
      ((evaluator Host.none fuel).evalStep Host.none (c.calling frame) (.call f args synthesized))
      ((evaluator Host.none fuel).evalStep Host.none (c.calling [])
        ((Value.call f args synthesized).instantiate frame)) := by
  have m := instance_matching hframe
  have s : Sees (FinalOutside frame) Solid (c.calling frame) (c.calling []) := sees_outside hc
  have o : ∀ {params body}, FinalOutside frame (.func params body) → Opens .kinds Final Solid
      (evaluator Host.none fuel) (evaluator Host.none fuel) (c.calling frame) (c.calling []) body :=
    fun _ => opens_outside hc fuel _
  have hargs : List.Forall₂ (Instance frame) args (Value.instantiateAll frame args) :=
    Value.forall₂_instantiateAll args
  have hcomputed : f.isReference = false → f ≠ .missing →
      Leeway.kinds.Pairs (Both (FinalOutside frame))
        ((evaluator Host.none fuel).evalStep Host.none (c.calling frame) (.call f args synthesized))
        ((evaluator Host.none fuel).evalStep Host.none (c.calling [])
          ((Value.call f args synthesized).instantiate frame)) := by
    intro hr hm
    have hf : (f.instantiate frame).isReference = false ∧ f.instantiate frame ≠ .missing := by
      cases f with
      | missing => exact absurd rfl hm
      | var => cases hr
      | _ => simp [Value.instantiate, Value.isReference]
    simp only [Value.instantiate, hr, Bool.and_false, Bool.false_eq_true, ↓reduceIte]
    rw [Recur.evalStep_call hr hm, Recur.evalStep_call hf.1 hf.2]
    refine (h.evaluate (rfl : Instance frame f _)).bindBoth fun g hg => ?_
    exact h.apply m s o hargs hg fun _ name _ => ⟨rfl, fun b hb => (hc.global? hb).solid⟩
  cases f with
  | missing =>
    simp only [Value.instantiate, Value.isReference, Bool.and_false, Bool.false_eq_true, ↓reduceIte]
    exact .stop _
  | var name =>
    cases synthesized with
    | true => exact h.applyName m s o hargs rfl fun b hb => (hc.global? hb).solid
    | false =>
      cases hb : findBinding? name frame with
      | none =>
        have hname : FinalOutside frame (.var name) := .inr ⟨name, hb, rfl⟩
        simp only [Value.instantiate, hb, Bool.false_and, Bool.false_eq_true, ↓reduceIte]
        exact h.applyName m s o hargs (s.lookup hname) fun _ => s.bound hname
      | some b =>
        simp only [Value.instantiate, hb, Bool.false_and, Bool.false_eq_true, ↓reduceIte]
        exact applyParameter hframe h hb hargs
  | _ => exact hcomputed rfl (by simp)

theorem evalStep_outside (v : Value) :
    Leeway.kinds.Pairs (Both (FinalOutside frame))
      ((evaluator Host.none fuel).evalStep Host.none (c.calling frame) v)
      ((evaluator Host.none fuel).evalStep Host.none (c.calling []) (v.instantiate frame)) := by
  have m := instance_matching hframe
  cases v with
  | number | func | builtin => exact .ok (.inl (by constructor))
  | error e => exact .stop _
  | binary op a b => exact h.evalBinary m op rfl rfl
  | unary op a => exact h.evalUnary m op rfl
  | call f args synthesized => exact evalCall_outside hc hframe h f args synthesized
  | var name =>
    cases hb : findBinding? name frame with
    | none =>
      rw [Value.instantiate_of_free hb]
      exact h.evalName m (sees_outside hc) (.inr ⟨name, hb, rfl⟩)
    | some b =>
      rw [Value.instantiate_of_bound hb]
      exact evalParameter hframe hb
  | vector elems => exact h.evalVector m (Value.forall₂_instantiateAll elems)
  | missing | placeholder | endOfInput | unknown => exact .refuse _

omit h in
/-- By induction on the fuel: one step of evaluation inside the call and one of the instance. -/
theorem instance_abreast (fuel : Nat) :
    Abreast .kinds (Instance frame) (FinalOutside frame) (evaluator Host.none fuel)
      (evaluator Host.none fuel) (c.calling frame) (c.calling []) := by
  induction fuel with
  | zero => exact ⟨rfl, fun _ => .stop _, fun _ => .stop _⟩
  | succ fuel ih =>
    refine ⟨rfl, ?_, fun hv => ih.settleStep (instance_matching hframe) (sees_outside hc) hv⟩
    rintro v _ rfl
    exact evalStep_outside hc hframe ih v

end

end Reckon
