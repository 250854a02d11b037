import Reckon.Proofs.BuiltinRuns

namespace Reckon

/-- How many more calls may be opened inside those of a context. -/
def Context.room (c : Context) : Nat := (c.maxDepth - c.frames.length).toNat

namespace Context

/-- A call sees what its caller may bind parameters to, and has less room. -/
theorem withLocals_of_push {c d : Context} (h : c.push = .ok d) (hc : c.Sound) {bs : List Binding}
    (hbs : ∀ b ∈ bs, Held b.value) :
    (d.withLocals bs).Sound ∧ (d.withLocals bs).room < c.room := by
  obtain ⟨hroom, rfl⟩ := push_eq_ok_iff.mp h
  refine ⟨⟨hc.1, fun frame hframe b hb => ?_⟩, ?_⟩
  · rcases List.mem_cons.mp hframe with rfl | hframe
    · exact hbs b (by simpa using hb)
    · exact hc.2 frame hframe b hb
  · simp only [room, withLocals, List.length_cons]
    omega

end Context

/-- No name is bound to an error. -/
theorem Held.deliver {v : Value} (h : Held v) : Recur.deliver v = .ok v := by
  cases h with
  | result hv => cases hv <;> rfl
  | builtin => rfl

theorem Evaluated.ne_missing {c : Context} {v : Value} (h : Evaluated c v) : v ≠ .missing := by
  intro he
  subst he
  cases h with
  | result hv => cases hv

/-- Evaluation comes to an end in every context that has less room. -/
def EndsBelow (c : Context) : Prop :=
  ∀ d v, d.Sound → Evaluable v → d.room < c.room →
    Sure (Evaluated d) (fun ev => ev .evaluate d v)

namespace Sure

open Recur

variable {c : Context}

theorem result {F : Recur → Result} (h : Sure Concrete F) : Sure (Evaluated c) F :=
  h.mono fun _ hv => .result hv

variable (hc : c.Sound)
include hc

theorem resolve (name : String) : Sure Held (fun _ => Recur.resolve c name) := by
  unfold Recur.resolve
  cases hb : c.get? name with
  | none => exact .refuse rfl
  | some b =>
    have hv := hc.get? hb
    simp only [hv.deliver]
    exact .ok hv

theorem argument {v : Value} (hv : Evaluated c v) : Sure Held (fun _ => Recur.argument c v) := by
  cases hv with
  | result hv =>
    have hok : Recur.argument c v = .ok v := by cases hv <;> rfl
    simp only [hok]
    exact .ok (.result hv)
  | builtin hb => exact .ok (.builtin hb)
  | reference => exact .resolve hc _

omit hc in
theorem settleBuiltin {b : Builtin} (hs : b.isStandard = true) :
    Sure Concrete (fun ev => if b.isFunction then .ok (.builtin b)
      else do ev .settle c (← ev.invoke Host.none c b [] false)) := by
  by_cases hf : b.isFunction = true
  · simp only [hf, ↓reduceIte]
    exact .ok (.builtin hs hf)
  · simp only [hf, Bool.false_eq_true, ↓reduceIte]
    exact (Sure.constant hs (by simpa using hf)).bind fun _ hr => .settleConcrete hr

theorem settleEvaluated {v : Value} (hv : Evaluated c v) :
    Sure Concrete (fun ev => ev .settle c v) := by
  cases hv with
  | result hv => exact .settleConcrete hv
  | builtin hb => exact .settle (.settleBuiltin hb)
  | @reference name b hb hfun =>
    refine .settle ?_
    obtain ⟨n, w⟩ := b
    simp only [settleStep, hb]
    have hw := hc.get? hb
    cases hw with
    | builtin hs => exact .settleBuiltin hs
    | result hw =>
      cases hw with
      | func hbody => exact .ok (.func hbody)
      | builtin hs _ => exact .settleBuiltin hs
      | _ => cases hfun

theorem coerced {v : Value} (h : Sure (Evaluated c) (fun ev => ev .evaluate c v)) :
    Sure Concrete (fun ev => ev.coerce c v) :=
  h.bind fun _ hw => .settleEvaluated hc hw

omit hc in
/-- What is done with a single argument. -/
theorem single {P : Value → Prop} (F : Recur → Value → Result) (cause : Cause)
    (hcause : cause.kind.isOrdinary = true) (args : List Value) :
    (∀ arg ∈ args, Sure P (fun ev => F ev arg)) →
      Sure P (fun ev => match args with
        | [arg] => F ev arg
        | _ => Recur.refuse cause) := by
  intro h
  split
  · next arg => exact h arg (by simp)
  · exact .refuse hcause

theorem multiplied {x arg : Value} (hx : Concrete x)
    (harg : Sure (Evaluated c) (fun ev => ev .evaluate c arg)) :
    Sure Concrete (fun ev => ev.multiply c x arg) :=
  (Sure.coerced hc harg).bind fun _ hy => .arith rfl (by decide) hx hy

/-- A name of a function or builtin stays a reference to it. -/
theorem name (name : String) : Sure (Evaluated c) (fun ev => ev .evaluate c (.var name)) := by
  refine .evaluate ?_ (by simp)
  simp only [evalStep, evalName]
  cases hb : c.get? name with
  | none => exact .refuse rfl
  | some b =>
    obtain ⟨n, w⟩ := b
    have hw : Held w := hc.get? hb
    cases hw with
    | builtin => exact .ok (.reference hb rfl)
    | result hw =>
      cases hw with
      | number hx => exact .result (.concrete (.number hx))
      | vector hx => exact .result (.concrete (.vector hx))
      | func => exact .ok (.reference hb rfl)
      | builtin => exact .ok (.reference hb rfl)

/-- What is evaluated may be evaluated again. -/
theorem again {v : Value} (hv : Evaluated c v) :
    Sure (Evaluated c) (fun ev => ev .evaluate c v) := by
  cases hv with
  | result hv => exact .result (.concrete hv)
  | builtin hs => exact .evaluate (.ok (.builtin hs)) (by simp)
  | reference => exact .name hc _

section

variable {args : List Value} (hargs : ∀ a ∈ args, Sure (Evaluated c) (fun ev => ev .evaluate c a))
include hargs

theorem callBuiltin {b : Builtin} (hs : b.isStandard = true) {synthesized : Bool}
    (hmap : Sure (Given c) (fun ev => Builtin.map.run Host.none ev c args synthesized)) :
    Sure (Evaluated c) (fun ev => ev.callBuiltin Host.none c b args synthesized) := by
  apply Sure.result
  unfold Recur.callBuiltin
  by_cases hf : b.isFunction = true
  · simp only [hf, ↓reduceIte]
    apply Sure.invoke
    by_cases hm : b = .map
    · rw [hm]
      exact hmap
    · exact .run hs hm (fun a ha => .coerced hc (hargs a ha)) synthesized
  · simp only [hf, Bool.false_eq_true, ↓reduceIte]
    have hf : b.isFunction = false := by simpa using hf
    split
    · exact .constant hs hf
    · next arg =>
      exact (Sure.constant hs hf).bind fun _ hx => .multiplied hc hx (hargs arg (by simp))
    · exact .refuse rfl

/-- The parameters are bound before the body is evaluated, and a reference that it gives is resolved
while they still are. -/
theorem callFunc (hdeep : EndsBelow c) {params : List String} {body : Value}
    (hbody : Evaluable body) :
    Sure (Evaluated c) (fun ev => ev.callFunc c params body args) := by
  unfold Recur.callFunc
  by_cases hlen : args.length = params.length
  · simp only [hlen, ne_eq, not_true_eq_false, ↓reduceIte]
    refine (Sure.mapM hargs).bind fun vals hvals => ?_
    cases hpush : c.push with
    | error cause =>
      have hkind : cause = .tooDeep c.maxDepth := by
        unfold Context.push at hpush
        split at hpush
        · exact (Except.error.inj hpush).symm
        · cases hpush
      subst hkind
      exact .refuse rfl
    | ok pushed =>
      refine (Sure.mapM fun v hv => .argument hc (hvals.2 v hv)).bind fun bound hbound => ?_
      have hlocals : ∀ b ∈ List.zipWith Binding.mk params bound, Held b.value := by
        intro b hb
        rw [← List.map_uncurry_zip_eq_zipWith] at hb
        obtain ⟨⟨p, w⟩, hpw, rfl⟩ := List.mem_map.mp hb
        exact hbound.2 w (List.of_mem_zip hpw).2
      obtain ⟨hsound, hroom⟩ := Context.withLocals_of_push hpush hc hlocals
      refine (hdeep _ body hsound hbody hroom).bind fun r hr => ?_
      cases hr with
      | result hr =>
        have hr' : Evaluated c r := .result hr
        cases hr <;> exact .ok hr'
      | builtin hb => exact .ok (.builtin hb)
      | reference => exact (Sure.resolve hsound _).mono fun _ hv => hv.evaluated c
  · simp only [hlen, ne_eq, not_false_eq_true, ↓reduceIte]
    exact .refuse rfl

/-- Calls what a name is bound to. -/
theorem applyName (hdeep : EndsBelow c) {name : String} {synthesized : Bool}
    (hmap : Sure (Given c) (fun ev => Builtin.map.run Host.none ev c args synthesized)) :
    Sure (Evaluated c) (fun ev => ev.apply Host.none c (.var name) args synthesized) := by
  have hheld : ∀ b, (if synthesized then c.global? name else c.get? name) = some b →
      Held b.value := by
    intro b hb
    cases synthesized with
    | true => exact hc.global? hb
    | false => exact hc.get? hb
  have hscale : ∀ w, Concrete w → ∀ arg ∈ args,
      Sure (Evaluated c) (fun ev => ev.coerce c w >>= fun x => ev.multiply c x arg) := by
    intro w hw arg harg
    apply Sure.result
    exact (Sure.coerceConcrete hw).bind fun x hx => .multiplied hc hx (hargs arg harg)
  simp only [Recur.apply]
  cases hb : (if synthesized then c.global? name else c.get? name) with
  | none => exact .refuse rfl
  | some b =>
    obtain ⟨n, w⟩ := b
    have hw : Held w := hheld _ hb
    cases hw with
    | builtin hs => exact .callBuiltin hc hargs hs hmap
    | result hw =>
      cases hw with
      | number hx => exact .single _ _ rfl args (hscale _ (.number hx))
      | vector hx => exact .single _ _ rfl args (hscale _ (.vector hx))
      | func hbody => exact .callFunc hc hargs hdeep hbody
      | builtin hs _ => exact .callBuiltin hc hargs hs hmap

/-- Calls an evaluated callee. -/
theorem apply (hdeep : EndsBelow c) {callee : Value} (hcallee : Evaluated c callee)
    {synthesized : Bool}
    (hmap : Sure (Given c) (fun ev => Builtin.map.run Host.none ev c args synthesized)) :
    Sure (Evaluated c) (fun ev => ev.apply Host.none c callee args synthesized) := by
  have hscale : Concrete callee → ∀ arg ∈ args,
      Sure (Evaluated c) (fun ev => ev.multiply c callee arg) := by
    intro hx arg harg
    exact .result (.multiplied hc hx (hargs arg harg))
  cases hcallee with
  | reference => exact .applyName hc hargs hdeep hmap
  | builtin hs => exact .callBuiltin hc hargs hs hmap
  | result hx =>
    cases hx with
    | number hx => exact .single _ _ rfl args (hscale (.number hx))
    | vector hx => exact .single _ _ rfl args (hscale (.vector hx))
    | func hbody => exact .callFunc hc hargs hdeep hbody
    | builtin hs _ => exact .callBuiltin hc hargs hs hmap

theorem call (hdeep : EndsBelow c) {f : Value} (hne : f ≠ .missing)
    (hf : Sure (Evaluated c) (fun ev => ev .evaluate c f)) {synthesized : Bool}
    (hmap : Sure (Given c) (fun ev => Builtin.map.run Host.none ev c args synthesized)) :
    Sure (Evaluated c) (fun ev => ev .evaluate c (.call f args synthesized)) := by
  refine .evaluate ?_ (by simp)
  cases f with
  | missing => exact absurd rfl hne
  | var name => exact .applyName hc hargs hdeep hmap
  | _ => exact hf.bind fun callee hcallee => .apply hc hargs hdeep hcallee hmap

/-- The calls that `map` makes have one argument, so no `map` runs among them. -/
theorem runMap (hdeep : EndsBelow c) (synthesized : Bool) :
    Sure (Given c) (fun ev => Builtin.map.run Host.none ev c args synthesized) := by
  unfold Builtin.run Builtin.arity
  by_cases hn : args.length = 2
  · simp only [hn, ↓reduceIte]
    obtain ⟨f, v, rfl⟩ := List.length_eq_two.mp hn
    refine (hargs f (by simp)).bind fun g hg => ?_
    have hcalls : ∀ xs : List Value, (∀ x ∈ xs, Concrete x) →
        Sure Concrete (fun ev => ev .evaluate c (.vector (xs.map fun x => .call g [x] false))) := by
      intro xs hxs
      refine .vector fun call hcall => ?_
      obtain ⟨x, hx, rfl⟩ := List.mem_map.mp hcall
      refine .coerced hc
        (.call hc (fun a ha => ?_) hdeep hg.ne_missing (.again hc hg) (.refuse rfl))
      rw [List.mem_singleton.mp ha]
      exact .result (.concrete (hxs x hx))
    split
    case h_4 => exact .refuse rfl
    all_goals
      refine (Sure.coerced hc (hargs v (by simp))).bind fun w hw => ?_
      cases hw with
      | vector hx => exact .ok ⟨by simp, hcalls _ hx⟩
      | _ => exact .refuse rfl
  · simp only [hn, ↓reduceIte]
    exact .refuse rfl

end

/-- One level of calls: by induction on the tree. -/
theorem tree (hdeep : EndsBelow c) {v : Value} (hv : Evaluable v) :
    Sure (Evaluated c) (fun ev => ev .evaluate c v) := by
  induction hv with
  | number hx => exact .evaluate (.ok (.result (.number hx))) (by simp)
  | binary hop _ _ ihl ihr =>
    exact .result (.binary hop (.coerced hc ihl) (.coerced hc ihr))
  | factorial _ ih =>
    refine .evaluate ?_ (by simp)
    refine .result ((Sure.coerced hc ih).bind fun x _ => ?_)
    obtain ⟨z, hz, hl⟩ := Value.unaryOp_landed x
    exact .ofLanded hz hl
  | call hf _ ihf iha =>
    refine .call hc iha hdeep ?_ ihf (.runMap hc iha hdeep _)
    intro he
    rw [he] at hf
    cases hf
  | var name => exact .name hc name
  | vector _ ih => exact .result (.vector fun v hv => .coerced hc (ih v hv))
  | func hbody => exact .evaluate (.ok (.result (.func hbody))) (by simp)
  | builtin hs => exact .evaluate (.ok (.builtin hs)) (by simp)

end Sure

/-- Every evaluation of a tree that evaluation handles comes to an end. -/
theorem evaluation_ends (c : Context) : EndsBelow c := by
  intro d v hd hv hroom
  induction hn : d.room using Nat.strong_induction_on generalizing d v with
  | _ n ih =>
    subst hn
    exact .tree hd (fun d' w hd' hw hlt => ih _ hlt d' w hd' hw (Nat.lt_trans hlt hroom) rfl) hv

theorem coercion_ends {c : Context} (hc : c.Sound) {v : Value} (hv : Evaluable v) :
    Sure Concrete (fun ev => ev.coerce c v) :=
  .coerced hc (.tree hc (evaluation_ends c) hv)

end Reckon
