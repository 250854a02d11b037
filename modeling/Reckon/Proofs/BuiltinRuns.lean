import Reckon.Proofs.Course

namespace Reckon

/-- What a name may be bound to. -/
inductive Held : Value → Prop
  | result {v} : Concrete v → Held v
  | builtin {b} : b.isStandard = true → Held (.builtin b)

/-- All names of a context are bound to results or builtins. -/
def Context.Sound (c : Context) : Prop :=
  (∀ b ∈ c.bindings, Held b.value) ∧ ∀ frame ∈ c.frames, ∀ b ∈ frame, Held b.value

def Value.isFunctional : Value → Bool
  | .func _ _ | .builtin _ => true
  | _ => false

/-- What evaluation comes to: a result, a builtin, or a reference to a function. -/
inductive Evaluated (c : Context) : Value → Prop
  | result {v} : Concrete v → Evaluated c v
  | builtin {b} : b.isStandard = true → Evaluated c (.builtin b)
  | reference {name b} : c.get? name = some b → b.value.isFunctional = true →
      Evaluated c (.var name)

theorem Held.evaluated {v : Value} (h : Held v) (c : Context) : Evaluated c v := by
  cases h with
  | result hv => exact .result hv
  | builtin hb => exact .builtin hb

namespace Context

theorem mem_of_findBinding? {name : String} {b : Binding} {bs : List Binding}
    (h : findBinding? name bs = some b) : b ∈ bs := List.mem_of_find?_eq_some h

theorem Sound.global? {c : Context} (h : c.Sound) {name : String} {b : Binding}
    (hb : c.global? name = some b) : Held b.value :=
  h.1 b (mem_of_findBinding? hb)

theorem Sound.get? {c : Context} (h : c.Sound) {name : String} {b : Binding}
    (hb : c.get? name = some b) : Held b.value := by
  unfold Context.get? visible? at hb
  split at hb
  · next frame _ hf =>
    rcases Option.or_eq_some_iff.mp hb with hb | ⟨-, hb⟩
    · exact h.2 frame (by simp [hf]) b (mem_of_findBinding? hb)
    · exact h.global? hb
  · exact h.global? hb

end Context

namespace Sure

open Recur

variable {c : Context}

theorem arith {op : Op} (hop : op.isInfix = true) (hm : op ≠ .mod) {a b : Value} (ha : Concrete a)
    (hb : Concrete b) : Sure Concrete (fun _ => Recur.arith c op a b) := by
  obtain ⟨z, hz, hl⟩ := Value.arith_landed c.precision hop ha hb fun he => absurd he hm
  exact .ofLanded hz hl

theorem binary {op : Op} (hop : op.isInfix = true) {l r : Value}
    (hl : Sure Concrete (fun ev => ev.coerce c l)) (hr : Sure Concrete (fun ev => ev.coerce c r)) :
    Sure Concrete (fun ev => ev .evaluate c (.binary op l r)) := by
  by_cases hm : op = .mod
  · subst hm
    exact hl.modulus hr
  · refine .evaluate (hl.bind fun a ha => hr.bind fun b hb => .arith hop hm ha hb) ?_
    intro l' r' he
    cases he
    exact hm rfl

theorem settleConcrete {v : Value} (hv : Concrete v) :
    Sure Concrete (fun ev => ev .settle c v) := by
  refine .settle ?_
  cases hv with
  | number hx => exact .ok (.number hx)
  | vector hx => exact .ok (.vector hx)
  | func hx => exact .ok (.func hx)
  | builtin hs hf =>
    simp only [settleStep, hf, ↓reduceIte]
    exact .ok (.builtin hs hf)

theorem vector {elems : List Value} (h : ∀ v ∈ elems, Sure Concrete (fun ev => ev.coerce c v)) :
    Sure Concrete (fun ev => ev .evaluate c (.vector elems)) := by
  refine .evaluate ?_ (by simp)
  exact (Sure.mapM h).bind fun vs hvs => .ok (.vector hvs.2)

theorem concrete {v : Value} (hv : Concrete v) : Sure Concrete (fun ev => ev .evaluate c v) := by
  induction hv with
  | number hx => exact .evaluate (.ok (.number hx)) (by simp)
  | func hx => exact .evaluate (.ok (.func hx)) (by simp)
  | builtin hs hf => exact .evaluate (.ok (.builtin hs hf)) (by simp)
  | vector _ ih => exact .vector fun v hv => (ih v hv).bind fun w hw => .settleConcrete hw

theorem coerceConcrete {v : Value} (hv : Concrete v) : Sure Concrete (fun ev => ev.coerce c v) :=
  (Sure.concrete hv).bind fun _ hw => .settleConcrete hw

/-- What a builtin gives is itself evaluated. -/
def Given (c : Context) (v : Value) : Prop :=
  v ≠ .missing ∧ Sure Concrete (fun ev => ev .evaluate c v)

theorem Given.concrete {v : Value} (hv : Concrete v) : Given c v := by
  refine ⟨fun he => ?_, Sure.concrete hv⟩
  rw [he] at hv
  cases hv

theorem given {F : Recur → Result} (h : Sure Concrete F) : Sure (Given c) F :=
  h.mono fun _ hv => .concrete hv

theorem invoke {b : Builtin} {args : List Value} {synthesized : Bool}
    (h : Sure (Given c) (fun ev => b.run Host.none ev c args synthesized)) :
    Sure Concrete (fun ev => ev.invoke Host.none c b args synthesized) := by
  refine h.bind fun r hr => ?_
  split
  · exact absurd rfl hr.1
  · refine hr.2.bind fun r' hr' => ?_
    split
    · split
      · exact .ok hr'
      · exact .refuse rfl
    · exact .ok hr'

/-- A constant is a number. -/
theorem constant {b : Builtin} (hs : b.isStandard = true) (hf : b.isFunction = false)
    {synthesized : Bool} : Sure Concrete (fun ev => ev.invoke Host.none c b [] synthesized) := by
  refine .invoke ?_
  cases b with
  | pi | e | phi => exact .ok (.concrete (.number trivial))
  | host => cases hs
  | _ => cases hf

section

variable {args : List Value} (hargs : ∀ a ∈ args, Sure Concrete (fun ev => ev.coerce c a))
include hargs

theorem coerceArgs (name : String) (n : Nat) :
    Sure (fun vs => vs.length = n ∧ ∀ v ∈ vs, Concrete v)
      (fun ev => Builtin.coerceArgs ev c name args n) := by
  unfold Builtin.coerceArgs Builtin.arity
  by_cases hn : args.length = n
  · simp only [hn, ↓reduceIte]
    exact (Sure.mapM hargs).mono fun vs hvs => ⟨hvs.1.trans hn, hvs.2⟩
  · simp only [hn, ↓reduceIte]
    exact .refuse rfl

theorem realArgs (name : String) (n : Nat) :
    Sure (fun _ => True) (fun ev => Builtin.realArgs ev c name args n) := by
  refine (Sure.coerceArgs hargs name n).bind fun vs _ => ?_
  split
  · exact .ok trivial
  · exact .refuse rfl

theorem vectorArgs (name : String) (n : Nat) :
    Sure (fun vs => vs.length = n ∧ ∀ es ∈ vs, ∀ v ∈ es, Concrete v)
      (fun ev => Builtin.vectorArgs ev c name args n) := by
  refine (Sure.coerceArgs hargs name n).bind fun vs hvs => ?_
  refine (Sure.mapM (P := fun es => ∀ v ∈ es, Concrete v) fun v hv => ?_).mono
    fun es hes => ⟨hes.1.trans hvs.1, hes.2⟩
  have hc := hvs.2 v hv
  cases hc with
  | vector hx => exact .ok hx
  | _ => exact .refuse rfl

theorem real1 (name : String) (f : Float → Float) :
    Sure (Given c) (fun ev => Builtin.real1 ev c name args f) := by
  refine (Sure.realArgs hargs name 1).bind fun xs _ => ?_
  split
  · exact .ok (.concrete (.number trivial))
  · exact .refuse rfl

theorem real2 (name : String) (f : Float → Float → Float) :
    Sure (Given c) (fun ev => Builtin.real2 ev c name args f) := by
  refine (Sure.realArgs hargs name 2).bind fun xs _ => ?_
  split
  · exact .ok (.concrete (.number trivial))
  · exact .refuse rfl

theorem monadic (name : String) (f : Nat → Binary → Except Stop (Option Binary))
    (hf : ∀ p x, ∃ r, f p x = .ok r) :
    Sure (Given c) (fun ev => Builtin.monadic ev c name args f) := by
  refine (Sure.realArgs hargs name 1).bind fun xs _ => ?_
  split
  · next x =>
    dsimp only
    split
    · exact .refuse rfl
    · next b _ =>
      obtain ⟨r, hr⟩ := hf (Precise.bits c.precision) (b.roundTo (Precise.bits c.precision))
      rw [hr]
      cases r with
      | some r => exact .ok (.concrete (.number trivial))
      | none => exact .refuse rfl
  · exact .refuse rfl

end

theorem dotFrom {sum : Value} {as bs : List Value} (hsum : Concrete sum)
    (has : ∀ v ∈ as, Concrete v) (hbs : ∀ v ∈ bs, Concrete v) :
    Sure Concrete (fun _ => Builtin.dotFrom c sum as bs) := by
  induction as generalizing sum bs with
  | nil => exact .ok hsum
  | cons a as ih =>
    cases bs with
    | nil => exact .ok hsum
    | cons b bs =>
      refine (Sure.arith rfl (by decide) (has a (by simp)) (hbs b (by simp))).bind fun p hp => ?_
      refine (Sure.arith rfl (by decide) hsum hp).bind fun sum' hsum' => ?_
      exact ih hsum' (fun v hv => has v (List.mem_cons_of_mem a hv))
        fun v hv => hbs v (List.mem_cons_of_mem b hv)

theorem dotOf {as bs : List Value} (has : ∀ v ∈ as, Concrete v) (hbs : ∀ v ∈ bs, Concrete v) :
    Sure Concrete (fun _ => Builtin.dotOf c as bs) := by
  unfold Builtin.dotOf
  split
  · exact .dotFrom (.number trivial) has hbs
  · exact .refuse rfl

theorem sqrtOf {v : Value} (hv : Sure Concrete (fun ev => ev.coerce c v)) :
    Sure Concrete (fun ev => ev .evaluate c (Builtin.sqrtOf v)) := by
  have htwo : (2 : Int64) ≠ 0 := by decide
  exact .binary rfl hv (.coerceConcrete (.number htwo))

theorem magOf {elems : List Value} (h : ∀ v ∈ elems, Concrete v) :
    Sure Concrete (fun ev => Builtin.magOf ev c elems) :=
  (Sure.dotOf h h).bind fun _ hd => .sqrtOf (.coerceConcrete hd)

theorem elemOf {v i : Value} (hv : Concrete v) : Sure Concrete (fun _ => Builtin.elemOf v i) := by
  unfold Builtin.elemOf
  split
  · next elems n =>
    cases hv with
    | vector hx =>
      split
      · exact .refuse rfl
      · split
        · next w hw => exact .ok (hx w (List.mem_of_getElem? hw))
        · exact .refuse rfl
  · exact .refuse rfl
  · exact .refuse rfl

theorem absOf {v : Value} (hv : Concrete v) : Sure Concrete (fun _ => Builtin.absOf v) := by
  unfold Builtin.absOf
  split
  · exact .ok (.number trivial)
  · exact .ok (.number trivial)
  · cases hv with
    | number hx => exact .ok (.number hx)
  · exact .refuse rfl

/-- The elements of the cross product are evaluated from results. -/
theorem crossOf {as bs : List Value} (has : ∀ v ∈ as, Concrete v) (hbs : ∀ v ∈ bs, Concrete v) :
    Sure (Given c) (fun _ => Builtin.crossOf as bs) := by
  unfold Builtin.crossOf
  split
  · next a0 a1 a2 b0 b1 b2 =>
    have hproduct : ∀ p ∈ [a0, a1, a2, b0, b1, b2], ∀ q ∈ [a0, a1, a2, b0, b1, b2],
        Sure Concrete (fun ev => ev.coerce c (.binary .mul p q)) := by
      intro p hp q hq
      have hall : ∀ v ∈ [a0, a1, a2, b0, b1, b2], Concrete v := by
        intro v hv
        rcases List.mem_append.mp (show v ∈ [a0, a1, a2] ++ [b0, b1, b2] from hv) with hv | hv
        · exact has v hv
        · exact hbs v hv
      exact (Sure.binary rfl (.coerceConcrete (hall p hp)) (.coerceConcrete (hall q hq))).bind
        fun _ hw => .settleConcrete hw
    have hterm : ∀ p ∈ [a0, a1, a2, b0, b1, b2], ∀ q ∈ [a0, a1, a2, b0, b1, b2],
        ∀ r ∈ [a0, a1, a2, b0, b1, b2], ∀ s ∈ [a0, a1, a2, b0, b1, b2], Sure Concrete
          (fun ev => ev.coerce c (.binary .sub (.binary .mul p q) (.binary .mul r s))) :=
      fun p hp q hq r hr s hs => (Sure.binary rfl (hproduct p hp q hq) (hproduct r hr s hs)).bind
        fun _ hw => .settleConcrete hw
    refine .ok ⟨by simp, .vector fun v hv => ?_⟩
    simp only [List.mem_cons, List.not_mem_nil, or_false] at hv
    rcases hv with rfl | rfl | rfl
    all_goals exact hterm _ (by simp) _ (by simp) _ (by simp) _ (by simp)
  · exact .refuse rfl

/-- What the builtins give, apart from `map`. -/
theorem run {b : Builtin} (hs : b.isStandard = true) (hm : b ≠ .map) {args : List Value}
    (hargs : ∀ a ∈ args, Sure Concrete (fun ev => ev.coerce c a)) (synthesized : Bool) :
    Sure (Given c) (fun ev => b.run Host.none ev c args synthesized) := by
  have hhead : ∀ {vs : List Value} {n : Nat}, vs.length = n + 1 → (∀ v ∈ vs, Concrete v) →
      Concrete (vs.headD .missing) := by
    intro vs n hl hv
    cases vs with
    | nil => cases hl
    | cons v vs => exact hv v (by simp)
  have hfirst : ∀ {vs : List (List Value)}, (∀ es ∈ vs, ∀ v ∈ es, Concrete v) →
      ∀ v ∈ vs.headD [], Concrete v := by
    intro vs hv
    cases vs with
    | nil => simp
    | cons es vs => exact hv es (by simp)
  have hsecond : ∀ {vs : List (List Value)}, (∀ es ∈ vs, ∀ v ∈ es, Concrete v) →
      ∀ v ∈ vs.tail.headD [], Concrete v :=
    fun hv => hfirst fun es hes => hv es (List.mem_of_mem_tail hes)
  cases b with
  | host => cases hs
  | map => exact absurd rfl hm
  | pi | e | phi => exact .ok (.concrete (.number trivial))
  | sqrt =>
    unfold Builtin.run Builtin.arity
    by_cases hn : args.length = 1
    · simp only [hn, ↓reduceIte]
      obtain ⟨a, rfl⟩ := List.length_eq_one_iff.mp hn
      exact .ok ⟨by simp [Builtin.sqrtOf], .sqrtOf (hargs a (by simp))⟩
    · simp only [hn, ↓reduceIte]
      exact .refuse rfl
  | abs =>
    exact (Sure.coerceArgs hargs "abs" 1).bind fun vs hvs =>
      .given (.absOf (hhead hvs.1 hvs.2))
  | exp =>
    exact .monadic hargs "exp" (fun p x => .ok (some (c.precision.functions.exp p p x)))
      fun _ _ => ⟨_, rfl⟩
  | ln =>
    exact .monadic hargs "ln" (Builtin.onPositive c.precision.functions.ln) fun _ _ => ⟨_, rfl⟩
  | log =>
    exact .monadic hargs "log" (Builtin.onPositive c.precision.functions.log) fun _ _ => ⟨_, rfl⟩
  | trig t => exact .real1 hargs t.name t.apply
  | atan2 => exact .real2 hargs "atan2" Float.atan2
  | dot =>
    exact (Sure.vectorArgs hargs "dot" 2).bind fun vs hvs =>
      .given (.dotOf (hfirst hvs.2) (hsecond hvs.2))
  | cross =>
    exact (Sure.vectorArgs hargs "cross" 2).bind fun vs hvs =>
      .crossOf (hfirst hvs.2) (hsecond hvs.2)
  | elem =>
    exact (Sure.coerceArgs hargs "elem" 2).bind fun vs hvs =>
      .given (.elemOf (hhead hvs.1 hvs.2))
  | mag =>
    exact (Sure.vectorArgs hargs "mag" 1).bind fun vs hvs =>
      .given (.magOf (hfirst hvs.2))
  | norm =>
    refine (Sure.vectorArgs hargs "norm" 1).bind fun vs hvs => ?_
    refine (Sure.magOf (hfirst hvs.2)).bind fun m hmag => ?_
    exact .given (.arith rfl (by decide) (.vector (hfirst hvs.2)) hmag)

end Sure

end Reckon
