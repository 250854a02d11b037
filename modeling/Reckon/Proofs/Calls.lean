import Reckon.Proofs.Substitution

namespace Reckon

open Leeway

/-- What a call gives for what its body comes to. -/
def Recur.leave (c : Context) : Value → Result
  | .var name => resolve c name
  | r => .ok r

theorem settle_constant {c d : Context} (h : c.precision = d.precision) {b : Builtin}
    {f : Precision → Nat → Binary} (hb : b.isFunction = false)
    (hrun : ∀ ev c, b.run Host.none ev c [] false = Builtin.niladic c (f c.precision))
    (fuel : Nat) :
    evaluator Host.none (fuel + 1) .settle c (.builtin b) =
      evaluator Host.none (fuel + 1) .settle d (.builtin b) := by
  have hstep : ∀ c, evaluator Host.none (fuel + 1) .settle c (.builtin b) =
      (evaluator Host.none fuel).invoke Host.none c b [] false >>=
        evaluator Host.none fuel .settle c := by
    intro c
    simp only [evaluator, Recur.settleStep, hb, Bool.false_eq_true, ↓reduceIte]
  rw [hstep, hstep]
  unfold Recur.invoke Builtin.niladic at *
  simp only [hrun, h]
  cases fuel with
  | zero => rfl
  | succ fuel =>
    change (if _ then _ else _) >>= _ = (if _ then _ else _) >>= _
    split
    · rfl
    · rfl

/-- A builtin is settled alike in all contexts of one precision. -/
theorem settle_builtin {c d : Context} (h : c.precision = d.precision) (fuel : Nat) (b : Builtin) :
    evaluator Host.none (fuel + 1) .settle c (.builtin b) =
      evaluator Host.none (fuel + 1) .settle d (.builtin b) := by
  cases b with
  | pi => exact settle_constant (f := fun p => p.functions.pi) h rfl (fun _ _ => rfl) fuel
  | e => exact settle_constant (f := fun p => p.functions.e) h rfl (fun _ _ => rfl) fuel
  | phi => exact settle_constant (f := fun _ => Precise.phi) h rfl (fun _ _ => rfl) fuel
  | host name isFunction => cases isFunction <;> rfl
  | _ => rfl

section

variable {c : Context} {frame : List Binding}

/-- A reference that the body comes to is resolved when the call ends; it is settled to the same if
it stays. -/
theorem settle_leave {r : Value} (hr : FinalOutside frame r) (he : Evaluated (c.calling frame) r)
    (fuel : Nat) :
    (Recur.leave (c.calling frame) r >>= evaluator Host.none (fuel + 1) .settle c) =
      evaluator Host.none (fuel + 1) .settle (c.calling []) r := by
  have hbuiltin : ∀ b, evaluator Host.none (fuel + 1) .settle c (.builtin b) =
      evaluator Host.none (fuel + 1) .settle (c.calling []) (.builtin b) :=
    settle_builtin (c := c) (d := c.calling []) rfl fuel
  cases he with
  | result hv =>
    cases hv with
    | number | vector | func => rfl
    | builtin => exact hbuiltin _
  | builtin => exact hbuiltin _
  | @reference name b hb hfun =>
    rw [get?_of_free hr.free] at hb
    have hin : (c.calling frame).get? name = some b := (get?_of_free hr.free).trans hb
    have hout : (c.calling []).get? name = some b := hb
    obtain ⟨n, w⟩ := b
    cases w with
    | func =>
      simp [Recur.leave, Recur.resolve, hin, Recur.deliver, evaluator, Recur.settleStep, hout]
    | builtin b =>
      have hsettled : evaluator Host.none (fuel + 1) .settle (c.calling []) (.var name) =
          evaluator Host.none (fuel + 1) .settle (c.calling []) (.builtin b) := by
        simp [evaluator, Recur.settleStep, hout]
      rw [hsettled, ← hbuiltin]
      simp [Recur.leave, Recur.resolve, hin, Recur.deliver]
    | _ => cases hfun

end

/-- With enough fuel the tree evaluates to `w`. -/
def Evaluates (c : Context) (v w : Value) : Prop :=
  ∃ N, ∀ fuel, N ≤ fuel → (Engine.ofFuel fuel).eval c v = .ok w

theorem Evaluates.evaluated {c : Context} {v w : Value} (h : Evaluates c v w) (hc : c.Sound)
    (hv : Evaluable v) : Evaluated c w := by
  obtain ⟨N, hN⟩ := h
  exact (Sure.tree hc (evaluation_ends c) hv).holds (hN N (Nat.le_refl N))

/-- With enough fuel for each of several computations there is enough for all. -/
theorem mapM_eventually {ε α β : Type} {f : Nat → α → Except ε β} {as : List α} {bs : List β}
    (h : List.Forall₂ (fun a b => ∃ N, ∀ n, N ≤ n → f n a = .ok b) as bs) :
    ∃ N, ∀ n, N ≤ n → as.mapM (f n) = .ok bs := by
  induction h with
  | nil => exact ⟨0, fun _ _ => rfl⟩
  | cons ha _ ih =>
    obtain ⟨N, hN⟩ := ha
    obtain ⟨M, hM⟩ := ih
    refine ⟨max N M, fun n hn => ?_⟩
    rw [List.mapM_cons, hN n (Nat.le_trans (Nat.le_max_left N M) hn),
      hM n (Nat.le_trans (Nat.le_max_right N M) hn)]
    rfl

theorem evaluates_all {c : Context} {args ws : List Value}
    (h : List.Forall₂ (Evaluates c) args ws) :
    ∃ N, ∀ fuel, N ≤ fuel → args.mapM (evaluator Host.none fuel .evaluate c) = .ok ws :=
  mapM_eventually h

/-- The frame of a call. Of equal parameters the last is found first. -/
def parameterFrame (params : List String) (ws : List Value) : List Binding :=
  (List.zipWith Binding.mk params ws).reverse

theorem mem_parameterFrame {params : List String} {ws : List Value} {b : Binding}
    (h : b ∈ parameterFrame params ws) : b.value ∈ ws := by
  rw [parameterFrame, List.mem_reverse, ← List.map_uncurry_zip_eq_zipWith] at h
  obtain ⟨⟨p, w⟩, hpw, rfl⟩ := List.mem_map.mp h
  exact (List.of_mem_zip hpw).2

theorem evaluate_call {c : Context} (hroom : (c.frames.length : Int) < c.maxDepth)
    {params : List String} {body : Value} {args ws : List Value}
    (hlen : args.length = params.length) (hws : ∀ w ∈ ws, Numeric w) {fuel : Nat}
    (hargs : args.mapM (evaluator Host.none (fuel + 1) .evaluate c) = .ok ws) :
    evaluator Host.none (fuel + 2) .evaluate c (.call (.func params body) args false) =
      evaluator Host.none (fuel + 1) .evaluate (c.calling (parameterFrame params ws)) body >>=
        Recur.leave (c.calling (parameterFrame params ws)) := by
  have hopened : c.opened = .ok (c.calling []) := by
    rw [Context.opened, Context.push_eq_ok_iff.mpr ⟨hroom, rfl⟩]
    rfl
  have hbound : ws.mapM (Recur.argument c) = .ok ws := by
    refine mapM_eq_self fun w hw => ?_
    cases hws w hw <;> rfl
  change Recur.callFunc _ c params body args = _
  rw [Recur.callFunc_eq, if_neg (by simp [hlen]), hargs, ok_bind, Recur.enter, hopened, ok_bind,
    hbound, ok_bind]
  simp only [Context.withLocals_calling]
  rfl

theorem Evaluable.instantiate {v : Value} (h : Evaluable v) {frame : List Binding}
    (hframe : ∀ b ∈ frame, Evaluable b.value) : Evaluable (v.instantiate frame) := by
  induction h with
  | number hx =>
    simp only [Value.instantiate]
    exact .number hx
  | binary hop _ _ iha ihb =>
    simp only [Value.instantiate]
    exact .binary hop iha ihb
  | factorial _ ih =>
    simp only [Value.instantiate]
    exact .factorial ih
  | @call f args synthesized hf _ ihf iha =>
    simp only [Value.instantiate, Value.instantiateAll_eq_map]
    refine .call ?_ (List.forall_mem_map.mpr iha)
    split
    · exact hf
    · exact ihf
  | var name =>
    cases hb : findBinding? name frame with
    | none =>
      rw [Value.instantiate_of_free hb]
      exact .var name
    | some b =>
      rw [Value.instantiate_of_bound hb]
      exact hframe b (Context.mem_of_findBinding? hb)
  | vector _ ih =>
    simp only [Value.instantiate, Value.instantiateAll_eq_map]
    exact .vector (List.forall_mem_map.mpr ih)
  | func hbody =>
    simp only [Value.instantiate]
    exact .func hbody
  | builtin hs =>
    simp only [Value.instantiate]
    exact .builtin hs

/-- A numeric result has no fraction without a value. -/
theorem Numeric.concrete {c : Context} {w : Value} (h : Numeric w) (he : Evaluated c w) :
    Concrete w := by
  cases he with
  | result hv => exact hv
  | builtin | reference => cases h

theorem Numeric.evaluable {w : Value} (h : Numeric w) (hc : Concrete w) : Evaluable w := by
  induction h with
  | number =>
    cases hc with
    | number hx => exact .number hx
  | vector _ ih =>
    cases hc with
    | vector hx => exact .vector fun v hv => ih v hv (hx v hv)

/-- Equal values, or errors of one kind. -/
def SameAnswer : Result → Result → Prop
  | .ok v, .ok w => v = w
  | .error (.error e), .error (.error f) => e.kind = f.kind
  | _, _ => False

section

variable {x y : Result} (h : Leeway.kinds.Pairs (Both fun _ => True) x y)
  (hx : x ≠ .error .outOfFuel)
include h hx

theorem sameAnswer_of_returned (hy : Returned y) : SameAnswer x y := by
  cases h with
  | value hab => exact hab.1
  | @stops s t hst =>
    cases t with
    | error f =>
      rcases hst with rfl | ⟨e, _, rfl, he, hk⟩
      · rfl
      · cases he
        exact hk
    | _ => cases hy
  | left hs => exact absurd (congrArg Except.error hs) hx
  | right ht =>
    cases ht
    cases hy

theorem eq_fault_of_pairs {f : Fault} (hy : y = .error (.fault f)) : x = .error (.fault f) := by
  cases h with
  | value => cases hy
  | stops hst =>
    cases hy
    rcases hst with rfl | ⟨_, _, -, he, -⟩
    · rfl
    · cases he
  | left hs => exact absurd (congrArg Except.error hs) hx
  | right ht =>
    cases ht
    cases hy

end

/-- The tree is what some text without special syntax is read as. -/
def Value.IsRead (v : Value) : Prop :=
  ∃ lines src used, Reading.parse { lines } src = .ok ⟨v, used⟩

theorem Value.IsRead.evaluable {v : Value} (h : v.IsRead) : Evaluable v := by
  obtain ⟨lines, src, used, hv⟩ := h
  exact (Reading.parse_readable rfl hv).evaluable

/-- The context is one that lines lead to from a new one. -/
def Context.Reached (c : Context) : Prop :=
  ∃ (fuel : Nat) (maxDepth : Int) (precision : Precision) (before : List Line),
    (Engine.ofFuel fuel).session (.fresh maxDepth precision) before = c

theorem Context.Reached.sound {c : Context} (h : c.Reached) : c.Sound := by
  obtain ⟨fuel, maxDepth, precision, before, rfl⟩ := h
  exact (session_orderly (Context.fresh_orderly maxDepth precision) before).sound

theorem Context.Sound.calling {c : Context} (h : c.Sound) {bs : List Binding}
    (hbs : ∀ b ∈ bs, Held b.value) : (c.calling bs).Sound := by
  refine ⟨h.1, fun frame hframe => ?_⟩
  rcases List.mem_cons.mp hframe with rfl | hframe
  · exact hbs
  · exact h.2 frame hframe

section

variable {c : Context} (hc : c.Sound) {args ws : List Value} (hargs : ∀ a ∈ args, Evaluable a)
  (heval : List.Forall₂ (Evaluates c) args ws) (hws : ∀ w ∈ ws, Numeric w)
include hc hargs heval hws

theorem concrete_of_evaluates : ∀ w ∈ ws, Concrete w := by
  induction heval with
  | nil => simp
  | @cons a w args ws ha _ ih =>
    have he := ha.evaluated hc (hargs a (by simp))
    refine List.forall_mem_cons.mpr ⟨(hws w (by simp)).concrete he, ?_⟩
    exact ih (fun a ha => hargs a (List.mem_cons_of_mem _ ha))
      fun w hw => hws w (List.mem_cons_of_mem _ hw)

variable {params : List String} {body : Value} (hbody : Evaluable body)
include hbody

theorem evaluable_instance : Evaluable (body.instantiate (parameterFrame params ws)) := by
  refine hbody.instantiate fun b hb => ?_
  have hmem := mem_parameterFrame hb
  exact (hws _ hmem).evaluable (concrete_of_evaluates hc hargs heval hws _ hmem)

variable (hroom : (c.frames.length : Int) < c.maxDepth) (hlen : args.length = params.length)
include hroom hlen

/-- With enough fuel the coercions of the call and of the instance come to the same. -/
theorem call_pairs : ∃ N, ∀ fuel, N ≤ fuel →
    Leeway.kinds.Pairs (Both fun _ => True)
      ((Engine.ofFuel fuel).coerce c (.call (.func params body) args false))
      ((Engine.ofFuel fuel).coerce (c.calling [])
        (body.instantiate (parameterFrame params ws))) := by
  have hframe : NumericFrame (parameterFrame params ws) :=
    fun b hb => hws _ (mem_parameterFrame hb)
  have hinside : (c.calling (parameterFrame params ws)).Sound :=
    hc.calling fun b hb =>
      .result (concrete_of_evaluates hc hargs heval hws _ (mem_parameterFrame hb))
  have houtside : (c.calling []).Sound := hc.calling (by simp)
  obtain ⟨N, hN⟩ := evaluates_all heval
  have htracks := Sure.tree hinside (evaluation_ends _) hbody
  obtain ⟨M, r, -, hM⟩ := (Sure.tree houtside (evaluation_ends _)
    (evaluable_instance hc hargs heval hws hbody)).halts
  refine ⟨max N M + 2, fun fuel hfuel => ?_⟩
  obtain ⟨fuel, rfl⟩ : ∃ k, fuel = k + 2 := ⟨fuel - 2, by omega⟩
  have hNfuel : N ≤ fuel + 1 := by omega
  -- The body is evaluated with one unit of fuel less than the instance, which no longer matters.
  have hstable : evaluator Host.none (fuel + 2) .evaluate (c.calling []) _ =
      evaluator Host.none (fuel + 1) .evaluate (c.calling []) _ :=
    (hM (fuel + 2) (by omega)).trans (hM (fuel + 1) (by omega)).symm
  have hpairs := ((instance_abreast hc hframe (fuel + 1)).evaluate
    (rfl : Instance _ body _)).also fun a ha => htracks.holds ha
  have hcalled : (Engine.ofFuel (fuel + 2)).coerce c (.call (.func params body) args false) =
      evaluator Host.none (fuel + 1) .evaluate (c.calling (parameterFrame params ws)) body >>=
        fun r => Recur.leave (c.calling (parameterFrame params ws)) r >>=
          evaluator Host.none (fuel + 2) .settle c := by
    rw [← bind_assoc, ← evaluate_call hroom hlen hws (hN (fuel + 1) hNfuel)]
    rfl
  have hreplaced : (Engine.ofFuel (fuel + 2)).coerce (c.calling [])
      (body.instantiate (parameterFrame params ws)) =
      evaluator Host.none (fuel + 1) .evaluate (c.calling [])
        (body.instantiate (parameterFrame params ws)) >>=
          evaluator Host.none (fuel + 2) .settle (c.calling []) := by
    rw [← hstable]
    rfl
  rw [hcalled, hreplaced]
  refine hpairs.bindBoth fun r hr => ?_
  rw [settle_leave hr.1 hr.2 (fuel + 1)]
  exact .same fun _ _ => ⟨rfl, trivial⟩

end

/-- Let a function be called on arguments that evaluate to numbers or vectors of numbers, where
there is room for the call. With enough fuel the coercion of the call and that of the body with the
numbers in place of the parameters, in an empty frame, come to equal values or to errors of one
kind, exactly if they do not come to a modulus whose divisor wraps to zero; if they do, both stop
there with a fault. -/
theorem call_agrees_with_instance_iff {c : Context} (hc : c.Reached)
    (hroom : (c.frames.length : Int) < c.maxDepth) {params : List String} {body : Value}
    (hf : (Value.func params body).IsRead) {args ws : List Value}
    (hlen : args.length = params.length) (hargs : ∀ a ∈ args, a.IsRead)
    (heval : List.Forall₂ (Evaluates c) args ws) (hws : ∀ w ∈ ws, Numeric w) :
    ∃ N, ∀ fuel, N ≤ fuel →
      let e := Engine.ofFuel fuel
      let called := e.coerce c (.call (.func params body) args false)
      let inst := body.instantiate (parameterFrame params ws)
      let replaced := e.coerce (c.calling []) inst
      (SameAnswer called replaced ↔ ¬ inst.Wraps fuel (c.calling [])) ∧
      (inst.Wraps fuel (c.calling []) →
        called = .error (.fault .zeroDivisor) ∧ replaced = .error (.fault .zeroDivisor)) := by
  have hbody : Evaluable body := by
    cases hf.evaluable with
    | func hbody => exact hbody
  have hevaluable : ∀ a ∈ args, Evaluable a := fun a ha => (hargs a ha).evaluable
  have hcall : Evaluable (.call (.func params body) args false) := .call (.func hbody) hevaluable
  obtain ⟨N, hN⟩ := call_pairs hc.sound hevaluable heval hws hbody hroom hlen
  obtain ⟨M, r, hr, hM⟩ := (coercion_ends hc.sound hcall).halts
  have houtside : (c.calling []).Sound := hc.sound.calling (by simp)
  obtain ⟨K, hK⟩ := coercion_returns_iff houtside
    (evaluable_instance hc.sound hevaluable heval hws hbody)
  refine ⟨max N (max M K), fun fuel hfuel => ?_⟩
  intro e called inst replaced
  have hpairs : Leeway.kinds.Pairs (Both fun _ => True) called replaced := hN fuel (by omega)
  have hends : called ≠ .error .outOfFuel := fun he => hr ((hM fuel (by omega)).symm.trans he)
  obtain ⟨hreturns, hwraps⟩ := hK fuel (by omega)
  have hfaults : inst.Wraps fuel (c.calling []) →
      called = .error (.fault .zeroDivisor) ∧ replaced = .error (.fault .zeroDivisor) :=
    fun hw => ⟨eq_fault_of_pairs hpairs hends (hwraps hw), hwraps hw⟩
  refine ⟨⟨fun hsame hw => ?_, fun hw => ?_⟩, hfaults⟩
  · obtain ⟨hcalled, hreplaced⟩ := hfaults hw
    rw [hcalled, hreplaced] at hsame
    exact hsame
  · exact sameAnswer_of_returned hpairs hends (hreturns.mpr hw)

/-- A parameter that hides the builtin which subscripts call. -/
theorem call_agrees_with_instance_of_subscript :
    let c := Context.fresh 1024 64
    let body : Value := .subscript (.vector [.var "x", .var "ans"]) (.var "elem")
    let args : List Value := [.int 1, .var "ans"]
    let ws : List Value := [.int 1, .int 0]
    let inst := body.instantiate (parameterFrame ["x", "elem"] ws)
    (c.Reached ∧ (c.frames.length : Int) < c.maxDepth ∧ (Value.func ["x", "elem"] body).IsRead ∧
      (∀ a ∈ args, a.IsRead) ∧ List.Forall₂ (Evaluates c) args ws ∧ ∀ w ∈ ws, Numeric w) ∧
    inst = .subscript (.vector [.int 1, .var "ans"]) (.int 0) ∧
    ∃ N, ∀ fuel, N ≤ fuel →
      (SameAnswer
        ((Engine.ofFuel fuel).coerce c (.call (.func ["x", "elem"] body) args false))
        ((Engine.ofFuel fuel).coerce (c.calling []) inst) ↔ ¬ inst.Wraps fuel (c.calling [])) := by
  intro c body args ws inst
  have hc : c.Reached := ⟨0, 1024, 64, [], rfl⟩
  have hroom : (c.frames.length : Int) < c.maxDepth := by decide
  have hf : (Value.func ["x", "elem"] body).IsRead := ⟨[], "|x, elem| <x, ans>[elem]", 0, by cbv⟩
  have hargs : ∀ a ∈ args, a.IsRead := by
    refine List.forall_mem_cons.mpr ⟨⟨[], "1", 0, rfl⟩, ?_⟩
    exact List.forall_mem_singleton.mpr ⟨[], "ans", 0, by cbv⟩
  have heval : List.Forall₂ (Evaluates c) args ws := by
    refine .cons ⟨1, fun fuel hfuel => ?_⟩ (.cons ⟨2, fun fuel hfuel => ?_⟩ .nil)
    · obtain ⟨n, rfl⟩ := Nat.exists_eq_add_of_le' hfuel
      rfl
    · obtain ⟨n, rfl⟩ := Nat.exists_eq_add_of_le' hfuel
      rfl
  have hws : ∀ w ∈ ws, Numeric w := by
    refine List.forall_mem_cons.mpr ⟨.number _, ?_⟩
    exact List.forall_mem_singleton.mpr (.number _)
  obtain ⟨N, hN⟩ := call_agrees_with_instance_iff hc hroom hf rfl hargs heval hws
  exact ⟨⟨hc, hroom, hf, hargs, heval, hws⟩, rfl, N, fun fuel hfuel => (hN fuel hfuel).1⟩

/-- The product of the denominator and the divisor is 2 to the power of 64. -/
theorem call_of_modulus_stops :
    let c := Context.fresh 1024 64
    let body : Value := .binary .mod (.binary .div (.var "x") (.var "y")) (.var "y")
    let ws : List Value := [.int 1, .int 4294967296]
    let e : Engine := {}
    let called := e.coerce c (.call (.func ["x", "y"] body) ws false)
    let replaced := e.coerce (c.calling []) (body.instantiate (parameterFrame ["x", "y"] ws))
    (c.Reached ∧ (c.frames.length : Int) < c.maxDepth ∧ (Value.func ["x", "y"] body).IsRead ∧
      (∀ a ∈ ws, a.IsRead) ∧ List.Forall₂ (Evaluates c) ws ws ∧ ∀ w ∈ ws, Numeric w) ∧
    called = .error (.fault .zeroDivisor) ∧ replaced = .error (.fault .zeroDivisor) ∧
      ¬ SameAnswer called replaced := by
  intro c body ws e called replaced
  have hc : c.Reached := ⟨0, 1024, 64, [], rfl⟩
  have hf : (Value.func ["x", "y"] body).IsRead := ⟨[], "|x, y| x/y % y", 0, by cbv⟩
  have hargs : ∀ a ∈ ws, a.IsRead := by
    refine List.forall_mem_cons.mpr ⟨⟨[], "1", 0, rfl⟩, ?_⟩
    exact List.forall_mem_singleton.mpr ⟨[], "4294967296", 0, rfl⟩
  have heval : List.Forall₂ (Evaluates c) ws ws := by
    refine .cons ⟨1, fun fuel hfuel => ?_⟩ (.cons ⟨1, fun fuel hfuel => ?_⟩ .nil)
    · obtain ⟨n, rfl⟩ := Nat.exists_eq_add_of_le' hfuel
      rfl
    · obtain ⟨n, rfl⟩ := Nat.exists_eq_add_of_le' hfuel
      rfl
  have hws : ∀ w ∈ ws, Numeric w := by
    refine List.forall_mem_cons.mpr ⟨.number _, ?_⟩
    exact List.forall_mem_singleton.mpr (.number _)
  have hcalled : called = .error (.fault .zeroDivisor) := eq_error_of_fault? (by decide +kernel)
  have hreplaced : replaced = .error (.fault .zeroDivisor) :=
    eq_error_of_fault? (by decide +kernel)
  refine ⟨⟨hc, by decide, hf, hargs, heval, hws⟩, hcalled, hreplaced, ?_⟩
  rw [hcalled, hreplaced]
  exact id

end Reckon
