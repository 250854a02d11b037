import Reckon.Proofs.Finiteness
import Reckon.Proofs.Settling

/-!
Infinite reals in what builtins give. A result that is a number is checked; a vector is not, and its
elements are what the operations on the arguments come to. Main statement:
`builtin_result_finite_iff`.
-/

namespace Reckon

/-- With some fuel the expression is coerced to `w`. -/
def Coerced (host : Host) (c : Context) (v w : Value) : Prop :=
  ∃ fuel, (evaluator host fuel).coerce c v = .ok w

/-- The operation gives `r`. All reals in `r` are finite exactly if the numbers that meet in the
operation come to finite doubles, where they do not stay exact. -/
structure Operation (p : Precision) (op : Op) (a b r : Value) : Prop where
  result : a.arith p op b = .ok (.ok r)
  finite : r.isFinite = true ↔
    ∀ x y, Value.Meets a b x y → (x.double? p op y).all Float.isFinite = true

/-- The sum of the products of the elements in pairs, taken from the left. -/
inductive DotProduct (p : Precision) : List Value → List Value → Value → Prop
  | empty : DotProduct p [] [] (.int 0)
  | add {as bs a b s m r} : DotProduct p as bs s → Operation p .mul a b m → Operation p .add s m r →
      DotProduct p (as ++ [a]) (bs ++ [b]) r

/-- A difference of products. -/
def Component (p : Precision) (a b a' b' r : Value) : Prop :=
  ∃ m n, Operation p .mul a b m ∧ Operation p .mul a' b' n ∧ Operation p .sub m n r

namespace Builtin

/-- What a builtin computes from its arguments for the result `r`, and when all reals in `r` are
finite: each operation says when what it gives is. -/
def Account (host : Host) (c : Context) (args : List Value) (synthesized : Bool) (r : Value) :
    Builtin → Prop
  | .pi | .e | .phi | .abs | .exp | .ln | .log | .trig _ | .atan2 =>
    ∃ x, r = .number x ∧ x.isFinite = true
  | .sqrt => ∃ a,
    List.Forall₂ (Coerced host c) args [a] ∧ Operation c.precision .pow a half r
  | .dot => ∃ as bs,
    List.Forall₂ (Coerced host c) args [.vector as, .vector bs] ∧ DotProduct c.precision as bs r
  | .mag => ∃ as d,
    List.Forall₂ (Coerced host c) args [.vector as] ∧ DotProduct c.precision as as d ∧
      Operation c.precision .pow d half r
  | .norm => ∃ as d m rs,
    List.Forall₂ (Coerced host c) args [.vector as] ∧ DotProduct c.precision as as d ∧
      Operation c.precision .pow d half m ∧ r = .vector rs ∧
      List.Forall₂ (fun ab q => Operation c.precision .div ab.1 ab.2 q)
        ((Value.vector as).couples m) rs ∧
      (r.isFinite = true ↔ ∀ q ∈ rs, q.isFinite = true)
  | .cross => ∃ a₀ a₁ a₂ b₀ b₁ b₂ x y z,
    List.Forall₂ (Coerced host c) args [.vector [a₀, a₁, a₂], .vector [b₀, b₁, b₂]] ∧
      r = .vector [x, y, z] ∧
      Component c.precision a₁ b₂ a₂ b₁ x ∧ Component c.precision a₂ b₀ a₀ b₂ y ∧
      Component c.precision a₀ b₁ a₁ b₀ z ∧
      (r.isFinite = true ↔ x.isFinite = true ∧ y.isFinite = true ∧ z.isFinite = true)
  | .map => ∃ f v g elems rs,
    args = [f, v] ∧ (∃ fuel, evaluator host fuel .evaluate c f = .ok g) ∧
      Coerced host c v (.vector elems) ∧ r = .vector rs ∧
      List.Forall₂ (fun x y => Coerced host c (.call g [x] false) y) elems rs ∧
      (r.isFinite = true ↔ ∀ y ∈ rs, y.isFinite = true)
  | .elem => ∃ elems i,
    List.Forall₂ (Coerced host c) args [.vector elems, .int i] ∧ 0 ≤ i ∧
      elems[i.toInt.toNat]? = some r
  | .host name _ => ∃ fuel w,
    host name (evaluator host fuel) c args synthesized = .ok w ∧
      evaluator host fuel .evaluate c w = .ok r

end Builtin

section

variable {p : Precision} {op : Op} {a b r : Value}

theorem Operation.of_arith (h : a.arith p op b = .ok (.ok r)) : Operation p op a b r :=
  ⟨h, Value.isFinite_of_arith h⟩

theorem Operation.isConcrete (h : Operation p op a b r) : r.isConcrete = true :=
  (Value.arith_givesNumeric p op a b r h.result).isConcrete

theorem DotProduct.isConcrete {as bs : List Value} (h : DotProduct p as bs r) :
    r.isConcrete = true := by
  cases h with
  | empty => rfl
  | add _ _ hr => exact hr.isConcrete

end

variable {host : Host} {fuel : Nat} {c : Context} {r : Value}

theorem operation_of_recur {op : Op} {a b : Value} (h : Recur.arith c op a b = .ok r) :
    Operation c.precision op a b r := by
  apply Operation.of_arith
  unfold Recur.arith Recur.ofAnswer at h
  split at h
  · next hv =>
    cases h
    exact hv
  · cases h
  · cases h

theorem Coerced.isConcrete {v w : Value} (h : Coerced host c v w) : w.isConcrete = true := by
  obtain ⟨fuel, h⟩ := h
  exact (evaluator_settles host fuel).coerce h

theorem operation_of_evaluate {op : Op} {u v : Value}
    (h : evaluator host fuel .evaluate c (.binary op u v) = .ok r) :
    ∃ a b, Coerced host c u a ∧ Coerced host c v b ∧ Operation c.precision op a b r := by
  cases fuel with
  | zero => cases h
  | succ fuel =>
    obtain ⟨a, ha, h⟩ := bind_eq_ok_iff.mp h
    obtain ⟨b, hb, h⟩ := bind_eq_ok_iff.mp h
    exact ⟨a, b, ⟨fuel, ha⟩, ⟨fuel, hb⟩, operation_of_recur h⟩

theorem operation_of_coerced {op : Op} {u v : Value} (h : Coerced host c (.binary op u v) r) :
    ∃ a b, Coerced host c u a ∧ Coerced host c v b ∧ Operation c.precision op a b r := by
  obtain ⟨fuel, h⟩ := h
  obtain ⟨w, hw, hr⟩ := bind_eq_ok_iff.mp h
  obtain ⟨a, b, ha, hb, hop⟩ := operation_of_evaluate hw
  obtain rfl := eq_of_settle_concrete hop.isConcrete hr
  exact ⟨a, b, ha, hb, hop⟩

theorem Coerced.eq_of_concrete {v w : Value} (hv : v.isConcrete = true) (h : Coerced host c v w) :
    w = v := by
  obtain ⟨fuel, h⟩ := h
  exact eq_of_coerce_concrete hv h

/-- The sum goes on from the products of the pairs before. -/
theorem DotProduct.of_dotFrom {before before' : List Value} {sum : Value}
    (hsum : DotProduct c.precision before before' sum) {as bs : List Value}
    (hlen : as.length = bs.length) (h : Builtin.dotFrom c sum as bs = .ok r) :
    DotProduct c.precision (before ++ as) (before' ++ bs) r := by
  induction as generalizing before before' sum bs with
  | nil =>
    cases List.length_eq_zero_iff.mp hlen.symm
    cases h
    simpa using hsum
  | cons a as ih =>
    obtain ⟨b, bs, rfl⟩ := List.exists_cons_of_length_eq_add_one hlen.symm
    obtain ⟨m, hm, h⟩ := bind_eq_ok_iff.mp h
    obtain ⟨s, hs, h⟩ := bind_eq_ok_iff.mp h
    have hnext := hsum.add (operation_of_recur hm) (operation_of_recur hs)
    simpa using ih hnext (Nat.succ_inj.mp hlen) h

theorem DotProduct.of_dotOf {as bs : List Value} (h : Builtin.dotOf c as bs = .ok r) :
    DotProduct c.precision as bs r := by
  unfold Builtin.dotOf at h
  split at h
  · next hlen => exact DotProduct.empty.of_dotFrom hlen h
  · cases h

theorem magnitude_of_magOf {as : List Value}
    (h : Builtin.magOf (evaluator host fuel) c as = .ok r) :
    ∃ d, DotProduct c.precision as as d ∧ Operation c.precision .pow d Builtin.half r := by
  obtain ⟨d, hd, h⟩ := bind_eq_ok_iff.mp h
  have hdot := DotProduct.of_dotOf hd
  obtain ⟨a, b, ha, hb, hop⟩ := operation_of_evaluate h
  obtain rfl := ha.eq_of_concrete hdot.isConcrete
  obtain rfl := hb.eq_of_concrete rfl
  exact ⟨a, hdot, hop⟩

theorem component_of_coerced {a b a' b' : Value} (ha : a.isConcrete = true)
    (hb : b.isConcrete = true) (ha' : a'.isConcrete = true) (hb' : b'.isConcrete = true)
    (h : Coerced host c (.binary .sub (.binary .mul a b) (.binary .mul a' b')) r) :
    Component c.precision a b a' b' r := by
  have hproduct : ∀ {u v m : Value}, u.isConcrete = true → v.isConcrete = true →
      Coerced host c (.binary .mul u v) m → Operation c.precision .mul u v m := by
    intro u v m hu hv hm
    obtain ⟨x, y, hx, hy, hop⟩ := operation_of_coerced hm
    obtain rfl := hx.eq_of_concrete hu
    obtain rfl := hy.eq_of_concrete hv
    exact hop
  obtain ⟨m, n, hm, hn, hop⟩ := operation_of_coerced h
  exact ⟨m, n, hproduct ha hb hm, hproduct ha' hb' hn, hop⟩

/-- The elements of a vector that is evaluated are coerced. -/
theorem exists_elements_of_evaluate {vs : List Value}
    (h : evaluator host fuel .evaluate c (.vector vs) = .ok r) :
    ∃ rs, r = .vector rs ∧ List.Forall₂ (Coerced host c) vs rs := by
  cases fuel with
  | zero => cases h
  | succ fuel =>
    obtain ⟨rs, hrs, h⟩ := bind_eq_ok_iff.mp h
    cases h
    exact ⟨rs, rfl, forall₂_of_mapM hrs fun _ _ _ hw => ⟨fuel, hw⟩⟩

namespace Builtin

variable {name : String} {args : List Value} {n : Nat}

theorem length_of_arity (h : arity name args n = .ok ()) : args.length = n := by
  unfold arity at h
  split at h
  · next hlen => exact hlen
  · cases h

theorem coerced_of_coerceArgs {ws : List Value}
    (h : coerceArgs (evaluator host fuel) c name args n = .ok ws) :
    List.Forall₂ (Coerced host c) args ws ∧ ws.length = n := by
  obtain ⟨u, hlen, h⟩ := bind_eq_ok_iff.mp h
  refine ⟨forall₂_of_mapM h fun _ _ _ hw => ⟨fuel, hw⟩, ?_⟩
  rw [length_of_mapM h]
  exact length_of_arity hlen

theorem coerced_of_vectorArgs {ess : List (List Value)}
    (h : vectorArgs (evaluator host fuel) c name args n = .ok ess) :
    List.Forall₂ (Coerced host c) args (ess.map .vector) ∧ ess.length = n := by
  obtain ⟨ws, hws, h⟩ := bind_eq_ok_iff.mp h
  obtain ⟨hargs, hlen⟩ := coerced_of_coerceArgs hws
  have hvectors : List.Forall₂ (fun w es => w = Value.vector es) ws ess := by
    refine forall₂_of_mapM h fun w _ es hes => ?_
    split at hes
    · cases hes
      rfl
    · cases hes
  rw [← List.forall₂_map_right_iff (R := Eq), List.forall₂_eq_eq_eq] at hvectors
  rw [← hvectors]
  refine ⟨hargs, ?_⟩
  rw [← length_of_mapM h] at hlen
  exact hlen

theorem concrete_of_coerced {v : Value} {es : List Value} (h : Coerced host c v (.vector es)) :
    ∀ e ∈ es, e.isConcrete = true :=
  Value.areConcrete_iff.mp h.isConcrete

/-- One vector that a builtin is called on. -/
theorem coerced_of_vectorArg {ess : List (List Value)}
    (h : vectorArgs (evaluator host fuel) c name args 1 = .ok ess) :
    List.Forall₂ (Coerced host c) args [.vector (ess.headD [])] := by
  obtain ⟨hargs, hlen⟩ := coerced_of_vectorArgs h
  obtain ⟨es, rfl⟩ := List.length_eq_one_iff.mp hlen
  exact hargs

/-- Two vectors that a builtin is called on. -/
theorem coerced_of_vectorPair {ess : List (List Value)}
    (h : vectorArgs (evaluator host fuel) c name args 2 = .ok ess) :
    List.Forall₂ (Coerced host c) args
      [.vector (ess.headD []), .vector (ess.tail.headD [])] := by
  obtain ⟨hargs, hlen⟩ := coerced_of_vectorArgs h
  obtain ⟨es, fs, rfl⟩ := List.length_eq_two.mp hlen
  exact hargs

section

variable {w : Value} {synthesized : Bool}

theorem account_sqrt (hrun : run host (evaluator host fuel) c args synthesized .sqrt = .ok w)
    (hr : evaluator host fuel .evaluate c w = .ok r) :
    Account host c args synthesized r .sqrt := by
  obtain ⟨u, hlen, hrun⟩ := bind_eq_ok_iff.mp hrun
  obtain ⟨x, rfl⟩ := List.length_eq_one_iff.mp (length_of_arity hlen)
  cases hrun
  obtain ⟨a, b, ha, hb, hop⟩ := operation_of_evaluate hr
  obtain rfl := hb.eq_of_concrete rfl
  exact ⟨a, .cons ha .nil, hop⟩

theorem account_dot (hrun : run host (evaluator host fuel) c args synthesized .dot = .ok w)
    (hr : evaluator host fuel .evaluate c w = .ok r) :
    Account host c args synthesized r .dot := by
  obtain ⟨ess, hess, hrun⟩ := bind_eq_ok_iff.mp hrun
  have hdot := DotProduct.of_dotOf hrun
  obtain rfl := eq_of_evaluate_concrete hdot.isConcrete hr
  exact ⟨_, _, coerced_of_vectorPair hess, hdot⟩

theorem account_mag (hrun : run host (evaluator host fuel) c args synthesized .mag = .ok w)
    (hr : evaluator host fuel .evaluate c w = .ok r) :
    Account host c args synthesized r .mag := by
  obtain ⟨ess, hess, hrun⟩ := bind_eq_ok_iff.mp hrun
  obtain ⟨d, hdot, hop⟩ := magnitude_of_magOf hrun
  obtain rfl := eq_of_evaluate_concrete hop.isConcrete hr
  exact ⟨_, d, coerced_of_vectorArg hess, hdot, hop⟩

theorem account_norm (hrun : run host (evaluator host fuel) c args synthesized .norm = .ok w)
    (hr : evaluator host fuel .evaluate c w = .ok r) :
    Account host c args synthesized r .norm := by
  obtain ⟨ess, hess, hrun⟩ := bind_eq_ok_iff.mp hrun
  obtain ⟨m, hm, hrun⟩ := bind_eq_ok_iff.mp hrun
  obtain ⟨d, hdot, hmag⟩ := magnitude_of_magOf hm
  have hop := operation_of_recur hrun
  obtain rfl := eq_of_evaluate_concrete hop.isConcrete hr
  obtain ⟨rs, rfl, hrs⟩ := Value.parts_of_arith hop.result
  exact ⟨_, d, m, rs, coerced_of_vectorArg hess, hdot, hmag, rfl,
    hrs.imp fun _ _ h => .of_arith h, Value.isFinite_vector⟩

theorem account_cross (hrun : run host (evaluator host fuel) c args synthesized .cross = .ok w)
    (hr : evaluator host fuel .evaluate c w = .ok r) :
    Account host c args synthesized r .cross := by
  obtain ⟨ess, hess, hrun⟩ := bind_eq_ok_iff.mp hrun
  have hargs := coerced_of_vectorPair hess
  generalize ess.headD [] = as at hrun hargs
  generalize ess.tail.headD [] = bs at hrun hargs
  have has : ∀ a ∈ as, a.isConcrete = true := by
    cases hargs with
    | cons h _ => exact concrete_of_coerced h
  have hbs : ∀ b ∈ bs, b.isConcrete = true := by
    cases hargs with
    | cons _ h =>
      cases h with
      | cons h _ => exact concrete_of_coerced h
  unfold crossOf at hrun
  split at hrun
  · next a₀ a₁ a₂ b₀ b₁ b₂ =>
    cases hrun
    simp only [List.mem_cons, List.not_mem_nil, or_false, forall_eq_or_imp, forall_eq] at has hbs
    obtain ⟨ha₀, ha₁, ha₂⟩ := has
    obtain ⟨hb₀, hb₁, hb₂⟩ := hbs
    obtain ⟨rs, rfl, hrs⟩ := exists_elements_of_evaluate hr
    match hrs with
    | .cons hx (.cons hy (.cons hz .nil)) =>
      exact ⟨a₀, a₁, a₂, b₀, b₁, b₂, _, _, _, hargs, rfl,
        component_of_coerced ha₁ hb₂ ha₂ hb₁ hx, component_of_coerced ha₂ hb₀ ha₀ hb₂ hy,
        component_of_coerced ha₀ hb₁ ha₁ hb₀ hz, by simp [Value.isFinite_vector]⟩
  · cases hrun

theorem account_map (hrun : run host (evaluator host fuel) c args synthesized .map = .ok w)
    (hr : evaluator host fuel .evaluate c w = .ok r) :
    Account host c args synthesized r .map := by
  obtain ⟨u, hlen, hrun⟩ := bind_eq_ok_iff.mp hrun
  obtain ⟨f, v, rfl⟩ := List.length_eq_two.mp (length_of_arity hlen)
  obtain ⟨g, hg, hrun⟩ := bind_eq_ok_iff.mp hrun
  have hcalls : ∃ elems, Coerced host c v (.vector elems) ∧
      w = .vector (elems.map fun x => .call g [x] false) := by
    cases g with
    | var | func | builtin =>
      obtain ⟨x, hx, hrun⟩ := bind_eq_ok_iff.mp hrun
      split at hrun
      · cases hrun
        exact ⟨_, ⟨fuel, hx⟩, rfl⟩
      · cases hrun
    | _ => cases hrun
  obtain ⟨elems, hv, rfl⟩ := hcalls
  obtain ⟨rs, rfl, hrs⟩ := exists_elements_of_evaluate hr
  rw [List.forall₂_map_left_iff] at hrs
  exact ⟨f, v, g, elems, rs, rfl, ⟨fuel, hg⟩, hv, rfl, hrs, Value.isFinite_vector⟩

theorem account_elem (hrun : run host (evaluator host fuel) c args synthesized .elem = .ok w)
    (hr : evaluator host fuel .evaluate c w = .ok r) :
    Account host c args synthesized r .elem := by
  obtain ⟨ws, hws, hrun⟩ := bind_eq_ok_iff.mp hrun
  obtain ⟨hargs, hlen⟩ := coerced_of_coerceArgs hws
  obtain ⟨v, i, rfl⟩ := List.length_eq_two.mp hlen
  obtain ⟨elems, n, rfl, rfl, hn, hget⟩ := elemOf_eq_ok hrun
  have hconc : w.isConcrete = true := by
    cases hargs with
    | cons h _ => exact concrete_of_coerced h w (List.mem_of_getElem? hget)
  obtain rfl := eq_of_evaluate_concrete hconc hr
  exact ⟨elems, n, hargs, hn, hget⟩

end

section

variable {ev : Recur} {w : Value}

theorem monadic_eq_ok {f : Nat → Binary → Except Stop (Option Binary)}
    (h : monadic ev c name args f = .ok w) : ∃ x, w = .number x := by
  obtain ⟨xs, -, h⟩ := bind_eq_ok_iff.mp h
  split at h
  · dsimp only at h
    split at h
    · cases h
    · obtain ⟨r, -, h⟩ := bind_eq_ok_iff.mp h
      cases r with
      | some r => exact ⟨_, (Except.ok.inj h).symm⟩
      | none => cases h
  · cases h

theorem real1_eq_ok {f : Float → Float} (h : real1 ev c name args f = .ok w) :
    ∃ x, w = .number x := by
  obtain ⟨xs, -, h⟩ := bind_eq_ok_iff.mp h
  split at h
  · exact ⟨_, (Except.ok.inj h).symm⟩
  · cases h

theorem real2_eq_ok {f : Float → Float → Float} (h : real2 ev c name args f = .ok w) :
    ∃ x, w = .number x := by
  obtain ⟨xs, -, h⟩ := bind_eq_ok_iff.mp h
  split at h
  · exact ⟨_, (Except.ok.inj h).symm⟩
  · cases h

theorem absOf_eq_ok {v : Value} (h : absOf v = .ok w) : ∃ x, w = .number x := by
  unfold absOf at h
  split at h
  · exact ⟨_, (Except.ok.inj h).symm⟩
  · exact ⟨_, (Except.ok.inj h).symm⟩
  · exact ⟨_, (Except.ok.inj h).symm⟩
  · cases h

end

end Builtin

/-- A builtin gives a finite number, or a value that is put together as its account tells: a vector
of which may be infinite what an operation on the arguments makes so. -/
theorem builtin_result_finite_iff {b : Builtin} {args : List Value} {synthesized : Bool}
    (h : (evaluator host fuel).invoke host c b args synthesized = .ok r) :
    (∀ x, r = .number x → x.isFinite = true) ∧ b.Account host c args synthesized r := by
  obtain ⟨⟨w, hrun, hr⟩, hnumber⟩ := Recur.invoke_eq_ok h
  have hscalar : (∃ x, w = .number x) → ∃ x, r = .number x ∧ x.isFinite = true := by
    rintro ⟨x, rfl⟩
    obtain rfl := eq_of_evaluate_concrete rfl hr
    exact ⟨x, rfl, hnumber x rfl⟩
  refine ⟨hnumber, ?_⟩
  cases b with
  | pi | e | phi => exact hscalar ⟨_, (Except.ok.inj hrun).symm⟩
  | abs =>
    obtain ⟨vs, -, hrun⟩ := bind_eq_ok_iff.mp hrun
    exact hscalar (Builtin.absOf_eq_ok hrun)
  | exp =>
    exact hscalar (Builtin.monadic_eq_ok
      (f := fun p x => .ok (some (c.precision.functions.exp p p x))) hrun)
  | ln => exact hscalar (Builtin.monadic_eq_ok (f := Builtin.onPositive _) hrun)
  | log => exact hscalar (Builtin.monadic_eq_ok (f := Builtin.onPositive _) hrun)
  | trig => exact hscalar (Builtin.real1_eq_ok hrun)
  | atan2 => exact hscalar (Builtin.real2_eq_ok hrun)
  | sqrt => exact Builtin.account_sqrt hrun hr
  | dot => exact Builtin.account_dot hrun hr
  | mag => exact Builtin.account_mag hrun hr
  | norm => exact Builtin.account_norm hrun hr
  | cross => exact Builtin.account_cross hrun hr
  | map => exact Builtin.account_map hrun hr
  | elem => exact Builtin.account_elem hrun hr
  | host => exact ⟨fuel, w, hrun, hr⟩

/-- Elements that are vectors meet fractions. -/
theorem cross_of_nested_vectors :
    let c := Context.fresh 1024 64
    let args : List Value := [.vector [.vector [.int 1, .int 2], .frac 1 2, .int 3],
      .vector [.int 4, .vector [.int 5, .int 6], .int 7]]
    let r : Value := .vector [.vector [.frac (-23) 2, .frac (-29) 2], .vector [.int 5, .int (-2)],
      .vector [.int 3, .int 10]]
    (evaluator Host.none 8).invoke Host.none c .cross args false = .ok r ∧
      r.isFinite = true ∧ Builtin.cross.Account Host.none c args false r := by
  intro c args r
  have h : (evaluator Host.none 8).invoke Host.none c .cross args false = .ok r := by cbv
  exact ⟨h, by decide, (builtin_result_finite_iff h).2⟩

/-- A product of the elements overflows, and nothing refuses the vector. -/
theorem cross_product_overflows :
    let a : Value := .vector [.real 1e200, .real 0, .real 0]
    let b : Value := .vector [.real 0, .real 1e200, .real 0]
    ∃ r, (evaluator Host.none 8).invoke Host.none (.fresh 1024 64) .cross [a, b] false = .ok r ∧
      r.isFinite = false := by
  intro a b
  have hcheck : ((evaluator Host.none 8).invoke Host.none (.fresh 1024 64) .cross [a, b]
      false).toOption.all Value.isFinite = false := by decide +kernel
  revert hcheck
  generalize Recur.invoke _ _ _ _ _ _ = x
  intro hcheck
  cases x with
  | error => cases hcheck
  | ok r => exact ⟨r, rfl, hcheck⟩

end Reckon
