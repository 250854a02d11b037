import Reckon.Proofs.BuiltinCalls
import Reckon.Proofs.Faithful
import Reckon.Proofs.Fuel

/-!
The builtin that calls a function with each element of a vector, beside the vector of these calls
with the elements as subscripts. It hands back calls with results in place of expressions, and these
are evaluated once more. Main statement: `map_agrees_with_calls_iff`.
-/

namespace Reckon

open Leeway

/-- With this much fuel, or more, the expression evaluates to `w`. -/
def EvaluatesWith (c : Context) (fuel : Nat) (v w : Value) : Prop :=
  ∀ n, fuel ≤ n → evaluator Host.none n .evaluate c v = .ok w

/-- Functions, builtins and references: what is called with the elements. -/
def Value.isCallee : Value → Bool
  | .var _ | .func _ _ | .builtin _ => true
  | _ => false

/-- `v` is `w` with results in place of expressions that evaluate to them. -/
inductive Stands (c : Context) (fuel : Nat) : Value → Value → Prop
  | same (v : Value) : Stands c fuel v v
  | result {v w} : v.isConcrete = true → EvaluatesWith c fuel w v → Stands c fuel v w
  | binary {op a b a' b'} : Stands c fuel a a' → Stands c fuel b b' →
      Stands c fuel (.binary op a b) (.binary op a' b')
  | vector {vs ws} : List.Forall₂ (Stands c fuel) vs ws → Stands c fuel (.vector vs) (.vector ws)
  | call {g f args args'} : g.isCallee = true → EvaluatesWith c fuel f g →
      (f.isReference = true → f = g) → List.Forall₂ (Stands c fuel) args args' →
      Stands c fuel (.call g args false) (.call f args' false)

variable {c : Context} {fuel : Nat}

theorem EvaluatesWith.ne_missing {v w : Value} (h : EvaluatesWith c fuel v w) : v ≠ .missing :=
  Evaluates.ne_missing ⟨fuel, h⟩

theorem stands_matching (c : Context) (fuel : Nat) : Matching (Stands c fuel) fun _ => True where
  numeric _ := trivial
  vector _ := trivial
  elem _ _ := trivial
  again _ := .same _
  missing := by
    intro v w h
    cases h with
    | same => rfl
    | result hv hw =>
      refine ⟨fun he => ?_, fun he => absurd he hw.ne_missing⟩
      rw [he] at hv
      cases hv
    | binary | vector | call => simp
  absent := .same _
  binary := .binary
  elements := .vector
  call _ _ := .same _

/-- A callee in place of an expression is applied like what the expression evaluates to. -/
theorem evalStep_callee {f g : Value} (hf : EvaluatesWith c fuel f g)
    (hname : f.isReference = true → f = g) (hg : g.isCallee = true) (args : List Value) {n : Nat}
    (hn : fuel ≤ n) :
    (evaluator Host.none n).evalStep Host.none c (.call f args false) =
      (evaluator Host.none n).apply Host.none c g args false := by
  cases hr : f.isReference with
  | true =>
    obtain rfl := hname hr
    cases f with
    | var => rfl
    | _ => cases hr
  | false => rw [Recur.evalStep_call hr hf.ne_missing, hf n hn, ok_bind]

/-- A callee itself is called at once, given any fuel. -/
theorem evalStep_own_callee {g : Value} (hg : g.isCallee = true) (args : List Value) (n : Nat) :
    (evaluator Host.none n).evalStep Host.none c (.call g args false) =
        (evaluator Host.none n).apply Host.none c g args false ∨
      (evaluator Host.none n).evalStep Host.none c (.call g args false) = .error .outOfFuel := by
  cases g with
  | var => exact .inl rfl
  | func | builtin =>
    cases n with
    | zero => exact .inr rfl
    | succ => exact .inl rfl
  | _ => cases hg

/-- Both calls apply the callee, to arguments that stand for each other. -/
theorem call_abreast {n : Nat}
    (h : Abreast .unfinished (Stands c fuel) (fun _ => True) (evaluator Host.none n)
      (evaluator Host.none (n + fuel)) c c)
    {f g : Value} (hg : g.isCallee = true) (hf : EvaluatesWith c fuel f g)
    (hname : f.isReference = true → f = g) {args args' : List Value}
    (hargs : List.Forall₂ (Stands c fuel) args args') :
    Leeway.unfinished.Pairs (Both fun _ => True)
      ((evaluator Host.none n).evalStep Host.none c (.call g args false))
      ((evaluator Host.none (n + fuel)).evalStep Host.none c (.call f args' false)) := by
  rw [evalStep_callee hf hname hg args' (Nat.le_add_left fuel n)]
  rcases evalStep_own_callee hg args n with hleft | hleft
  · rw [hleft]
    have hopens := opens_of_le (Nat.le_add_right n fuel) c
    exact h.apply (stands_matching c fuel) ((lockstep_self .unfinished).sees rfl)
      (fun _ => hopens _) hargs trivial nofun
  · rw [hleft]
    exact .left rfl

/-- By induction on the fuel of the first evaluation; the second has enough more for the expressions
to come to their results. -/
theorem stands_abreast (c : Context) (fuel n : Nat) :
    Abreast .unfinished (Stands c fuel) (fun _ => True) (evaluator Host.none n)
      (evaluator Host.none (n + fuel)) c c := by
  have m := stands_matching c fuel
  induction n with
  | zero => exact ⟨rfl, fun _ => .left rfl, fun _ => .left rfl⟩
  | succ n ih =>
    have hmore := abreast_of_le (Nat.le_add_right (n + 1) fuel) c
    refine ⟨rfl, ?_, hmore.settle⟩
    intro v w hvw
    rw [Nat.succ_add] at hmore ⊢
    cases hvw with
    | same => exact hmore.evaluate ⟨rfl, trivial⟩
    | result hv hw =>
      rw [hw _ (by omega)]
      rcases evaluate_concrete_or hv (n + 1) c with he | he
      · rw [he]
        exact .ok trivial
      · rw [he]
        exact .left rfl
    | binary ha hb => exact ih.evalBinary m _ ha hb
    | vector h => exact ih.evalVector m h
    | call hg hf hname hargs => exact call_abreast ih hg hf hname hargs

theorem EvaluatesWith.mono {v w : Value} (h : EvaluatesWith c fuel v w) {more : Nat}
    (hle : fuel ≤ more) : EvaluatesWith c more v w :=
  fun n hn => h n (Nat.le_trans hle hn)

theorem evaluatesWith_all {vs ws : List Value} (h : List.Forall₂ (Evaluates c) vs ws) :
    ∃ fuel, List.Forall₂ (EvaluatesWith c fuel) vs ws := by
  induction h with
  | nil => exact ⟨0, .nil⟩
  | cons hv _ ih =>
    obtain ⟨N, hN⟩ := hv
    obtain ⟨M, hM⟩ := ih
    have hhead : EvaluatesWith c N _ _ := hN
    refine ⟨max N M, .cons (hhead.mono (Nat.le_max_left N M)) ?_⟩
    exact hM.imp fun _ _ hvw => hvw.mono (Nat.le_max_right N M)

/-- The calls of `f` with each of the arguments. -/
def Value.callEach (f : Value) (args : List Value) : Value :=
  .vector (args.map fun x => .call f [x] false)

/-- The first `n` elements of a vector, as subscripts. -/
def Value.subscripts (v : Value) (n : Nat) : List Value :=
  (List.range n).map fun i => v.subscript (.int (Int64.ofNat i))

theorem stands_callEach {f g : Value} (hg : g.isCallee = true) (hf : EvaluatesWith c fuel f g)
    (hname : f.isReference = true → f = g) {vs ws : List Value}
    (hvs : ∀ v ∈ vs, v.isConcrete = true) (h : List.Forall₂ (EvaluatesWith c fuel) ws vs) :
    Stands c fuel (g.callEach vs) (f.callEach ws) := by
  refine .vector ?_
  rw [List.forall₂_map_left_iff, List.forall₂_map_right_iff]
  induction h with
  | nil => exact .nil
  | cons hw _ ih =>
    obtain ⟨hv, hvs⟩ := List.forall_mem_cons.mp hvs
    exact .cons (.call hg hf hname (.cons (.result hv hw) .nil)) (ih hvs)

section

variable {v : Value} {elems : List Value}

theorem elemOf_index {i : Nat} {x : Value} (hi : i < 2 ^ 63)
    (hx : elems[i]? = some x) : Builtin.elemOf (.vector elems) (.int (Int64.ofNat i)) = .ok x := by
  have hint : (Int64.ofNat i).toInt = i := Int64.toInt_ofNat_of_lt (by omega)
  have hpos : ¬ Int64.ofNat i < 0 := by
    rw [Int64.lt_iff_toInt_lt, hint]
    simp
  have hnat : (Int64.ofNat i).toInt.toNat = i := by omega
  rw [Value.int, Builtin.elemOf, if_neg hpos, hnat, hx]

/-- A subscript evaluates to the element, which must not be an infinite real. -/
theorem Evaluates.subscript (hv : Coerces c v (.vector elems))
    (helem : Callee c true .elem (.var "elem")) {i : Nat} {x : Value}
    (hi : i < 2 ^ 63) (hx : elems[i]? = some x) (hconc : x.isConcrete = true)
    (hfin : x.isFinite = true) : Evaluates c (v.subscript (.int (Int64.ofNat i))) x := by
  have hindex : Coerces c (.int (Int64.ofNat i)) (.int (Int64.ofNat i)) := .concrete rfl
  obtain ⟨N, hN⟩ := coerceArgs_eventually "elem" (.cons hv (.cons hindex .nil))
  refine .call helem rfl ⟨N, fun fuel hfuel => ?_⟩ (.concrete hconc) hfin
  have hargs : Builtin.coerceArgs _ c "elem" [v, .int (Int64.ofNat i)] 2 = .ok _ := hN fuel hfuel
  rw [Builtin.run, hargs, ok_bind]
  exact elemOf_index hi hx

theorem Evaluates.subscripts (hv : Coerces c v (.vector elems))
    (helem : Callee c true .elem (.var "elem")) (hlen : elems.length ≤ 2 ^ 63)
    (hconc : ∀ x ∈ elems, x.isConcrete = true) (hfin : ∀ x ∈ elems, x.isFinite = true) :
    List.Forall₂ (Evaluates c) (v.subscripts elems.length) elems := by
  refine List.forall₂_iff_get.mpr ⟨by simp [Value.subscripts], fun i hi hi' => ?_⟩
  have hmem : elems.get ⟨i, hi'⟩ ∈ elems := List.get_mem elems ⟨i, hi'⟩
  simp only [Value.subscripts, List.get_eq_getElem, List.getElem_map, List.getElem_range] at *
  exact .subscript hv helem (by omega) (List.getElem?_eq_getElem hi') (hconc _ hmem) (hfin _ hmem)

theorem exists_vector_of_evaluate {vs : List Value} {n : Nat} {r : Value}
    (h : evaluator Host.none n .evaluate c (.vector vs) = .ok r) :
    ∃ rs, r = .vector rs ∧ rs.length = vs.length := by
  cases n with
  | zero => cases h
  | succ n =>
    obtain ⟨rs, hrs, hr⟩ := bind_eq_ok_iff.mp h
    cases hr
    exact ⟨rs, rfl, length_of_mapM hrs⟩

theorem exists_vector_of_coerce {vs : List Value} {n : Nat} {r : Value}
    (h : (evaluator Host.none n).coerce c (.vector vs) = .ok r) :
    ∃ rs, r = .vector rs ∧ rs.length = vs.length := by
  obtain ⟨w, hw, hr⟩ := bind_eq_ok_iff.mp h
  obtain ⟨rs, rfl, hrs⟩ := exists_vector_of_evaluate hw
  cases n with
  | zero => cases hr
  | succ n =>
    cases hr
    exact ⟨rs, rfl, hrs⟩

variable {f g : Value}

theorem run_map {n : Nat} (hg : g.isCallee = true)
    (hf : evaluator Host.none n .evaluate c f = .ok g)
    (hv : (evaluator Host.none n).coerce c v = .ok (.vector elems)) :
    Builtin.map.run Host.none (evaluator Host.none n) c [f, v] false =
      .ok (g.callEach elems) := by
  change Builtin.mapOf (evaluator Host.none n) c f v = _
  rw [Builtin.mapOf, hf, ok_bind]
  cases g with
  | var | func | builtin =>
    dsimp only
    rw [hv]
    rfl
  | _ => cases hg

/-- The calls that `map` hands back are coerced. -/
theorem coerce_map (hmap : Callee c false .map (.var "map")) {n : Nat}
    (hrun : Builtin.map.run Host.none (evaluator Host.none (n + 1)) c [f, v] false =
      .ok (g.callEach elems)) :
    (evaluator Host.none (n + 2)).coerce c (.call (.var "map") [f, v] false) =
      (evaluator Host.none (n + 1)).coerce c (g.callEach elems) := by
  have hinvoke : evaluator Host.none (n + 2) .evaluate c (.call (.var "map") [f, v] false) =
      (evaluator Host.none (n + 1)).invoke Host.none c .map [f, v] false := hmap.evaluate n
  rw [Recur.coerce, Recur.coerce, hinvoke, Recur.invoke, hrun, ok_bind]
  dsimp only [Value.callEach]
  cases hr : evaluator Host.none (n + 1) .evaluate c (.vector _) with
  | error stop => rfl
  | ok r =>
    obtain ⟨rs, rfl, -⟩ := exists_vector_of_evaluate hr
    rfl

/-- A name that evaluates to something to call is a reference to it. -/
theorem Evaluates.eq_reference (hc : c.Sound) (h : Evaluates c f g) (hg : g.isCallee = true)
    (hf : f.isReference = true) : f = g := by
  obtain ⟨N, hN⟩ := h
  cases f with
  | var name =>
    have heval : ∀ n, N ≤ n → (evaluator Host.none n).evalName c name = .ok g :=
      fun n hn => hN (n + 1) (Nat.le_succ_of_le hn)
    unfold Recur.evalName at heval
    cases hb : c.get? name with
    | none =>
      rw [hb] at heval
      cases heval N (Nat.le_refl N)
    | some b =>
      obtain ⟨other, w⟩ := b
      have hw : Held w := hc.get? hb
      rw [hb] at heval
      cases hw with
      | builtin => exact Except.ok.inj (heval N (Nat.le_refl N))
      | result hw =>
        have hself := evaluate_of_isConcrete Host.none c hw.isConcrete (Nat.le_max_right N _)
        have hmax := heval _ (Nat.le_max_left N (sizeOf w))
        cases hw with
        | func | builtin => exact Except.ok.inj hmax
        | number | vector =>
          cases hself.symm.trans hmax
          cases hg
  | _ => cases hf

end

/-- The contexts that lines lead to, and those inside calls made there. -/
def Context.Visited (c : Context) : Prop :=
  (∀ frame ∈ c.frames, ∀ b ∈ frame, Held b.value) ∧
    ∃ d : Context, d.Reached ∧ c = { d with frames := c.frames }

namespace Context.Visited

variable (hc : c.Visited)
include hc

theorem sound : c.Sound := by
  obtain ⟨hframes, d, hd, he⟩ := hc
  refine ⟨?_, hframes⟩
  rw [he]
  exact hd.sound.1

theorem global?_standard (name : String) {b : Builtin}
    (h : standard.lookup? name = some (.builtin b)) :
    ∃ binding, c.global? name = some binding ∧ binding.value = .builtin b := by
  obtain ⟨-, d, ⟨fuel, maxDepth, precision, before, rfl⟩, he⟩ := hc
  rw [he]
  exact Option.map_eq_some_iff.mp
    (session_keeps_builtin (fresh_orderly maxDepth precision) before h)

theorem callee_elem : Callee c true .elem (.var "elem") := by
  obtain ⟨b, hb, hv⟩ := hc.global?_standard "elem" rfl
  exact .named hb hv

theorem callee_map (hlocal : c.local? "map" = none) : Callee c false .map (.var "map") := by
  obtain ⟨b, hb, hv⟩ := hc.global?_standard "map" rfl
  have hget : c.get? "map" = some b := by rw [get?_eq, hlocal, Option.none_or, hb]
  exact .named hget hv

end Context.Visited

section

variable {f g v : Value} {elems : List Value} (hc : c.Visited) (hlocal : c.local? "map" = none)
  (hg : Evaluates c f g) (hcallee : g.isCallee = true) (hv : v.IsRead)
  (helems : Evaluates c v (.vector elems))
  (hfin : (Value.vector elems).isFinite = true) (hlen : elems.length ≤ 2 ^ 63)
include hc hlocal hg hcallee hv helems hfin hlen

/-- The calls that `map` hands back stand for those written out. -/
theorem map_pairs : ∃ N, ∀ n, N ≤ n → Leeway.unfinished.Pairs (Both fun _ => True)
    ((Engine.ofFuel (n + 2)).coerce c (.call (.var "map") [f, v] false))
    ((Engine.ofFuel (n + 1 + N)).coerce c (f.callEach (v.subscripts elems.length))) := by
  have hconc : Concrete (.vector elems) := by
    cases helems.evaluated hc.sound hv.evaluable with
    | result hconc => exact hconc
  have hall : ∀ x ∈ elems, x.isConcrete = true := by
    cases hconc with
    | vector hx => exact fun x hmem => (hx x hmem).isConcrete
  have hcoerces : Coerces c v (.vector elems) := helems.coerces hconc.isConcrete
  have hname := hg.eq_reference hc.sound hcallee
  obtain ⟨K, hK⟩ := evaluatesWith_all
    (Evaluates.subscripts hcoerces hc.callee_elem hlen hall (Value.isFinite_vector.mp hfin))
  obtain ⟨L, hL⟩ := hg
  obtain ⟨M, hM⟩ := hcoerces
  have hf : EvaluatesWith c L f g := hL
  refine ⟨max K (max L M), fun n hn => ?_⟩
  have hrun := run_map hcallee (hf (n + 1) (by omega)) (hM (n + 1) (by omega))
  have hstands : Stands c (max K (max L M)) (g.callEach elems)
      (f.callEach (v.subscripts elems.length)) :=
    stands_callEach hcallee (hf.mono (by omega)) hname hall
      (hK.imp fun _ _ h => h.mono (Nat.le_max_left _ _))
  change Pairs _ _ ((evaluator Host.none (n + 2)).coerce c _) _
  rw [coerce_map (hc.callee_map hlocal) hrun]
  exact ((stands_abreast c _ (n + 1)).coerce hstands).monoBoth fun _ _ => trivial

end

theorem evaluable_callEach {f v : Value} (hf : Evaluable f) (hv : Evaluable v) (n : Nat) :
    Evaluable (f.callEach (v.subscripts n)) := by
  refine .vector (List.forall_mem_map.mpr (List.forall_mem_map.mpr fun i _ => ?_))
  have hargs : ∀ w ∈ [v, .int (Int64.ofNat i)], Evaluable w := by
    refine List.forall_mem_cons.mpr ⟨hv, ?_⟩
    exact List.forall_mem_singleton.mpr (.number trivial)
  exact .call hf (List.forall_mem_singleton.mpr (.call (.var "elem") hargs))

/-- A tree without reals and subscripted factorials is what its text is read as. -/
theorem Readable.isRead {v : Value} (hv : Readable v) (hparts : ∀ w ∈ v.parts, w.Reparsable) :
    v.IsRead := by
  obtain ⟨ss, q, hq, hph⟩ := hv.reads_last hparts .plain []
  refine ⟨[], String.ofList (Piece.spell (v.pieces .plain [])), 0,
    Reading.parse_eq_ok_iff.mpr ⟨ss, .before q [] 0, ?_, hph, rfl⟩⟩
  rw [String.toList_ofList]
  exact hq

/-- Let `f` evaluate to a function, a builtin or a reference to one, and `v` to a vector without
infinite reals, where the name `map` is not hidden. With enough fuel the coercion of `map(f, v)` and
that of the vector of the calls `f(v[0])`, `f(v[1])` and so on come to the same. This is a vector as
long as `v` or an error exactly if the calls do not come to a modulus whose divisor wraps to zero;
if they do, both stop there with a fault. Indices are words, so no vector is longer than they
reach. -/
theorem map_agrees_with_calls_iff {c : Context} (hc : c.Visited) (hlocal : c.local? "map" = none)
    {f g v : Value} {elems : List Value} (hf : f.IsRead) (hg : Evaluates c f g)
    (hcallee : g.isCallee = true) (hv : v.IsRead) (helems : Evaluates c v (.vector elems))
    (hfin : (Value.vector elems).isFinite = true) (hlen : elems.length ≤ 2 ^ 63) :
    ∃ N, ∀ fuel, N ≤ fuel →
      let e := Engine.ofFuel fuel
      let mapped := e.coerce c (.call (.var "map") [f, v] false)
      let calls := f.callEach (v.subscripts elems.length)
      mapped = e.coerce c calls ∧
      (Returned mapped ↔ ¬ calls.Wraps fuel c) ∧
      (calls.Wraps fuel c → mapped = .error (.fault .zeroDivisor)) ∧
      ∀ r, mapped = .ok r → ∃ rs, r = .vector rs ∧ rs.length = elems.length := by
  have hmapped : Evaluable (.call (.var "map") [f, v] false) := by
    refine .call (.var "map") (List.forall_mem_cons.mpr ⟨hf.evaluable, ?_⟩)
    exact List.forall_mem_singleton.mpr hv.evaluable
  have hcalls := evaluable_callEach hf.evaluable hv.evaluable elems.length
  obtain ⟨N, hN⟩ := map_pairs hc hlocal hg hcallee hv helems hfin hlen
  obtain ⟨M, r, hr, hM⟩ := (coercion_ends hc.sound hmapped).halts
  obtain ⟨L, s, -, hL⟩ := (coercion_ends hc.sound hcalls).halts
  obtain ⟨K, hK⟩ := coercion_returns_iff hc.sound hcalls
  have hsame : r = s := by
    obtain ⟨n, hn⟩ : ∃ n, N ≤ n ∧ M ≤ n ∧ L ≤ n := ⟨max N (max M L), by omega⟩
    have hpairs := hN n hn.1
    have hleft : (Engine.ofFuel (n + 2)).coerce c _ = r := hM (n + 2) (by omega)
    have hright : (Engine.ofFuel (n + 1 + N)).coerce c _ = s := hL (n + 1 + N) (by omega)
    rw [hleft, hright] at hpairs
    exact hpairs.eq_of_finished hr
  refine ⟨max M (max L K), fun fuel hfuel => ?_⟩
  intro e mapped calls
  have heq : mapped = e.coerce c calls :=
    ((hM fuel (by omega)).trans hsame).trans (hL fuel (by omega)).symm
  obtain ⟨hreturns, hwraps⟩ := hK fuel (by omega)
  rw [heq]
  refine ⟨rfl, hreturns, hwraps, fun w hw => ?_⟩
  obtain ⟨rs, rfl, hrs⟩ := exists_vector_of_coerce hw
  refine ⟨rs, rfl, hrs.trans ?_⟩
  simp [Value.subscripts]

/-- Inside a call, a function that calls its argument is mapped over a number and a builtin. -/
theorem map_agrees_with_calls_of_elements :
    let c := { Context.fresh 1024 64 with frames := [[⟨"w", .int 3⟩]] }
    let f : Value := .func ["x"] (.call (.var "x") [.var "ans"] false)
    let v : Value := .vector [.var "w", .var "abs"]
    let elems : List Value := [.int 3, .builtin .abs]
    (c.Visited ∧ c.local? "map" = none ∧ f.IsRead ∧ Evaluates c f f ∧ f.isCallee = true ∧
      v.IsRead ∧ Evaluates c v (.vector elems) ∧ (Value.vector elems).isFinite = true ∧
      elems.length ≤ 2 ^ 63) ∧
    ∃ N, ∀ fuel, N ≤ fuel →
      let e := Engine.ofFuel fuel
      e.coerce c (.call (.var "map") [f, v] false) =
        e.coerce c (f.callEach (v.subscripts elems.length)) := by
  intro c f v elems
  have hc : c.Visited := by
    refine ⟨List.forall_mem_singleton.mpr (List.forall_mem_singleton.mpr ?_), _,
      ⟨0, 1024, 64, [], rfl⟩, rfl⟩
    exact .result (.number trivial)
  have hf : f.IsRead := ⟨[], "|x| x(ans)", 0, by cbv⟩
  have hv : v.IsRead := ⟨[], "<w, abs>", 0, by cbv⟩
  have hg : Evaluates c f f := .concrete rfl
  have helems : Evaluates c v (.vector elems) := by
    refine ⟨3, fun fuel hfuel => ?_⟩
    obtain ⟨n, rfl⟩ := Nat.exists_eq_add_of_le' hfuel
    rfl
  have hlen : elems.length ≤ 2 ^ 63 := by norm_num [elems]
  obtain ⟨N, hN⟩ := map_agrees_with_calls_iff hc rfl hf hg rfl hv helems rfl hlen
  exact ⟨⟨hc, rfl, hf, hg, rfl, hv, helems, rfl, hlen⟩, N, fun fuel hfuel => (hN fuel hfuel).1⟩

/-- The product of the denominator and the divisor is 2 to the power of 64. -/
theorem map_of_modulus_stops :
    let c := Context.fresh 1024 64
    let n : Value := .int 4294967296
    let f : Value := .func ["x"] (.binary .mod (.binary .div (.var "x") n) n)
    let v : Value := .vector [.int 1, .int 1]
    let e : Engine := {}
    let mapped := e.coerce c (.call (.var "map") [f, v] false)
    let listed := e.coerce c (f.callEach (v.subscripts 2))
    (c.Visited ∧ c.local? "map" = none ∧ f.IsRead ∧ Evaluates c f f ∧ v.IsRead ∧
      Evaluates c v v ∧ v.isFinite = true) ∧
    mapped = .error (.fault .zeroDivisor) ∧ listed = .error (.fault .zeroDivisor) ∧
      ¬ Returned mapped := by
  intro c n f v e mapped listed
  have hc : c.Visited := ⟨nofun, c, ⟨0, 1024, 64, [], rfl⟩, rfl⟩
  have hint : ∀ m : Int64, 0 ≤ m → Readable (.int m) := fun _ => .int
  have hf : f.IsRead := by
    have hn := hint 4294967296 (by decide)
    refine Readable.isRead (.func (by decide) (.binary rfl (.binary rfl (.var rfl) hn) hn)) ?_
    simp [f, n, Value.parts, Value.Reparsable, Value.int, Value.real, Value.subscript]
  have hv : v.IsRead := by
    have hone := hint 1 (by decide)
    refine Readable.isRead (.vector (by simp) (by simp [hone])) ?_
    simp [v, Value.parts, Value.partsAll, Value.Reparsable, Value.int, Value.real, Value.subscript]
  have hmapped : mapped = .error (.fault .zeroDivisor) := eq_error_of_fault? (by decide +kernel)
  have hlisted : listed = .error (.fault .zeroDivisor) := eq_error_of_fault? (by decide +kernel)
  refine ⟨⟨hc, rfl, hf, .concrete rfl, hv, .concrete rfl, rfl⟩, hmapped, hlisted, ?_⟩
  rw [hmapped]
  exact id

end Reckon
