import Reckon.Proofs.Lockstep

namespace Reckon

open Leeway

/-- `d` is `c` with room for more frames. -/
structure Context.Deepens (limit : Int) (c d : Context) : Prop where
  limit : c.maxDepth = limit
  le : c.maxDepth ≤ d.maxDepth
  rest : d = { c with maxDepth := d.maxDepth }

theorem Context.deepens_self (c : Context) {limit : Int} (h : c.maxDepth ≤ limit) :
    c.Deepens c.maxDepth { c with maxDepth := limit } := ⟨rfl, h, rfl⟩

namespace Context.Deepens

variable {limit : Int} {c d : Context} (h : c.Deepens limit d)
include h

theorem frames : d.frames = c.frames := by rw [h.rest]

theorem global? (name : String) : c.global? name = d.global? name := by
  rw [h.rest]
  rfl

theorem get? (name : String) : c.get? name = d.get? name := by
  rw [h.rest]
  rfl

theorem calling (bs : List Binding) : (c.calling bs).Deepens limit (d.calling bs) where
  limit := h.limit
  le := h.le
  rest := by
    rw [h.rest]
    rfl

/-- A frame that the first context has no room for stops the first evaluation alone. -/
theorem opened :
    Pairs { left := (· = .ofCause (.tooDeep limit)) }
      (fun e f => e = c.calling [] ∧ f = d.calling []) c.opened d.opened := by
  unfold Context.opened
  cases hc : c.push with
  | error cause =>
    have hcause : cause = .tooDeep limit := by
      unfold Context.push at hc
      split at hc
      · rw [← h.limit]
        exact (Except.error.inj hc).symm
      · cases hc
    rw [hcause]
    exact .left rfl
  | ok e =>
    obtain ⟨hroom, rfl⟩ := push_eq_ok_iff.mp hc
    have hd : d.push = .ok (d.calling []) := by
      refine push_eq_ok_iff.mpr ⟨?_, rfl⟩
      rw [h.frames]
      exact Int.lt_of_lt_of_le hroom h.le
    rw [hd]
    exact .value ⟨rfl, rfl⟩

end Context.Deepens

theorem forms_all : Forms (fun _ => True) (fun _ => True) fun _ => True where
  literal _ _ := trivial
  reference _ := trivial
  again _ := trivial
  numeric _ := trivial
  vector _ := trivial
  elem _ _ := trivial
  body _ := trivial
  call _ _ := trivial
  absent := trivial
  binary := by simp
  unary _ := trivial
  elements := by simp
  args _ _ _ := trivial
  callee _ _ := trivial
  synthesized _ _ _ := trivial

theorem lockstep_deepens (limit : Int) :
    Lockstep { left := (· = .ofCause (.tooDeep limit)) } (fun _ => True) (fun _ => True)
      (fun _ => True) (fun _ => True) (Context.Deepens limit) where
  forms := forms_all
  precision h := by rw [h.rest]
  sees h := ⟨fun _ => h.get? _, fun _ _ => trivial, fun _ => trivial, fun _ => trivial⟩
  globally h _ := ⟨h.global? _, fun _ _ => trivial⟩
  frame h := h.opened
  calling h _ := h.calling _

/-- With a greater limit on the number of frames evaluation and coercion come to the same, unless
they came to the error that the limit was exceeded. -/
theorem evaluation_with_greater_limit (fuel : Nat) (c : Context) {limit : Int}
    (hlimit : c.maxDepth ≤ limit) (v : Value) :
    let e := Engine.ofFuel fuel
    let exceeded : Error := ⟨.tooDeep c.maxDepth, 0⟩
    (exceeded.kind = .runtime ∧
      exceeded.message = s!"Maximum call depth ({c.maxDepth}) exceeded.") ∧
    (e.eval c v ≠ .error (.error exceeded) →
      e.eval { c with maxDepth := limit } v = e.eval c v) ∧
    (e.coerce c v ≠ .error (.error exceeded) →
      e.coerce { c with maxDepth := limit } v = e.coerce c v) := by
  intro e exceeded
  have h := (lockstep_deepens c.maxDepth).abreast (c.deepens_self hlimit) fuel
  refine ⟨⟨rfl, rfl⟩, fun hne => ?_, fun hne => ?_⟩
  · refine ((h.evaluate ⟨rfl, trivial⟩).eq_of_not_left fun s hs he => hne ?_).symm
    subst he
    exact hs
  · refine ((h.coerce ⟨rfl, trivial⟩).eq_of_not_left fun s hs he => hne ?_).symm
    subst he
    exact hs

/-- A call inside a call, with room for the two of them and no more. -/
theorem evaluation_with_just_enough_room :
    let c := Context.fresh 2 64
    let inner : Value := .call (.func ["y"] (.binary .add (.var "y") (.int 1))) [.var "x"] false
    let v : Value := .call (.func ["x"] inner) [.int 2] false
    let e := Engine.ofFuel 12
    (c.maxDepth ≤ 3 ∧ e.coerce c v = .ok (.int 3)) ∧
      e.coerce { c with maxDepth := 3 } v = .ok (.int 3) := by
  intro c inner v e
  have hlimit : c.maxDepth ≤ 3 := by decide
  have hv : e.coerce c v = .ok (.int 3) := by rfl
  refine ⟨⟨hlimit, hv⟩, ?_⟩
  rw [(evaluation_with_greater_limit 12 c hlimit v).2.2 (by rw [hv]; simp), hv]

end Reckon
