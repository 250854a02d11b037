import Reckon.Proofs.Coercion
import Reckon.Proofs.Depth
import Reckon.Proofs.Relevance

/-!
Fuel. Once an evaluation comes to an end, more fuel makes no difference: nothing catches the stop of
an evaluator that ran out. Main statements: `evaluate_of_le` and `coerce_of_le`.
-/

namespace Reckon

open Leeway

/-- Nothing is said where the first evaluation runs out of fuel. -/
def Leeway.unfinished : Leeway where
  left := (· = .outOfFuel)

theorem Leeway.Pairs.eq_of_finished {α : Type} {Q : α → Prop} {x y : Except Stop α}
    (h : Leeway.unfinished.Pairs (Both Q) x y) (hx : x ≠ .error .outOfFuel) : x = y := by
  refine h.eq_of_not_left fun s hs he => hx ?_
  rw [hs, show s = .outOfFuel from he]

/-- By induction on the lesser fuel, as for equal fuel. -/
theorem Lockstep.abreast_of_le {l : Leeway} {P Q B : Value → Prop} {G : String → Prop}
    {C : Context → Context → Prop} (k : Lockstep l P Q B G C) (hl : l.left .outOfFuel)
    {n m : Nat} (hnm : n ≤ m) {c d : Context} (hcd : C c d) :
    Abreast l (Both P) Q (evaluator Host.none n) (evaluator Host.none m) c d := by
  induction n generalizing m c d with
  | zero => exact ⟨k.precision hcd, fun _ => .left hl, fun _ => .left hl⟩
  | succ n ih =>
    obtain ⟨m, rfl⟩ : ∃ k, m = k + 1 := ⟨m - 1, by omega⟩
    have hle : n ≤ m := Nat.le_of_succ_le_succ hnm
    have h : Abreast l (Both P) Q (evaluator Host.none n) (evaluator Host.none m) c d := ih hle hcd
    refine ⟨k.precision hcd, ?_, fun hv => h.settleStep k.forms.matching (k.sees hcd) hv⟩
    rintro v _ ⟨rfl, hv⟩
    exact k.evalStep (ih hle) hcd hv

/-- A context beside itself. -/
theorem lockstep_self (l : Leeway) :
    Lockstep l (fun _ => True) (fun _ => True) (fun _ => True) (fun _ => True) Eq where
  forms := forms_all
  precision h := by rw [h]
  sees h := by
    cases h
    exact ⟨fun _ => rfl, fun _ _ => trivial, fun _ => trivial, fun _ => trivial⟩
  globally h _ := by
    cases h
    exact ⟨rfl, fun _ _ => trivial⟩
  frame h := by
    cases h
    exact Context.opened_pairs rfl rfl
  calling h _ := by rw [h]

variable {n m : Nat}

theorem abreast_of_le (hnm : n ≤ m) (c : Context) :
    Abreast .unfinished (Both fun _ => True) (fun _ => True) (evaluator Host.none n)
      (evaluator Host.none m) c c :=
  (lockstep_self _).abreast_of_le rfl hnm rfl

theorem opens_of_le (hnm : n ≤ m) (c : Context) (body : Value) :
    Opens .unfinished (fun _ => True) (fun _ => True) (evaluator Host.none n)
      (evaluator Host.none m) c c body where
  frame := Context.opened_pairs rfl rfl
  evaluate _ := (abreast_of_le hnm _).evaluate ⟨rfl, trivial⟩
  sees _ := (lockstep_self .unfinished).sees rfl

/-- What an expression is evaluated to with some fuel, or what stops its evaluation, stays the same
with more, unless fuel was what it lacked. -/
theorem evaluate_of_le (hnm : n ≤ m) (c : Context) (v : Value)
    (hne : evaluator Host.none n .evaluate c v ≠ .error .outOfFuel) :
    evaluator Host.none m .evaluate c v = evaluator Host.none n .evaluate c v := by
  have hpairs := (abreast_of_le hnm c).evaluate (⟨rfl, trivial⟩ : Both (fun _ => True) v v)
  exact (hpairs.eq_of_finished hne).symm

theorem coerce_of_le (hnm : n ≤ m) (c : Context) (v : Value)
    (hne : (evaluator Host.none n).coerce c v ≠ .error .outOfFuel) :
    (evaluator Host.none m).coerce c v = (evaluator Host.none n).coerce c v := by
  have hpairs := (abreast_of_le hnm c).coerce (⟨rfl, trivial⟩ : Both (fun _ => True) v v)
  exact (hpairs.eq_of_finished hne).symm

section

variable {w : Value} (hw : w.isConcrete = true) (fuel : Nat) (c : Context)
include hw

/-- A concrete value is evaluated to itself, if the fuel suffices. -/
theorem evaluate_concrete_or : evaluator Host.none fuel .evaluate c w = .ok w ∨
    evaluator Host.none fuel .evaluate c w = .error .outOfFuel := by
  by_cases hne : evaluator Host.none fuel .evaluate c w = .error .outOfFuel
  · exact .inr hne
  · rw [← evaluate_of_le (Nat.le_max_left fuel (sizeOf w)) c w hne]
    exact .inl (evaluate_of_isConcrete Host.none c hw (Nat.le_max_right _ _))

theorem coerce_concrete_or : (evaluator Host.none fuel).coerce c w = .ok w ∨
    (evaluator Host.none fuel).coerce c w = .error .outOfFuel := by
  by_cases hne : (evaluator Host.none fuel).coerce c w = .error .outOfFuel
  · exact .inr hne
  · rw [← coerce_of_le (Nat.le_max_left fuel (sizeOf w + 1)) c w hne]
    exact .inl (coerce_of_isConcrete Host.none c hw (Nat.le_max_right _ _))

end

end Reckon
