import Reckon.Proofs.Sessions

namespace Reckon

/-- A computation ends with what it gives, or with an error. -/
def Answers {α : Type} (x : Except Stop α) : Prop := ∀ stop, x = .error stop → ∃ e, stop = .error e

theorem Answers.ok {α : Type} (a : α) : Answers (.ok a) := fun _ h => nomatch h

theorem Answers.error {α : Type} (e : Error) : Answers (.error (.error e) : Except Stop α) := by
  intro stop h
  cases h
  exact ⟨e, rfl⟩

theorem Ran.ofChange_eq_error {c : Context} {r : Option Value} {change : Except Cause Context}
    {stop : Stop} (h : (Ran.ofChange c r change).result = .error stop) :
    ∃ cause, change = .error cause ∧ stop = .ofCause cause := by
  cases change with
  | ok d => cases h
  | error cause =>
    cases h
    exact ⟨cause, rfl, rfl⟩

namespace Agree

variable {α : Type} {P : α → Prop} {x y : Except Stop α}

theorem eq_fault (h : Agree P (.error .wrapping) y) : y = .error (.fault .zeroDivisor) := by
  cases h with
  | stop ho => cases ho
  | wrap => rfl

theorem answers (h : Agree P x y) (hfuel : y ≠ .error .outOfFuel) (hw : x ≠ .error .wrapping) :
    Answers y := by
  cases h with
  | value => exact .ok _
  | wrap => exact absurd rfl hw
  | @stop s ho =>
    cases s with
    | error e => exact .error e
    | outOfFuel => exact absurd rfl hfuel
    | message | fault => cases ho

end Agree

def fault? {α : Type} : Except Stop α → Option Fault
  | .error (.fault f) => some f
  | _ => none

theorem eq_error_of_fault? {α : Type} {x : Except Stop α} {f : Fault} (h : fault? x = some f) :
    x = .error (.fault f) := by
  unfold fault? at h
  split at h
  · cases h
    rfl
  · cases h

/-- The expression that a statement evaluates at once. -/
def Statement.evaluated? : Statement → Option Value
  | .expr v | .assign _ v => some v
  | _ => none

/-- Whether the evaluation of a line comes to a modulus whose divisor wraps to zero. -/
def Line.Wraps (l : Line) (fuel : Nat) (c : Context) : Prop :=
  ∃ s v, l.statement? = some s ∧ s.evaluated? = some v ∧
    (watcher fuel).coerce c v = .error .wrapping

namespace Engine

variable {e : Engine} {c : Context} {s : Statement}

theorem exec_stops {v : Value} {stop : Stop} (hs : s.evaluated? = some v)
    (h : e.coerce c v = .error stop) : (e.exec c s).result = .error stop := by
  cases s with
  | expr | assign =>
    cases hs
    simp only [exec, h]
  | _ => cases hs

/-- A statement is stopped by its evaluation, or by a change that is refused. -/
theorem exec_eq_error {stop : Stop} (h : (e.exec c s).result = .error stop) :
    (∃ v, s.evaluated? = some v ∧ e.coerce c v = .error stop) ∨
      ∃ cause : Cause, stop = .ofCause cause ∧ cause.kind.isOrdinary = true := by
  have hset : ∀ {d : Context} {r : Option Value} {name : String} {w : Value},
      (Ran.ofChange d r (d.setGlobal name w)).result = .error stop →
      ∃ cause : Cause, stop = .ofCause cause ∧ cause.kind.isOrdinary = true := by
    intro d r name w hd
    obtain ⟨cause, hcause, rfl⟩ := Ran.ofChange_eq_error hd
    exact ⟨cause, rfl, Context.setGlobal_kind hcause⟩
  cases s with
  | delete name =>
    obtain ⟨cause, hcause, rfl⟩ := Ran.ofChange_eq_error h
    exact .inr ⟨cause, rfl, Context.delete_kind hcause⟩
  | clear => cases h
  | define name params body => exact .inr (hset h)
  | expr v =>
    simp only [exec] at h
    split at h
    · next hr =>
      cases h
      exact .inl ⟨v, rfl, hr⟩
    · cases h
    · cases h
    · exact .inr (hset h)
  | assign name v =>
    simp only [exec] at h
    split at h
    · next hr =>
      cases h
      exact .inl ⟨v, rfl, hr⟩
    · exact .inr (hset h)
    · cases h
      exact .inr ⟨_, rfl, rfl⟩
    · unfold Context.assigning at h
      split at h
      · next hcause =>
        cases h
        exact .inr ⟨_, rfl, Context.setGlobal_kind hcause⟩
      · exact .inr (hset h)

/-- A statement is answered if its evaluation is. -/
theorem exec_answers (h : ∀ v, s.evaluated? = some v → Answers (e.coerce c v)) :
    Answers (e.exec c s).result := by
  intro stop hstop
  rcases exec_eq_error hstop with ⟨v, hv, hr⟩ | ⟨cause, rfl, -⟩
  · exact h v hv stop hr
  · exact ⟨_, rfl⟩

end Engine

section

variable {c : Context} {s : Statement} {v : Value}

theorem Statement.Executable.evaluable (hs : s.Executable) (hv : s.evaluated? = some v) :
    Evaluable v := by
  cases s with
  | expr | assign =>
    cases hv
    exact hs v rfl
  | _ => cases hv

/-- With enough fuel a statement does the same whatever the fuel, and its evaluation stops with an
error, or where a divisor wraps to zero, if at all. -/
theorem exec_settles (hc : c.Orderly) (hs : s.Executable) :
    ∃ N ran, ∀ n, N ≤ n → (Engine.ofFuel n).exec c s = ran ∧
      ∀ v, s.evaluated? = some v →
        Agree Concrete ((watcher n).coerce c v) ((Engine.ofFuel n).coerce c v) ∧
          (Engine.ofFuel n).coerce c v ≠ .error .outOfFuel := by
  cases hv : s.evaluated? with
  | none =>
    refine ⟨0, (Engine.ofFuel 0).exec c s, fun n _ => ⟨?_, fun v h => nomatch h⟩⟩
    cases s with
    | expr | assign => cases hv
    | _ => rfl
  | some v =>
    have hends := coercion_ends hc.sound (hs.evaluable hv)
    obtain ⟨N, r, hr, hN⟩ := hends.halts
    have hcoerce : ∀ n, N ≤ n → (Engine.ofFuel n).coerce c v = r := hN
    refine ⟨N, (Engine.ofFuel N).exec c s, fun n hn => ⟨?_, ?_⟩⟩
    · have hsame := (hcoerce n hn).trans (hcoerce N (Nat.le_refl N)).symm
      cases s with
      | expr | assign =>
        cases hv
        simp only [Engine.exec, hsame]
      | _ => cases hv
    · intro w hw
      cases hw
      exact ⟨hends.agree n, fun he => hr ((hcoerce n hn).symm.trans he)⟩

theorem runLine_settles (hc : c.Orderly) (l : Line) :
    ∃ N ran, ∀ n, N ≤ n → (Engine.ofFuel n).runLine c l = ran := by
  rcases l.run_cases with ⟨s, -, hx, h⟩ | ⟨-, ⟨-, h⟩ | ⟨err, -, h⟩⟩
  · obtain ⟨N, ran, hN⟩ := exec_settles hc hx
    exact ⟨N, ran, fun n hn => (h _ c).trans (hN n hn).1⟩
  · exact ⟨0, _, fun n _ => h _ c⟩
  · exact ⟨0, _, fun n _ => h _ c⟩

/-- With enough fuel lines lead to one context, whatever the fuel. -/
theorem session_settles (hc : c.Orderly) (ls : List Line) :
    ∃ N d, d.Orderly ∧ ∀ n, N ≤ n → (Engine.ofFuel n).session c ls = d := by
  induction ls generalizing c with
  | nil => exact ⟨0, c, hc, fun _ _ => rfl⟩
  | cons l ls ih =>
    obtain ⟨N, ran, hN⟩ := runLine_settles hc l
    have hran : ran.context.Orderly := by
      rw [← hN N (Nat.le_refl N)]
      exact runLine_orderly hc l
    obtain ⟨M, d, hd, hM⟩ := ih hran
    refine ⟨max N M, d, hd, fun n hn => ?_⟩
    rw [Engine.session, hN n (Nat.le_trans (Nat.le_max_left N M) hn)]
    exact hM n (Nat.le_trans (Nat.le_max_right N M) hn)

theorem runLine_answers_iff (hc : c.Orderly) (l : Line) :
    ∃ N, ∀ n, N ≤ n →
      (Answers ((Engine.ofFuel n).runLine c l).result ↔ ¬ l.Wraps n c) ∧
      (l.Wraps n c → ((Engine.ofFuel n).runLine c l).result = .error (.fault .zeroDivisor)) := by
  have hunread : l.statement? = none → ∀ n, ¬ l.Wraps n c := by
    rintro hn n ⟨s, v, hs, -⟩
    rw [hn] at hs
    cases hs
  rcases l.run_cases with ⟨s, hs, hx, h⟩ | ⟨hn, ⟨-, h⟩ | ⟨err, -, h⟩⟩
  · obtain ⟨N, ran, hN⟩ := exec_settles hc hx
    refine ⟨N, fun n hn => ?_⟩
    rw [h]
    have hwraps : l.Wraps n c →
        ((Engine.ofFuel n).exec c s).result = .error (.fault .zeroDivisor) := by
      rintro ⟨s', v, hs', hv, hw⟩
      cases hs.symm.trans hs'
      obtain ⟨hagree, -⟩ := (hN n hn).2 v hv
      rw [hw] at hagree
      exact Engine.exec_stops hv hagree.eq_fault
    refine ⟨⟨fun ha hw => ?_, fun hw => Engine.exec_answers fun v hv => ?_⟩, hwraps⟩
    · obtain ⟨e, he⟩ := ha _ (hwraps hw)
      cases he
    · obtain ⟨hagree, hfuel⟩ := (hN n hn).2 v hv
      exact hagree.answers hfuel fun hx => hw ⟨s, v, hs, hv, hx⟩
  · refine ⟨0, fun n _ =>
      ⟨⟨fun _ => hunread hn n, fun _ => ?_⟩, fun hw => absurd hw (hunread hn n)⟩⟩
    rw [h]
    exact .ok _
  · refine ⟨0, fun n _ =>
      ⟨⟨fun _ => hunread hn n, fun _ => ?_⟩, fun hw => absurd hw (hunread hn n)⟩⟩
    rw [h]
    exact .error err

end

/-- With enough fuel every line of a session is answered exactly if its evaluation does not come to
a modulus whose divisor wraps to zero; if it does, it stops there with a fault. -/
theorem session_line_answers_iff (maxDepth : Int) (precision : Precision) (before : List Line)
    (line : Line) :
    ∃ N, ∀ fuel, N ≤ fuel →
      let e := Engine.ofFuel fuel
      let c := e.session (.fresh maxDepth precision) before
      (Answers (e.runLine c line).result ↔ ¬ line.Wraps fuel c) ∧
      (line.Wraps fuel c → (e.runLine c line).result = .error (.fault .zeroDivisor)) := by
  obtain ⟨N, c, hc, hN⟩ := session_settles (Context.fresh_orderly maxDepth precision) before
  obtain ⟨M, hM⟩ := runLine_answers_iff hc line
  refine ⟨max N M, fun fuel hfuel => ?_⟩
  dsimp only
  rw [hN fuel (Nat.le_trans (Nat.le_max_left N M) hfuel)]
  exact hM fuel (Nat.le_trans (Nat.le_max_right N M) hfuel)

/-- The product of the denominator and the divisor is 2 to the power of 64. -/
theorem session_line_unanswered :
    (({} : Engine).runLine (.fresh 1024 64) { text := "1/4294967296 % 4294967296" }).result =
      .error (.fault .zeroDivisor) :=
  eq_error_of_fault? (by decide +kernel)

end Reckon
