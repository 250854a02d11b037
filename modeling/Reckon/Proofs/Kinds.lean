import Reckon.Proofs.Answers

namespace Reckon

/-- The errors of a computation are ones that a calculation may end with. -/
def ErrsOrdinarily {α : Type} (x : Except Stop α) : Prop :=
  ∀ err, x = .error (.error err) → err.kind.isOrdinary = true

theorem Agree.errsOrdinarily {α : Type} {P : α → Prop} {x y : Except Stop α} (h : Agree P x y) :
    ErrsOrdinarily y := by
  intro err he
  subst he
  cases h with
  | stop ho => exact ho

section

variable {fuel : Nat} {c : Context} (hc : c.Orderly)
include hc

theorem coerce_errsOrdinarily {v : Value} (hv : Evaluable v) :
    ErrsOrdinarily ((Engine.ofFuel fuel).coerce c v) :=
  ((coercion_ends hc.sound hv).agree fuel).errsOrdinarily

theorem exec_errsOrdinarily {s : Statement} (hs : s.Executable) :
    ErrsOrdinarily ((Engine.ofFuel fuel).exec c s).result := by
  intro err he
  rcases Engine.exec_eq_error he with ⟨v, hv, hr⟩ | ⟨cause, hcause, hk⟩
  · exact coerce_errsOrdinarily hc (hs.evaluable hv) err hr
  · cases hcause
    exact hk

theorem runLine_errsOrdinarily (l : Line) :
    ErrsOrdinarily ((Engine.ofFuel fuel).runLine c l).result := by
  rcases l.run_cases with ⟨s, -, hx, h⟩ | ⟨-, ⟨-, h⟩ | ⟨err, hk, h⟩⟩
  · rw [h]
    exact exec_errsOrdinarily hc hx
  · rw [h]
    exact fun _ he => nomatch he
  · rw [h]
    intro err' he
    cases he
    rw [hk]
    rfl

end

/-- The kind of the error that a computation stops with. -/
def errorKind? {α : Type} : Except Stop α → Option ErrorKind
  | .error (.error err) => some err.kind
  | _ => none

theorem exists_error_of_errorKind? {α : Type} {x : Except Stop α} {kind : ErrorKind}
    (h : errorKind? x = some kind) : ∃ err : Error, x = .error (.error err) ∧ err.kind = kind := by
  unfold errorKind? at h
  split at h
  · next err => exact ⟨err, rfl, Option.some.inj h⟩
  · cases h

/-- Whether a line of some session reports an error of a kind. -/
def ErrorKind.Reported (kind : ErrorKind) : Prop :=
  ∃ (fuel : Nat) (maxDepth : Int) (precision : Precision) (before : List Line) (line : Line)
      (err : Error),
    let e := Engine.ofFuel fuel
    (e.runLine (e.session (.fresh maxDepth precision) before) line).result = .error (.error err) ∧
      err.kind = kind

theorem ErrorKind.Reported.ofLine {kind : ErrorKind} (fuel : Nat) (maxDepth : Int)
    (before : List Line) (line : Line)
    (h : errorKind? ((Engine.ofFuel fuel).runLine
      ((Engine.ofFuel fuel).session (.fresh maxDepth 64) before) line).result = some kind) :
    kind.Reported :=
  ⟨fuel, maxDepth, 64, before, line, exists_error_of_errorKind? h⟩

theorem ErrorKind.Reported.isOrdinary {kind : ErrorKind} (h : kind.Reported) :
    kind.isOrdinary = true := by
  obtain ⟨fuel, maxDepth, precision, before, line, err, hrun, rfl⟩ := h
  have hc : ((Engine.ofFuel fuel).session (.fresh maxDepth precision) before).Orderly :=
    session_orderly (Context.fresh_orderly maxDepth precision) before
  exact runLine_errsOrdinarily hc line err hrun

/-- The errors that lines of sessions report are about calculation, form, names, types and the depth
of calls. Each of these kinds is reported by some line, and no other kind by any. -/
theorem session_error_kind_iff (kind : ErrorKind) :
    kind.Reported ↔ kind ∈ [.math, .malformed, .name, .type, .runtime] := by
  constructor
  · intro h
    have hkind := h.isOrdinary
    cases kind with
    | math | malformed | name | type | runtime => simp
    | _ => cases hkind
  · intro h
    simp only [List.mem_cons, List.not_mem_nil, or_false] at h
    rcases h with rfl | rfl | rfl | rfl | rfl
    · exact .ofLine 32 1024 [] { text := "1/0" } (by decide +kernel)
    · exact .ofLine 32 1024 [] { text := "1 + )" } (by decide +kernel)
    · exact .ofLine 32 1024 [] { text := "x" } (by decide +kernel)
    · exact .ofLine 32 1024 [] { text := "sqrt()" } (by decide +kernel)
    · exact .ofLine 32 2 [{ text := "f(x) = f(x)" }] { text := "f(1)" } (by decide +kernel)

end Reckon
