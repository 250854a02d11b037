import Reckon.Proofs.Concrete
import Reckon.Proofs.Refusals
import Reckon.Statement

namespace Reckon

/-- Whether a line holds nothing but blanks and comments. -/
def Text.isBlankLine (src : String) : Bool := (Cursor.atStart src.toList []).skipBlanks.atEnd

/-- The expression of a statement, if it has one, is a tree that evaluation handles. -/
def Statement.Executable (s : Statement) : Prop := ∀ v, s.value? = some v → Evaluable v

theorem Statement.executable_ofTarget {v : Value} (hv : Evaluable v) {target : Target}
    (hop : ∀ name op, target = .inPlace name op → op.isInfix = true) :
    (ofTarget v target).Executable := by
  intro w hw
  cases target with
  | assign name =>
    cases hw
    exact hv
  | inPlace name op =>
    cases hw
    exact .binary (hop name op rfl) (.var name) hv
  | define name params =>
    cases hw
    exact hv

namespace Cursor

theorem rest_fill_of_depth {c : Cursor} (h : c.depth = 0) : c.fill.rest = c.skipBlanks.rest := by
  unfold fill
  cases c.lines with
  | nil => rfl
  | cons line lines =>
    have hd : c.skipBlanks.depth = 0 := h
    simp [fillFrom, hd]

/-- An expression that nothing ends has a first value. -/
theorem primary_ne_none {r : Reading} {fuel : Nat} {c d : Cursor} :
    primary r fuel {} c ≠ .ok (none, d) := by
  intro h
  cases fuel with
  | zero => simp [primary] at h
  | succ fuel =>
    have hstop : c.peek.any ({} : Terminators).stopAt = false := by
      cases c.peek <;> rfl
    simp only [primary, hstop, Bool.false_eq_true, ↓reduceIte] at h
    split at h
    · obtain ⟨_, _, h⟩ := bind_eq_ok_iff.mp h
      cases h
    · obtain ⟨_, _, h⟩ := bind_eq_ok_iff.mp h
      split at h
      all_goals
        obtain ⟨_, _, h⟩ := bind_eq_ok_iff.mp h
        cases h

/-- Only blank text holds no expression. -/
theorem atEnd_of_expr_eq_none {r : Reading} {c d : Cursor} (h : c.expr r = .ok (none, d)) :
    c.fill.atEnd = true := by
  obtain ⟨-, -, hminus⟩ := exprFrom_eq_none h
  by_contra hend
  have hfuel : 8 * (c.size + 1) = 8 * c.size + 7 + 1 := by omega
  rw [expr, hfuel, exprFrom] at h
  simp only [hend, Bool.false_eq_true, ↓reduceIte, hminus] at h
  obtain ⟨⟨v, e⟩, hp, h⟩ := bind_eq_ok_iff.mp h
  cases v with
  | none => exact primary_ne_none hp
  | some v =>
    obtain ⟨⟨op, e'⟩, -, h⟩ := bind_eq_ok_iff.mp h
    cases op with
    | none => cases h
    | some op =>
      have hs := (exprFrom_eq_none h).1
      cases hs

theorem ending_kind {α : Type} {a : α} {c : Cursor} {e : Error} (h : c.ending a = .error e) :
    e.kind = .malformed := by
  unfold ending at h
  dsimp only at h
  split at h
  · cases h
  · cases h
    exact badChar_kind _

theorem definedParams_kind {fuel : Nat} {names : List String} {c : Cursor} {e : Error}
    (h : definedParams fuel names c = .error e) : e.kind = .malformed := by
  induction fuel generalizing names c with
  | zero =>
    cases h
    exact badChar_kind _
  | succ fuel ih =>
    unfold definedParams at h
    split at h
    · cases h
      exact badChar_kind _
    · dsimp only at h
      split at h
      · cases h
      · exact ih h
      · cases h
        exact badChar_kind _

/-- What stands before a `=` is refused only for its form. -/
theorem target_kind {c : Cursor} {e : Error} (h : c.target = .error e) : e.kind = .malformed := by
  unfold target at h
  dsimp only at h
  split at h
  · split at h
    · cases h
      rfl
    · cases h
      exact badChar_kind _
  · split at h
    · cases h
    · split at h
      · exact ending_kind h
      · cases hp : definedParams _ _ _ with
        | error e' =>
          rw [hp] at h
          cases h
          exact definedParams_kind hp
        | ok p =>
          rw [hp] at h
          exact ending_kind h
    · split at h
      · exact ending_kind h
      · cases h
        exact badChar_kind _

theorem eq_of_ending {α : Type} {a b : α} {c : Cursor} (h : c.ending a = .ok b) : a = b := by
  unfold ending at h
  dsimp only at h
  split at h
  · exact Except.ok.inj h
  · cases h

theorem target_inPlace {c : Cursor} {name : String} {op : Op}
    (h : c.target = .ok (.inPlace name op)) : op.isInfix = true := by
  unfold target at h
  dsimp only at h
  split at h
  · split at h <;> cases h
  · split at h
    · cases h
    · split at h
      · cases eq_of_ending h
      · obtain ⟨_, _, h⟩ := bind_eq_ok_iff.mp h
        cases eq_of_ending h
    · split at h
      · next hop =>
        cases eq_of_ending h
        exact operator?_isInfix hop
      · cases h

theorem deletion_kind {c : Cursor} {e : Error} (h : c.deletion = .error e) :
    e.kind = .malformed := by
  unfold deletion at h
  split at h
  · exact ending_kind h
  · dsimp only at h
    split at h
    · cases h
      exact badChar_kind _
    · exact ending_kind h

theorem deletion_executable {c : Cursor} {s : Statement} (h : c.deletion = .ok s) :
    s.Executable := by
  unfold deletion at h
  split at h
  · cases eq_of_ending h
    exact fun _ hv => nomatch hv
  · dsimp only at h
    split at h
    · cases h
    · cases eq_of_ending h
      exact fun _ hv => nomatch hv

end Cursor

namespace Reading

variable {r : Reading} (hr : r.specials = [])
include hr

theorem parse_kind {src : String} (hb : Text.isBlankLine src = false) {f : Failed}
    (h : r.parse src = .error f) : ∃ e, f.stop = .error e ∧ e.kind = .malformed := by
  unfold parse at h
  cases he : (Cursor.atStart src.toList (r.lines.map String.toList)).expr r with
  | error f' =>
    rw [he] at h
    cases h
    exact Cursor.expr_refuses hr _ _ he
  | ok p =>
    obtain ⟨v, c⟩ := p
    rw [he] at h
    cases v with
    | some v => cases h
    | none =>
      have hend := Cursor.atEnd_of_expr_eq_none he
      rw [Cursor.atEnd, Cursor.rest_fill_of_depth rfl] at hend
      have hblank : Text.isBlankLine src = true := hend
      rw [hb] at hblank
      cases hblank

/-- A line is blank, or it is a statement that can be executed, or it is refused for its form. -/
theorem statement_cases (src : String) :
    (Text.isBlankLine src = true ∧ r.statement src = .error ⟨.error ⟨.blankStatement, 0⟩, 0⟩) ∨
      Text.isBlankLine src = false ∧
        ((∃ s, r.statement src = .ok s ∧ s.result.Executable) ∨
          ∃ e n, r.statement src = .error ⟨.error e, n⟩ ∧ e.kind = .malformed) := by
  by_cases hb : Text.isBlankLine src = true
  · exact .inl ⟨hb, if_pos hb⟩
  · have hb : Text.isBlankLine src = false := by simpa using hb
    refine .inr ⟨hb, ?_⟩
    have hstart : (Cursor.atStart src.toList []).skipBlanks.atEnd = false := hb
    simp only [statement, hstart, Bool.false_eq_true, ↓reduceIte]
    split
    · next c _ =>
      cases hd : c.deletion with
      | ok s => exact .inl ⟨⟨s, 0⟩, rfl, Cursor.deletion_executable hd⟩
      | error e => exact .inr ⟨e, 0, rfl, Cursor.deletion_kind hd⟩
    · split
      · cases hp : r.parse src with
        | ok v =>
          obtain ⟨v, n⟩ := v
          refine .inl ⟨_, rfl, fun w hw => ?_⟩
          cases hw
          exact (parse_readable hr hp).evaluable
        | error f =>
          obtain ⟨e, hs, hk⟩ := parse_kind hr hb hp
          obtain ⟨stop, n⟩ := f
          cases hs
          exact .inr ⟨e, n, rfl, hk⟩
      · next before after _ =>
        cases ht : (Cursor.atStart before []).target with
        | error e => exact .inr ⟨e, 0, rfl, Cursor.target_kind ht⟩
        | ok target =>
          dsimp only
          generalize hstart : Cursor.mk _ _ _ _ _ = start
          cases he : start.expr r with
          | error f =>
            obtain ⟨e, hs, hk⟩ := Cursor.expr_refuses hr _ _ he
            obtain ⟨stop, n⟩ := f
            cases hs
            exact .inr ⟨e, n, rfl, hk⟩
          | ok p =>
            obtain ⟨v, d⟩ := p
            cases v with
            | none => exact .inr ⟨d.earlyEnd, d.used, rfl, rfl⟩
            | some v =>
              obtain ⟨ss, hs, hv⟩ := Cursor.expr_eq_ok_iff.mp he
              have hev := (Cursor.readable_of_phrase hv (hs.readable hr trivial)).evaluable
              refine .inl ⟨_, rfl, Statement.executable_ofTarget hev fun name op hin => ?_⟩
              rw [hin] at ht
              exact Cursor.target_inPlace ht

end Reading

end Reckon
