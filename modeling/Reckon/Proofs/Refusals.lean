import Reckon.Proofs.Rules

namespace Reckon

/-- A reader that fails does so with an error about the form of the text. -/
def Refuses {α : Type} (x : Except Failed α) : Prop :=
  ∀ f, x = .error f → ∃ e : Error, f.stop = .error e ∧ e.kind = .malformed

namespace Refuses

theorem ok {α : Type} (a : α) : Refuses (.ok a) := fun _ h => nomatch h

theorem bind {α β : Type} {x : Except Failed α} {g : α → Except Failed β} (hx : Refuses x)
    (hg : ∀ a, x = .ok a → Refuses (g a)) : Refuses (x >>= g) := by
  cases x with
  | ok a => exact hg a rfl
  | error f => exact fun f' h => hx f' (by simpa using h)

end Refuses

namespace Cursor

theorem refuses_error {α : Type} (c : Cursor) {e : Error} (h : e.kind = .malformed) :
    Refuses (.error (c.failWith e) : Except Failed α) := by
  intro f hf
  cases hf
  exact ⟨e, rfl, h⟩

theorem refuses_earlyEnd {α : Type} (c : Cursor) :
    Refuses (.error (c.failWith c.earlyEnd) : Except Failed α) := c.refuses_error rfl

theorem badChar_kind (c : Cursor) : c.badChar.kind = .malformed := by
  unfold badChar
  split <;> rfl

theorem refuses_badChar {α : Type} (c : Cursor) :
    Refuses (.error (c.failWith c.badChar) : Except Failed α) := c.refuses_error c.badChar_kind

theorem binaryOp_refuses (t : Terminators) (c : Cursor) : Refuses (binaryOp t c) := by
  unfold binaryOp
  dsimp only
  repeat' split
  all_goals first
    | exact Refuses.ok _
    | exact refuses_earlyEnd _
    | exact refuses_badChar _

theorem number_refuses (c : Cursor) : Refuses c.number := by
  unfold number
  split
  · exact Refuses.ok _
  · exact refuses_badChar _

theorem params_refuses {fuel : Nat} (names : List String) {c : Cursor} (hf : c.size < fuel) :
    Refuses (params fuel names c) := by
  induction fuel generalizing names c with
  | zero => omega
  | succ fuel ih =>
    unfold params
    split
    · exact refuses_badChar _
    · next name d hd =>
      have := size_name? hd
      have := size_fill d
      dsimp only
      split
      · exact refuses_earlyEnd _
      · split
        · exact Refuses.ok _
        · split
          · exact refuses_badChar _
          · next e he =>
            have := size_accept? he
            have := size_fill e
            split
            · exact refuses_badChar _
            · exact ih _ (by omega)

theorem closureParams_refuses {fuel : Nat} {c : Cursor} (hf : c.size < fuel) :
    Refuses (closureParams fuel c) := by
  have := size_fill c
  unfold closureParams
  dsimp only
  split
  · exact refuses_earlyEnd _
  · split
    · exact Refuses.ok _
    · exact params_refuses _ (by omega)

/-- No part runs out of fuel that has enough of it. -/
structure Halting (r : Reading) (fuel : Nat) : Prop where
  expr : ∀ t s c, (Part.terms t).steps c ≤ fuel → Refuses (exprFrom r fuel t s c)
  primary : ∀ t c, (Part.primary t).steps c ≤ fuel → Refuses (Cursor.primary r fuel t c)
  atom : ∀ c, Part.atom.steps c ≤ fuel → Refuses (Cursor.atom r fuel c)
  group : ∀ close c, (Part.group close).steps c ≤ fuel → Refuses (Cursor.group r fuel close c)
  list : ∀ close first c, (Part.list close first).steps c ≤ fuel →
    Refuses (Cursor.list r fuel close first c)
  closure : ∀ t c, (Part.closure t).steps c ≤ fuel → Refuses (Cursor.closure r fuel t c)
  postfixes : ∀ v c, (Part.postfixes v).steps c ≤ fuel → Refuses (Cursor.postfixes r fuel v c)

section

variable {r : Reading} {fuel : Nat} (hh : Halting r fuel)
include hh

theorem Halting.expr_succ {t : Terminators} {s : Spine} {c : Cursor}
    (hf : (Part.terms t).steps c ≤ fuel + 1) : Refuses (exprFrom r (fuel + 1) t s c) := by
  have := size_fill c
  simp only [Part.steps] at hf
  unfold exprFrom
  dsimp only
  split
  · split
    · exact refuses_earlyEnd _
    · exact Refuses.ok _
  · split
    · next d hd =>
      have := size_accept? hd
      exact hh.expr _ _ _ (by simp only [Part.steps]; omega)
    · apply Refuses.bind (hh.primary _ _ (by simp only [Part.steps]; omega))
      rintro ⟨v, d⟩ hp
      cases v with
      | none =>
        dsimp only
        split
        · exact Refuses.ok _
        · exact refuses_badChar _
      | some v =>
        have hs := ((lawful r fuel).primary _ _ _ _ hp).size
        apply Refuses.bind (binaryOp_refuses _ _)
        rintro ⟨op, e⟩ hb
        have := size_binaryOp hb
        cases op with
        | none => exact Refuses.ok _
        | some op => exact hh.expr _ _ _ (by simp only [Part.steps, Part.least] at hs ⊢; omega)

theorem Halting.primary_succ {t : Terminators} {c : Cursor}
    (hf : (Part.primary t).steps c ≤ fuel + 1) : Refuses (Cursor.primary r (fuel + 1) t c) := by
  simp only [Part.steps] at hf
  unfold Cursor.primary
  split
  · exact Refuses.ok _
  · split
    · next hp =>
      have := size_advance hp
      apply Refuses.bind (hh.closure _ _ (by simp only [Part.steps, size_deeper]; omega))
      exact fun _ _ => Refuses.ok _
    · apply Refuses.bind (hh.atom _ (by simp only [Part.steps]; omega))
      rintro ⟨v, d⟩ ha
      have hs := ((lawful r fuel).atom _ _ _ ha).size
      dsimp only
      split
      · apply Refuses.bind
          (hh.postfixes _ _ (by simp only [Part.steps, Part.least] at hs ⊢; omega))
        exact fun _ _ => Refuses.ok _
      · exact Refuses.ok _

theorem Halting.atom_succ (hr : r.specials = []) {c : Cursor} (hf : Part.atom.steps c ≤ fuel + 1) :
    Refuses (Cursor.atom r (fuel + 1) c) := by
  simp only [Part.steps] at hf
  unfold Cursor.atom
  split
  · exact refuses_badChar _
  · next ch hp =>
    have := size_advance hp
    split
    · exact (number_refuses c).bind fun _ _ => Refuses.ok _
    · split
      · exact hh.group _ _ (by simp only [Part.steps, size_deeper]; omega)
      · split
        · apply Refuses.bind (hh.list _ _ _ (by simp only [Part.steps, size_deeper]; omega))
          rintro ⟨vs, d⟩ _
          dsimp only
          split
          · exact refuses_error _ rfl
          · exact Refuses.ok _
        · split
          · next s hs => simp [Reading.special?, hr] at hs
          · split
            · exact Refuses.ok _
            · exact refuses_badChar _

theorem Halting.group_succ {close : Char} {c : Cursor}
    (hf : (Part.group close).steps c ≤ fuel + 1) :
    Refuses (Cursor.group r (fuel + 1) close c) := by
  unfold Cursor.group
  apply Refuses.bind (hh.expr _ _ _ (by simp only [Part.steps] at hf ⊢; omega))
  rintro ⟨v, d⟩ _
  cases v with
  | none => exact refuses_badChar _
  | some v =>
    dsimp only
    split
    · exact Refuses.ok _
    · exact refuses_badChar _

theorem Halting.list_succ {close : Char} {first : Bool} {c : Cursor}
    (hf : (Part.list close first).steps c ≤ fuel + 1) :
    Refuses (Cursor.list r (fuel + 1) close first c) := by
  simp only [Part.steps] at hf
  unfold Cursor.list
  apply Refuses.bind (hh.expr _ _ _ (by simp only [Part.steps]; omega))
  rintro ⟨v, d⟩ he
  cases v with
  | none =>
    dsimp only
    split
    · exact Refuses.ok _
    · exact refuses_badChar _
  | some v =>
    obtain ⟨ss, hs, -⟩ := (lawful r fuel).expr _ _ _ _ he
    have hs := hs.size
    have := size_advance_le d
    dsimp only
    split
    · exact Refuses.ok _
    · apply Refuses.bind (hh.list _ _ _ (by simp only [Part.steps, Part.least] at hs ⊢; omega))
      exact fun _ _ => Refuses.ok _

theorem Halting.closure_succ {t : Terminators} {c : Cursor}
    (hf : (Part.closure t).steps c ≤ fuel + 1) : Refuses (Cursor.closure r (fuel + 1) t c) := by
  simp only [Part.steps] at hf
  unfold Cursor.closure
  apply Refuses.bind (closureParams_refuses (by omega))
  rintro ⟨names, d⟩ hn
  have := size_closureParams hn
  apply Refuses.bind (hh.expr _ _ _ (by simp only [Part.steps, size_shallower]; omega))
  rintro ⟨v, e⟩ _
  cases v with
  | none => exact refuses_badChar _
  | some v => exact Refuses.ok _

theorem Halting.postfixes_succ {v : Value} {c : Cursor}
    (hf : (Part.postfixes v).steps c ≤ fuel + 1) :
    Refuses (Cursor.postfixes r (fuel + 1) v c) := by
  have := size_skipBlanks c
  simp only [Part.steps] at hf
  unfold Cursor.postfixes
  dsimp only
  split
  · next hp =>
    have := size_advance hp
    apply Refuses.bind (hh.list _ _ _ (by simp only [Part.steps, size_deeper]; omega))
    rintro ⟨args, d⟩ ha
    have hs := ((lawful r fuel).list _ _ _ _ _ ha).size
    simp only [Part.least, size_deeper] at hs
    exact hh.postfixes _ _ (by simp only [Part.steps]; omega)
  · split
    · next hp =>
      have := size_advance hp
      apply Refuses.bind (hh.group _ _ (by simp only [Part.steps, size_deeper]; omega))
      rintro ⟨i, d⟩ hi
      have hs := ((lawful r fuel).group _ _ _ _ hi).size
      simp only [Part.least, size_deeper] at hs
      exact hh.postfixes _ _ (by simp only [Part.steps]; omega)
    · exact Refuses.ok _

end

theorem halting {r : Reading} (hr : r.specials = []) (fuel : Nat) : Halting r fuel := by
  induction fuel with
  | zero =>
    constructor
    all_goals
      intros
      next hf =>
        simp only [Part.steps] at hf
        omega
  | succ fuel ih => exact {
      expr := fun _ _ _ => ih.expr_succ
      primary := fun _ _ => ih.primary_succ
      atom := fun _ => ih.atom_succ hr
      group := fun _ _ => ih.group_succ
      list := fun _ _ _ => ih.list_succ
      closure := fun _ _ => ih.closure_succ
      postfixes := fun _ _ => ih.postfixes_succ }

theorem expr_refuses {r : Reading} (hr : r.specials = []) (c : Cursor) : Refuses (c.expr r) :=
  (halting hr _).expr _ _ _ (by simp only [Part.steps]; omega)

end Cursor

end Reckon
