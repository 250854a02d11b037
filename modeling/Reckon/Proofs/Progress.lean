import Reckon.Proofs.Outcome
import Reckon.Reading.Expression

namespace Reckon

namespace Cursor

theorem skipFrom_length (comment : Bool) (passed rest : List Char) :
    (skipFrom comment passed rest).2.length ≤ rest.length := by
  induction rest generalizing comment passed with
  | nil => simp [skipFrom]
  | cons ch rest ih =>
    unfold skipFrom
    split
    · exact Nat.le_succ_of_le (ih _ _)
    · split
      · exact Nat.le_succ_of_le (ih _ _)
      · split
        · exact Nat.le_succ_of_le (ih _ _)
        · exact Nat.le_refl _

theorem skipBangsFrom_length (comment : Bool) (count : Nat) (passed rest : List Char) :
    (skipBangsFrom comment count passed rest).2.2.length ≤ rest.length := by
  induction rest generalizing comment count passed with
  | nil => simp [skipBangsFrom]
  | cons ch rest ih =>
    unfold skipBangsFrom
    repeat' split
    all_goals first | exact Nat.le_succ_of_le (ih _ _ _) | exact Nat.le_refl _

theorem size_skipBlanks (c : Cursor) : c.skipBlanks.size ≤ c.size :=
  Nat.add_le_add_right (skipFrom_length false c.passed c.rest) _

theorem size_skipBangs (c : Cursor) : c.skipBangs.2.size ≤ c.size :=
  Nat.add_le_add_right (skipBangsFrom_length false 0 c.passed c.rest) _

/-- Bringing in a line turns the line and its break into text. -/
theorem size_fillFrom (c : Cursor) (lines : List (List Char)) :
    (c.fillFrom lines).size ≤ c.rest.length + linesSize lines := by
  induction lines generalizing c with
  | nil => exact Nat.add_le_add_right (skipFrom_length false c.passed c.rest) 0
  | cons line lines ih =>
    unfold fillFrom
    dsimp only
    split
    · refine Nat.le_trans (ih _) ?_
      simp only [linesSize, List.length_cons]
      omega
    · exact Nat.add_le_add_right (skipFrom_length false c.passed c.rest) _

theorem size_fill (c : Cursor) : c.fill.size ≤ c.size := size_fillFrom c c.lines

@[simp] theorem size_deeper (c : Cursor) : c.deeper.size = c.size := rfl

@[simp] theorem size_shallower (c : Cursor) : c.shallower.size = c.size := rfl

theorem size_advance {c : Cursor} {ch : Char} (h : c.peek = some ch) :
    c.advance.size < c.size := by
  unfold peek at h
  unfold advance size
  cases hr : c.rest with
  | nil => simp [hr] at h
  | cons ch rest =>
    simp only [List.length_cons]
    omega

theorem accept?_eq_some_iff {c d : Cursor} {ch : Char} :
    c.accept? ch = some d ↔ c.peek = some ch ∧ d = c.advance := by
  unfold accept?
  split
  · next h => simp [h, eq_comm]
  · next h => simp [h]

theorem size_accept? {c d : Cursor} {ch : Char} (h : c.accept? ch = some d) : d.size < c.size := by
  obtain ⟨hp, rfl⟩ := accept?_eq_some_iff.mp h
  exact size_advance hp

theorem size_advanceBy_le (n : Nat) (c : Cursor) : (c.advanceBy n).size ≤ c.size := by
  simp only [advanceBy, size, List.length_drop]
  omega

theorem size_advanceBy_lt {n : Nat} {c : Cursor} (hn : 0 < n) (hr : c.rest ≠ []) :
    (c.advanceBy n).size < c.size := by
  have hl : 0 < c.rest.length := List.length_pos_iff.mpr hr
  simp only [advanceBy, size, List.length_drop]
  omega

end Cursor

namespace Token

/-- A name has characters. -/
theorem name?_pos {s : List Char} {name : String} {n : Nat} (h : name? s = some (name, n)) :
    s ≠ [] ∧ 0 < n := by
  cases s with
  | nil => cases h
  | cons ch rest =>
    refine ⟨List.cons_ne_nil ch rest, ?_⟩
    simp only [name?] at h
    split at h
    · cases h
      exact Nat.one_pos
    · split at h
      · cases h
        simp
      · cases h

theorem literal?_pos {s : List Char} {l : Decimal.Literal} {n : Nat}
    (h : literal? s = some (l, n)) : 0 < n := by
  have hpos : ∀ {ds : List Char}, ds.isEmpty = false → 0 < ds.length := by
    intro ds hd
    exact List.length_pos_iff.mpr (by simpa using hd)
  simp only [literal?] at h
  split at h
  · dsimp only at h
    split at h
    · cases h
    · split at h <;> cases h <;> omega
  · dsimp only at h
    split at h
    · cases h
    · next hd =>
      have hw : (s.takeWhile Char.isDigit).isEmpty = false := by simpa using hd
      have hlen := hpos hw
      split at h <;> cases h <;> omega

theorem integer?_pos {s : List Char} {i : Int64} {n : Nat} (h : integer? s = some (i, n)) :
    0 < n := by
  unfold integer? at h
  dsimp only at h
  split at h
  · cases h
  · next hd =>
    cases h
    have hne : s.takeWhile Char.isDigit ≠ [] := fun he => hd (Or.inl (by simp [he]))
    exact List.length_pos_iff.mpr hne

theorem real?_pos {s : List Char} {x : Float} {n : Nat} (h : real? s = some (x, n)) : 0 < n := by
  unfold real? at h
  obtain ⟨⟨l, m⟩, hl, h⟩ := Option.bind_eq_some_iff.mp h
  obtain ⟨y, -, hy⟩ := Option.map_eq_some_iff.mp h
  cases hy
  exact literal?_pos hl

/-- A number has characters. -/
theorem number?_pos {s : List Char} {x : Number} {n : Nat} (h : number? s = some (x, n)) :
    0 < n := by
  unfold number? at h
  split at h
  · next hi hr =>
    split at h <;> cases h
    · exact real?_pos hr
    · exact integer?_pos hi
  · next hr =>
    cases h
    exact real?_pos hr
  · next hi _ =>
    cases h
    exact integer?_pos hi
  · cases h

theorem number?_ne_nil {s : List Char} {x : Number} {n : Nat} (h : number? s = some (x, n)) :
    s ≠ [] := by
  rintro rfl
  simp [number?, integer?, real?, literal?] at h

end Token

namespace Cursor

theorem size_name? {c d : Cursor} {name : String} (h : c.name? = some (name, d)) :
    d.size < c.size := by
  obtain ⟨⟨word, n⟩, hn, he⟩ := Option.map_eq_some_iff.mp h
  cases he
  obtain ⟨hr, hp⟩ := Token.name?_pos hn
  exact size_advanceBy_lt hp hr

theorem size_number {c d : Cursor} {x : Number} (h : c.number = .ok (x, d)) : d.size < c.size := by
  unfold number at h
  split at h
  · next hn =>
    cases h
    exact size_advanceBy_lt (Token.number?_pos hn) (Token.number?_ne_nil hn)
  · cases h

theorem size_special {c d : Cursor} {s : Special} {v : Value} {ch : Char} (hp : c.peek = some ch)
    (h : c.special s = .ok (v, d)) : d.size < c.size := by
  unfold special at h
  dsimp only at h
  split at h
  · cases h
  · cases h
  · cases h
    exact Nat.lt_of_le_of_lt (size_advanceBy_le _ _) (size_advance hp)

theorem size_binaryOp {t : Terminators} {c d : Cursor} {op : Option Op}
    (h : binaryOp t c = .ok (op, d)) : d.size ≤ c.size := by
  have hf := size_fill c
  unfold binaryOp at h
  dsimp only at h
  split at h
  · split at h <;> cases h
    exact hf
  · next ch hp =>
    have ha := size_advance hp
    repeat' split at h
    all_goals cases h
    all_goals omega

theorem size_params {fuel : Nat} {names ns : List String} {c d : Cursor}
    (h : params fuel names c = .ok (ns, d)) : d.size < c.size := by
  induction fuel generalizing names c with
  | zero => cases h
  | succ fuel ih =>
    unfold params at h
    split at h
    · cases h
    · next name e he =>
      have hname := size_name? he
      have hfill := size_fill e
      dsimp only at h
      split at h
      · cases h
      · split at h
        · next e' hb =>
          cases h
          have := size_accept? hb
          omega
        · split at h
          · cases h
          · next e' hb =>
            have hcomma := size_accept? hb
            have hfill' := size_fill e'
            split at h
            · cases h
            · have := ih h
              omega

theorem size_closureParams {fuel : Nat} {ns : List String} {c d : Cursor}
    (h : closureParams fuel c = .ok (ns, d)) : d.size < c.size := by
  have hfill := size_fill c
  unfold closureParams at h
  dsimp only at h
  split at h
  · cases h
  · split at h
    · next hb =>
      cases h
      have := size_accept? hb
      omega
    · have := size_params h
      omega

/-- What fuel the parameters were read with does not matter, if it is more than the text left. -/
theorem params_fuel {fuel n : Nat} {names ns : List String} {c d : Cursor}
    (h : params fuel names c = .ok (ns, d)) (hn : c.size < n) : params n names c = .ok (ns, d) := by
  induction fuel generalizing names c n with
  | zero => cases h
  | succ fuel ih =>
    obtain ⟨n, rfl⟩ := Nat.exists_eq_add_of_lt (Nat.zero_lt_of_lt hn)
    rw [Nat.zero_add] at hn ⊢
    unfold params at h ⊢
    split at h
    · cases h
    · next name e he =>
      have hname := size_name? he
      have hfill := size_fill e
      dsimp only at h ⊢
      split at h
      · cases h
      · next hend =>
        simp only [hend, Bool.false_eq_true, ↓reduceIte]
        split at h
        · exact h
        · split at h
          · cases h
          · next e' hc =>
            have hcomma := size_accept? hc
            have hfill' := size_fill e'
            split at h
            · cases h
            · next hend' =>
              simp only [hend', Bool.false_eq_true, ↓reduceIte]
              exact ih h (by omega)

theorem closureParams_fuel {fuel n : Nat} {ns : List String} {c d : Cursor}
    (h : closureParams fuel c = .ok (ns, d)) (hn : c.size < n) :
    closureParams n c = .ok (ns, d) := by
  have hfill := size_fill c
  unfold closureParams at h ⊢
  dsimp only at h ⊢
  split at h
  · cases h
  · next hend =>
    simp only [hend, Bool.false_eq_true, ↓reduceIte]
    split at h
    · exact h
    · exact params_fuel h (by omega)

end Cursor

end Reckon
