import Reckon.Proofs.Comments
import Reckon.Proofs.Restated

/-!
Statements with comments. A statement is read like the one with blanks for its comments, unless a
comment stands before the `=` of an assignment. Main statement: `comments_read_as_blanks_iff`.
-/

namespace Reckon

open Text (blankFrom blankComments isBlankLine)

/-- Two readings come to equal statements, or to errors of one kind. -/
inductive AgreeInKind : Except Failed (Read Statement) → Except Failed (Read Statement) → Prop
  | ok (s : Statement) (n m : Nat) : AgreeInKind (.ok ⟨s, n⟩) (.ok ⟨s, m⟩)
  | error {e f : Error} (n m : Nat) : e.kind = f.kind →
      AgreeInKind (.error ⟨.error e, n⟩) (.error ⟨.error f, m⟩)

theorem Text.toList_blankComments (src : String) :
    (blankComments src).toList = blankFrom false src.toList :=
  String.toList_ofList

namespace Cursor

theorem akin_atStart {signed : Prop} {s : List Char} (h : signed → '=' ∈ blankFrom false s) :
    Akin signed (atStart s []) (atStart (blankFrom false s) []) :=
  ⟨rfl, rfl, rfl, rfl, ⟨rfl, rfl⟩, h⟩

section

variable {signed : Prop} {c d : Cursor} (h : Akin signed c d)
include h

theorem Akin.ending {α : Type} (a : α) : d.ending a = c.ending a := by
  have hskip := h.skipBlanks
  unfold Cursor.ending
  simp only [hskip.atEnd, hskip.badChar]

/-- The two further signs of `~~~` stand in both texts, or in none. -/
theorem Akin.tildes : (∃ u, c.rest = '~' :: '~' :: u) ↔ ∃ u, d.rest = '~' :: '~' :: u := by
  rw [h.rest]
  constructor
  · rintro ⟨u, hu⟩
    exact ⟨blankFrom false u, by rw [hu]; rfl⟩
  · rintro ⟨u, hu⟩
    obtain ⟨v, hc, hv⟩ := Text.eq_cons_of_blankFrom (by decide) hu
    obtain ⟨w, rfl, -⟩ := Text.eq_cons_of_blankFrom (by decide) hv
    exact ⟨w, hc⟩

theorem Akin.deletion : d.deletion = c.deletion := by
  have htildes := h.tildes
  unfold Cursor.deletion
  split
  · next u hu =>
    obtain ⟨v, hv⟩ := htildes.mpr ⟨u, hu⟩
    have hclear : 2 ≤ c.clear.length := by simp [clear, hv]
    rw [hv]
    exact (h.advanceBy hclear).ending _
  · next hd =>
    split
    · next v hv =>
      obtain ⟨u, hu⟩ := htildes.mp ⟨v, hv⟩
      exact absurd hu (hd u)
    · have hskip := h.skipBlanks
      rcases hskip.name? with ⟨hc, hd⟩ | ⟨name, c', d', hc, hd, hname⟩
      · simp only [hc, hd, hskip.badChar]
      · simp only [hc, hd, hname.ending]

end

theorem deletion_value? {c : Cursor} {s : Statement} (h : c.deletion = .ok s) :
    s.value? = none := by
  unfold Cursor.deletion at h
  split at h
  · cases eq_of_ending h
    rfl
  · dsimp only at h
    split at h
    · cases h
    · cases eq_of_ending h
      rfl

/-- An expression that nothing ends goes on to the end of the text, so there is no `=` in it. -/
theorem Stops.not_signed {signed : Prop} {c d : Cursor} (h : Stops signed {} c d) : ¬signed := by
  intro hs
  have hmem := h.sign hs
  have hrest : c.rest = [] := by
    cases hr : c.rest with
    | nil => rfl
    | cons ch rest =>
      have hstop := h.ends ch (by simp [peek, hr])
      cases hstop
  rw [h.rest, hrest] at hmem
  exact absurd hmem List.not_mem_nil

end Cursor

namespace Reading

/-- What is first read of a text is the same without its comments. -/
theorem faces_start (src : String) : Cursor.Faces False (.skipBlanks (.atStart src.toList []))
    (.skipBlanks (.atStart (blankComments src).toList [])) := by
  rw [Text.toList_blankComments]
  exact (Cursor.akin_atStart False.elim).skipBlanks

theorem parse_blankComments (src : String) :
    Reading.parse {} (blankComments src) = Reading.parse {} src := by
  have hstart : Cursor.Akin False _ _ := Cursor.akin_atStart (s := src.toList) False.elim
  have hsame := Cursor.expr_equally (r := {}) rfl hstart
  unfold Reading.parse
  rw [Text.toList_blankComments]
  refine (hsame.bind_eq fun v c d h => ?_).symm
  cases v with
  | none => simp [Cursor.failWith, h.used]
  | some v => simp [h.used]

/-- A text with an `=` outside comments is no expression. -/
theorem parse_ne_ok {src : String} (h : '=' ∈ blankFrom false src.toList) (v : Read Value) :
    Reading.parse {} src ≠ .ok v := by
  have hstart : Cursor.Akin True _ _ := Cursor.akin_atStart fun _ => h
  have hsame := Cursor.expr_equally (r := {}) rfl hstart
  intro hv
  unfold Reading.parse at hv
  obtain ⟨⟨w, c⟩, hw, -⟩ := bind_eq_ok_iff.mp hv
  change Cursor.expr {} (.atStart src.toList []) = _ at hw
  rw [hw] at hsame
  generalize Cursor.expr {} (.atStart (blankFrom false src.toList) []) = y at hsame
  cases hsame with
  | ok h => exact h.not_signed trivial

end Reading

/-- A text with an `=` is divided at the first, unless a comment begins before it. -/
theorem splitAssignment_of_sign {s : List Char} (h : '=' ∈ s) :
    ∃ front back, s = front ++ '=' :: back ∧ '=' ∉ front ∧ s.takeWhile (· != '=') = front ∧
      splitAssignment s = if '#' ∈ front then none else some (front, back) := by
  obtain ⟨front, back, rfl, hfront⟩ := List.eq_append_cons_of_mem h
  have htake : (front ++ '=' :: back).takeWhile (· != '=') = front := by
    rw [List.takeWhile_append_of_pos]
    · simp
    · exact fun ch hch => bne_iff_ne.mpr (ne_of_mem_of_not_mem hch hfront)
  refine ⟨front, back, rfl, hfront, htake, ?_⟩
  split
  · next hhash => simp [splitAssignment, htake, hhash]
  · next hhash => exact splitAssignment_append hfront hhash

theorem splitAssignment_eq_none_iff {s : List Char} :
    splitAssignment s = none ↔ '=' ∉ s ∨ '#' ∈ s.takeWhile (· != '=') := by
  by_cases hsign : '=' ∈ s
  · obtain ⟨front, back, -, -, htake, hsplit⟩ := splitAssignment_of_sign hsign
    simp [hsign, htake, hsplit]
  · simp [hsign, splitAssignment_eq_none hsign]

/-- A text that is divided is divided at the same `=` without its comments, which follow it. -/
theorem splitAssignment_blankFrom {s front back : List Char}
    (h : splitAssignment s = some (front, back)) :
    splitAssignment (blankFrom false s) = some (front, blankFrom false back) := by
  by_cases hsign : '=' ∈ s
  · obtain ⟨front, back, rfl, hfront, -, hsplit⟩ := splitAssignment_of_sign hsign
    obtain ⟨hhash, he⟩ := (Option.ite_none_left_eq_some ..).mp (hsplit.symm.trans h)
    cases he
    rw [Text.blankFrom_append hhash, Text.blankFrom_cons (by decide)]
    exact splitAssignment_append hfront hhash
  · cases (splitAssignment_eq_none hsign).symm.trans h

/-- The text is no deletion, and the `=` in it that stands outside comments follows a comment. -/
structure Hides (src : String) : Prop where
  notBlank : isBlankLine src = false
  notDeletion : (Cursor.atStart src.toList []).skipBlanks.accept? '~' = none
  undivided : splitAssignment src.toList = none
  sign : '=' ∈ blankFrom false src.toList

namespace Hides

variable {src : String} (h : Hides src)
include h

/-- A comment stands before the first `=` of the text. -/
theorem hash : '#' ∈ src.toList.takeWhile (· != '=') :=
  (splitAssignment_eq_none_iff.mp h.undivided).resolve_left fun hno =>
    hno (Text.mem_of_mem_blankFrom h.sign (by decide))

/-- A text whose `=` is hidden is read as an expression, which it is not. -/
theorem refused : ∃ e n, Reading.statement {} src = .error ⟨.error e, n⟩ ∧ e.kind = .malformed := by
  rcases Reading.statement_cases (r := {}) rfl src with ⟨hblank, -⟩ | ⟨-, ⟨s, hs, -⟩ | herror⟩
  · cases h.notBlank.symm.trans hblank
  · obtain ⟨s, n⟩ := s
    cases Reading.statement_eq_ok_iff.mp hs with
    | deletion htilde _ => cases h.notDeletion.symm.trans htilde
    | expression _ _ _ hv => exact absurd hv (Reading.parse_ne_ok h.sign _)
    | assignment _ _ hsplit _ _ => cases h.undivided.symm.trans hsplit
  · exact herror

/-- Without its comments it is an assignment or a definition, or malformed. -/
theorem without_comments :
    (∃ target v n, Reading.statement {} (blankComments src) = .ok ⟨.ofTarget v target, n⟩) ∨
      ∃ e n, Reading.statement {} (blankComments src) = .error ⟨.error e, n⟩ ∧
        e.kind = .malformed := by
  have hstart := Reading.faces_start src
  have hnotBlank : isBlankLine (blankComments src) = false := hstart.atEnd.trans h.notBlank
  have hnotDeletion : (Cursor.atStart (blankComments src).toList []).skipBlanks.accept? '~' =
      none := by
    rcases hstart.accept? '~' (by decide) with ⟨-, hd⟩ | ⟨c, d, hc, -⟩
    · exact hd
    · cases h.notDeletion.symm.trans hc
  rcases Reading.statement_cases (r := {}) rfl (blankComments src) with
    ⟨hblank, -⟩ | ⟨-, ⟨s, hs, -⟩ | herror⟩
  · cases hnotBlank.symm.trans hblank
  · obtain ⟨s, n⟩ := s
    cases Reading.statement_eq_ok_iff.mp hs with
    | deletion htilde _ => cases hnotDeletion.symm.trans htilde
    | expression _ _ _ hv =>
      rw [Reading.parse_blankComments] at hv
      exact absurd hv (Reading.parse_ne_ok h.sign _)
    | assignment _ _ _ _ _ => exact .inl ⟨_, _, _, hs⟩
  · exact .inr herror

end Hides

/-- Where no `=` is hidden comments make no difference. -/
theorem Reading.statement_blankComments {src : String} (h : ¬Hides src) :
    Reading.statement {} (blankComments src) = Reading.statement {} src := by
  have hstart := faces_start src
  unfold Reading.statement
  rw [parse_blankComments]
  dsimp only
  rw [hstart.atEnd]
  split
  · rfl
  · next hend =>
    rcases hstart.accept? '~' (by decide) with ⟨hc, hd⟩ | ⟨c, d, hc, hd, hakin⟩
    · rw [hc, hd, Text.toList_blankComments]
      dsimp only
      cases hsplit : splitAssignment src.toList with
      | none =>
        have hsign : '=' ∉ blankFrom false src.toList := fun hs =>
          h ⟨by simpa [isBlankLine] using hend, hc, hsplit, hs⟩
        rw [splitAssignment_eq_none hsign]
      | some p =>
        rw [splitAssignment_blankFrom hsplit]
        dsimp only
        cases htarget : (Cursor.atStart p.1 []).target with
        | error e => rfl
        | ok target =>
          dsimp only
          have hback : Cursor.Akin False ⟨'=' :: p.1.reverse, p.2, 0, [], 0⟩
              ⟨'=' :: p.1.reverse, blankFrom false p.2, 0, [], 0⟩ :=
            ⟨rfl, rfl, rfl, rfl, ⟨rfl, rfl⟩, False.elim⟩
          have hsame := Cursor.expr_equally (r := {}) rfl hback
          refine (hsame.bind_eq fun v c d hv => ?_).symm
          cases v with
          | none => simp [Cursor.failWith, Cursor.earlyEnd, Cursor.errorHere, hv.col, hv.used]
          | some v => simp [hv.used]
    · rw [hc, hd]
      dsimp only
      rw [hakin.deletion]

/-- Only a divided text assigns or defines something. -/
theorem Reading.divided_of_assigns {src : String} {target : Statement.Target} {v : Value} {n : Nat}
    (h : Reading.statement {} src = .ok ⟨.ofTarget v target, n⟩) :
    splitAssignment src.toList ≠ none := by
  generalize hs : Statement.ofTarget v target = s at h
  cases Reading.statement_eq_ok_iff.mp h with
  | deletion _ hd =>
    have hnone := Cursor.deletion_value? hd
    cases target <;> cases hs <;> cases hnone
  | expression => cases target <;> cases hs
  | assignment _ _ hsplit _ _ => simp [hsplit]

theorem agreeInKind_self (src : String) :
    AgreeInKind (Reading.statement {} src) (Reading.statement {} src) := by
  rcases Reading.statement_cases (r := {}) rfl src with
    ⟨-, hblank⟩ | ⟨-, ⟨s, hs, -⟩ | ⟨e, n, herror, -⟩⟩
  · rw [hblank]
    exact .error _ _ rfl
  · rw [hs]
    exact .ok _ _ _
  · rw [herror]
    exact .error _ _ rfl

/-- A text and the one with blanks for its comments come to equal statements or to errors of one
kind, unless a comment stands before the first `=` of the text and without its comments it assigns
or defines something. -/
theorem comments_read_as_blanks_iff (src : String) :
    AgreeInKind (Reading.statement {} src) (Reading.statement {} (blankComments src)) ↔
      ¬('#' ∈ src.toList.takeWhile (· != '=') ∧ ∃ target v n,
        Reading.statement {} (blankComments src) = .ok ⟨.ofTarget v target, n⟩) := by
  by_cases hhides : Hides src
  · obtain ⟨e, n, hsrc, hkind⟩ := hhides.refused
    rw [hsrc]
    rcases hhides.without_comments with ⟨target, v, m, hblank⟩ | ⟨f, m, hblank, hkind'⟩
    · rw [hblank]
      exact iff_of_false nofun fun hno => hno ⟨hhides.hash, target, v, m, rfl⟩
    · rw [hblank]
      refine iff_of_true (.error n m (hkind.trans hkind'.symm)) ?_
      rintro ⟨-, target, v, k, hk⟩
      cases hk
  · rw [Reading.statement_blankComments hhides]
    refine iff_of_true (agreeInKind_self src) ?_
    rintro ⟨hhash, target, v, n, h⟩
    exact Reading.divided_of_assigns h (splitAssignment_eq_none_iff.mpr (.inr hhash))

/-- After a comment the `=` of an assignment is not found. -/
theorem assignment_after_comment :
    Reading.statement {} (blankComments "# c\nx = y") = .ok ⟨.assign "x" (.var "y"), 0⟩ ∧
      ¬AgreeInKind (Reading.statement {} "# c\nx = y")
        (Reading.statement {} (blankComments "# c\nx = y")) := by
  have hsplit : splitAssignment (blankComments "# c\nx = y").toList =
      some ("   \nx ".toList, " y".toList) := by cbv
  have hassign : Reading.statement {} (blankComments "# c\nx = y") =
      .ok ⟨.assign "x" (.var "y"), 0⟩ := by
    unfold Reading.statement
    rw [hsplit]
    cbv
  have hnone : splitAssignment "# c\nx = y".toList = none := by cbv
  have hrefused : Reading.statement {} "# c\nx = y" = .error ⟨.error ⟨.unexpected '=', 7⟩, 0⟩ := by
    unfold Reading.statement
    rw [hnone]
    cbv
  refine ⟨hassign, ?_⟩
  rw [hassign, hrefused]
  intro hagree
  cases hagree

end Reckon
