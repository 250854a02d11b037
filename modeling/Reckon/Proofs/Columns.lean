import Reckon.Proofs.Commented
import Reckon.Proofs.Continuation
import Reckon.Proofs.Turns

/-!
Where a text is refused. The column of an error is that of the character it is about, in the text
with the lines that were used, or else of the end. Main statement: `refusal_points_into_text`.
-/

namespace Reckon

/-- An error is about a character of a text, at its column, or about the end of the text. -/
inductive Error.PointsInto (text : List Char) : Error → Prop
  | unexpected {ch n} : text[n]? = some ch → PointsInto text ⟨.unexpected ch, (n + 1 : Nat)⟩
  | ended : PointsInto text ⟨.earlyEnd, (text.length + 1 : Nat)⟩
  | shortVector {n} : text[n]? = some '<' → PointsInto text ⟨.shortVector, (n + 1 : Nat)⟩

namespace Error.PointsInto

variable {text : List Char} {e : Error} (h : e.PointsInto text)
include h

theorem kind : e.kind = .malformed := by
  cases h <;> rfl

theorem col_pos : 1 ≤ e.col := by
  cases h <;> simp

theorem col_le : e.col ≤ text.length + 1 := by
  cases h with
  | unexpected hch | shortVector hch =>
    have := (List.getElem?_eq_some_iff.mp hch).1
    dsimp only
    omega
  | ended => simp

theorem message_cases :
    (∃ ch, e.message = s!"Unexpected character: '{ch}'." ∧ text[e.col.toNat - 1]? = some ch) ∨
      (e.message = "Premature end of input." ∧ e.col = text.length + 1) ∨
      e.message = "Vector must have at least 2 components." ∧
        text[e.col.toNat - 1]? = some '<' := by
  cases h with
  | unexpected hch => exact .inl ⟨_, rfl, by simpa using hch⟩
  | ended => exact .inr (.inl ⟨rfl, by simp⟩)
  | shortVector hch => exact .inr (.inr ⟨rfl, by simpa using hch⟩)

end Error.PointsInto

namespace Cursor

variable {c : Cursor}

theorem getElem?_text {ch : Char} (h : c.peek = some ch) :
    c.text[c.passed.length]? = some ch := by
  obtain ⟨rest, hrest⟩ := List.head?_eq_some_iff.mp h
  simp [text, hrest]

theorem length_text (h : c.atEnd = true) : c.text.length = c.passed.length := by
  have hrest : c.rest = [] := by simpa [atEnd] using h
  simp [text, hrest]

theorem earlyEnd_pointsInto (h : c.atEnd = true) : c.earlyEnd.PointsInto c.text := by
  rw [earlyEnd, errorHere, col, ← length_text h]
  exact .ended

theorem badChar_pointsInto (c : Cursor) : c.badChar.PointsInto c.text := by
  unfold badChar
  split
  · next hp => exact .unexpected (getElem?_text hp)
  · next hp => exact earlyEnd_pointsInto (by simpa [peek, atEnd] using hp)

theorem col_badChar (c : Cursor) : c.badChar.col = c.col := by
  unfold badChar
  split <;> rfl

/-- The error of a refused text is at the place where reading began or further on. -/
theorem RefusedFrom.col_le {c : Cursor} {f : Failed} {e : Error} (h : RefusedFrom c f)
    (he : f.stop = .error e) : (c.col : Int) ≤ e.col := by
  cases h with
  | @unexpected d hd =>
    cases he
    rw [col_badChar]
    exact Int.ofNat_le.mpr hd.col_le
  | @ended d hd | @shortVector d _ hd =>
    cases he
    exact Int.ofNat_le.mpr hd.col_le

/-- The error of a refused text is about it and the lines that were used. -/
theorem RefusedFrom.pointsInto {f : Failed} (h : RefusedFrom c f) :
    ∃ e, f.stop = .error e ∧
      e.PointsInto (c.text ++ joined (c.lines.take (f.used - c.used))) := by
  cases h with
  | @unexpected d hd => exact ⟨d.badChar, rfl, hd.text_eq ▸ d.badChar_pointsInto⟩
  | @ended d hd hend => exact ⟨d.earlyEnd, rfl, hd.text_eq ▸ earlyEnd_pointsInto hend⟩
  | @shortVector d e hd hp he =>
    have hchar : e.text[d.passed.length]? = some '<' := by
      have hopen := getElem?_text hp
      rw [he.text_eq, List.getElem?_append_left (List.getElem?_eq_some_iff.mp hopen).1]
      exact hopen
    exact ⟨_, rfl, (hd.trans he).text_eq ▸ .shortVector hchar⟩

end Cursor

namespace Text

theorem skipFrom_eq_nil_iff {passed s : List Char} (h : '#' ∉ s) :
    (Cursor.skipFrom false passed s).2 = [] ↔ ∀ ch ∈ s, isBlank ch = true := by
  induction s generalizing passed with
  | nil => simp [Cursor.skipFrom]
  | cons ch s ih =>
    obtain ⟨hch, hs⟩ := not_or.mp (mt List.mem_cons.mpr h)
    unfold Cursor.skipFrom
    rw [if_neg Bool.false_ne_true, if_neg (Ne.symm hch)]
    split
    · next hblank => simp [ih hs, hblank]
    · next hblank => simp [hblank]

/-- A line is blank if it holds nothing else with blanks for its comments. -/
theorem isBlankLine_iff (src : String) :
    isBlankLine src = true ↔ ∀ ch ∈ (blankComments src).toList, isBlank ch = true := by
  have hline : isBlankLine (blankComments src) = isBlankLine src :=
    (Reading.faces_start src).atEnd
  have hhash : '#' ∉ (blankComments src).toList := by
    rw [toList_blankComments]
    exact hash_not_mem_blankFrom false src.toList
  rw [← hline, ← skipFrom_eq_nil_iff hhash]
  exact List.isEmpty_iff

end Text

/-- A text and the lines used are refused for a character or for their end, at its column, unless
there is nothing but blanks and comments. -/
theorem refusal_points_into_text {src : String} {lines : List String} {f : Failed}
    (h : Reading.parse { lines } src = .error f) :
    let text := (oneText src (lines.take f.used)).toList
    ∃ e, f.stop = .error e ∧
      (e.kind = .ignore ↔ ∀ ch ∈ (Text.blankComments src).toList, Text.isBlank ch = true) ∧
      (e.kind ≠ .ignore → e.kind = .malformed ∧ 1 ≤ e.col ∧ e.col ≤ text.length + 1 ∧
        ((∃ ch, e.message = s!"Unexpected character: '{ch}'." ∧
            text[e.col.toNat - 1]? = some ch) ∨
          (e.message = "Premature end of input." ∧ e.col = text.length + 1) ∨
          e.message = "Vector must have at least 2 components." ∧
            text[e.col.toNat - 1]? = some '<')) := by
  intro text
  rcases Reading.parse_refused rfl h with ⟨hblank, used, rfl⟩ | ⟨hblank, href⟩
  · exact ⟨_, rfl, iff_of_true rfl ((Text.isBlankLine_iff src).mp hblank),
      fun hne => absurd rfl hne⟩
  · obtain ⟨e, hstop, hplace⟩ := href.pointsInto
    have htext : text = src.toList ++ Cursor.joined ((lines.map String.toList).take f.used) := by
      rw [← List.map_take]
      exact toList_oneText src (lines.take f.used)
    have hpoints : e.PointsInto text := htext ▸ hplace
    have hkind : e.kind = .malformed := hpoints.kind
    have hignore : e.kind ≠ .ignore := by simp [hkind]
    have hvisible : ¬∀ ch ∈ (Text.blankComments src).toList, Text.isBlank ch = true := by
      rw [← Text.isBlankLine_iff, hblank]
      exact Bool.false_ne_true
    refine ⟨e, hstop, iff_of_false hignore hvisible, fun _ => ?_⟩
    exact ⟨hkind, hpoints.col_pos, hpoints.col_le, hpoints.message_cases⟩

/-- Comments and line breaks count, and every character counts as one, whatever its bytes. -/
theorem mark_after_comment_refused :
    let lines := ["# more", "$)"]
    let text := (oneText "(π +" lines).toList
    ∃ e, Reading.parse { lines } "(π +" = .error ⟨.error e, 2⟩ ∧ e.kind = .malformed ∧
      e.col = 13 ∧ e.message = "Unexpected character: '$'." ∧
      ∃ ch, e.message = s!"Unexpected character: '{ch}'." ∧ text[12]? = some ch := by
  intro lines text
  have hrefused : Reading.parse { lines := ["# more", "$)"] } "(π +" =
      .error ⟨.error ⟨.unexpected '$', 13⟩, 2⟩ := by cbv
  obtain ⟨e, hstop, -, hform⟩ := refusal_points_into_text hrefused
  cases hstop
  obtain ⟨hkind, -, -, hplace⟩ := hform (by decide)
  refine ⟨_, hrefused, hkind, rfl, rfl, ?_⟩
  rcases hplace with hch | ⟨hmessage, -⟩ | ⟨hmessage, -⟩
  · exact hch
  · exact absurd hmessage (by decide)
  · exact absurd hmessage (by decide)

end Reckon
