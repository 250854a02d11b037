import Reckon.Proofs.Columns

namespace Reckon

open Text (isBlank blankComments)

namespace Text

theorem inRanges_of_mem {ranges : List (Nat × Nat)} {first last : Nat} {ch : Char}
    (h : (first, last) ∈ ranges) (hfirst : first ≤ ch.toNat) (hlast : ch.toNat ≤ last) :
    inRanges ranges ch = true :=
  List.any_eq_true.mpr ⟨_, h, by simp [hfirst, hlast]⟩

theorem isDecimalDigit_of_isDigit {ch : Char} (h : ch.isDigit = true) :
    isDecimalDigit ch = true := by
  simp only [Char.isDigit, Bool.and_eq_true, decide_eq_true_eq, ge_iff_le,
    UInt32.le_iff_toNat_le] at h
  exact inRanges_of_mem (.head _) h.1 h.2

theorem isLetter_of_isAlpha {ch : Char} (h : ch.isAlpha = true) : isLetter ch = true := by
  simp only [Char.isAlpha, Char.isUpper, Char.isLower, Bool.or_eq_true, Bool.and_eq_true,
    decide_eq_true_eq, ge_iff_le, UInt32.le_iff_toNat_le] at h
  rcases h with ⟨hfirst, hlast⟩ | ⟨hfirst, hlast⟩
  · exact inRanges_of_mem (.head _) hfirst hlast
  · exact inRanges_of_mem (.tail _ (.head _)) hfirst hlast

end Text

namespace Special

theorem mayTrigger_of_make {ch : Char} {read : List Char → Except Stop (Option Value × Nat)}
    {special : Special} (h : make ch read = .ok special) : mayTrigger ch = true := by
  unfold make at h
  split at h
  · assumption
  · cases h

theorem mayTrigger_root : mayTrigger '√' = true := by decide +kernel

variable {ch : Char} (h : mayTrigger ch = true)
include h

theorem not_isBlank : Text.isBlank ch = false := by
  simp only [mayTrigger, Bool.not_eq_true', Bool.or_eq_false_iff] at h
  exact h.1.1.1

theorem not_isDigit : ch.isDigit = false := by
  simp only [mayTrigger, Bool.not_eq_true', Bool.or_eq_false_iff] at h
  exact Bool.eq_false_iff.mpr fun hdigit =>
    Bool.eq_false_iff.mp h.1.2 (Text.isDecimalDigit_of_isDigit hdigit)

theorem ne_of_reserved (other : Char) (hother : other ∈ reserved) : ch ≠ other := by
  rintro rfl
  simp [mayTrigger, hother] at h

/-- The letters of a name and the underline are reserved. -/
theorem not_startsName : Token.startsName ch = false := by
  have hunderline := ne_of_reserved h '_' (by decide)
  simp only [mayTrigger, Bool.not_eq_true', Bool.or_eq_false_iff] at h
  have halpha : ch.isAlpha = false := Bool.eq_false_iff.mpr fun halpha =>
    Bool.eq_false_iff.mp h.1.1.2 (Text.isLetter_of_isAlpha halpha)
  simp [Token.startsName, hunderline, halpha]

/-- Of the glyphs that stand for names just the root sign is no letter. -/
theorem glyphName?_eq : Token.glyphName? ch = if ch = '√' then some "sqrt" else none := by
  split
  · next hroot =>
    rw [hroot]
    rfl
  · next hroot =>
    have hglyphs : ∀ p ∈ glyphs, mayTrigger p.1 = true → p.1 = '√' := by decide +kernel
    have hnone : glyphs.find? (·.1 == ch) = none := by
      rw [List.find?_eq_none]
      intro p hp he
      obtain rfl : p.1 = ch := eq_of_beq he
      exact hroot (hglyphs p hp h)
    simp [Token.glyphName?, hnone]

theorem name?_eq (s : List Char) :
    Token.name? (ch :: s) = if ch = '√' then some ("sqrt", 1) else none := by
  rw [Token.name?, glyphName?_eq h]
  by_cases hroot : ch = '√'
  · simp [hroot]
  · simp [hroot, not_startsName h]

end Special

namespace Cursor

section

variable {c : Cursor} {ch : Char} (hp : c.peek = some ch) (h : Special.mayTrigger ch = true)
include hp h

theorem name?_trigger : c.name? = if ch = '√' then some ("sqrt", c.advance) else none := by
  obtain ⟨rest, hrest⟩ := List.head?_eq_some_iff.mp hp
  rw [Cursor.name?, hrest, Special.name?_eq h]
  split
  · simp [advance, advanceBy, hrest]
  · rfl

/-- Where a value is expected only the name is found that the root sign stands for. -/
theorem atom_trigger (fuel : Nat) :
    atom {} (fuel + 1) c =
      if ch = '√' then .ok (.var "sqrt", c.advance) else .error (c.failWith c.badChar) := by
  have hpoint := Special.ne_of_reserved h '.' (by decide)
  have hbracket := Special.ne_of_reserved h '(' (by decide)
  have hangle := Special.ne_of_reserved h '<' (by decide)
  unfold atom
  by_cases hroot : ch = '√'
  all_goals simp [hp, Special.not_isDigit h, hpoint, hbracket, hangle, hroot, name?_trigger hp h,
    Reading.special?]

theorem primary_trigger (fuel : Nat) :
    primary {} (fuel + 2) {} c =
      if ch = '√' then (do
        let (v, d) ← postfixes {} (fuel + 1) (.var "sqrt") c.advance
        .ok (some (factorials v d).1, (factorials v d).2))
      else .error (c.failWith c.badChar) := by
  have hbar := Special.ne_of_reserved h '|' (by decide)
  have hgoes : ({} : Terminators).stopAt ch = false := rfl
  rw [primary, atom_trigger hp h]
  simp only [hp, hbar, hgoes, Option.any_some, Option.some.injEq]
  by_cases hroot : ch = '√'
  · simp only [hroot, ↓reduceIte, ok_bind]
    rfl
  · simp only [hroot, ↓reduceIte, error_bind, Bool.false_eq_true]

end

section

variable {c : Cursor} {ch : Char} (hp : c.fill.peek = some ch)
  (h : Special.mayTrigger ch = true)
include hp h

theorem exprFrom_trigger (fuel : Nat) (s : Spine) :
    exprFrom {} (fuel + 3) {} s c = (do
      match ← primary {} (fuel + 2) {} c.fill with
      | (none, d) => if s = [] then .ok (none, d) else .error (d.failWith d.badChar)
      | (some v, d) =>
        match ← binaryOp {} d with
        | (none, d) => .ok (some (s.close v), d)
        | (some op, d) => exprFrom {} (fuel + 2) {} (s.insert op v) d) := by
  have hminus := Special.ne_of_reserved h '-' (by decide)
  have hend : c.fill.atEnd = false := by
    obtain ⟨rest, hrest⟩ := List.head?_eq_some_iff.mp hp
    rw [atEnd, hrest]
    rfl
  have haccept : c.fill.accept? '-' = none := by simp [accept?, hp, hminus]
  rw [exprFrom]
  simp only [hend, haccept]
  rfl

/-- The text is refused at the character, as nothing begins with it. -/
theorem exprFrom_refused (hroot : ch ≠ '√') (fuel : Nat) (s : Spine) :
    exprFrom {} (fuel + 3) {} s c = .error (c.fill.failWith c.fill.badChar) := by
  rw [exprFrom_trigger hp h, primary_trigger hp h, if_neg hroot]
  rfl

end

/-- A text with a root sign ahead is refused further on, if at all. -/
theorem refused_after_root {c : Cursor} {f : Failed} {fuel : Nat} {s : Spine}
    (hp : c.fill.peek = some '√') (h : exprFrom {} (fuel + 3) {} s c = .error f)
    (hf : f.stop ≠ .outOfFuel) : RefusedFrom c.fill.advance f := by
  have hr : ({} : Reading).specials = [] := rfl
  rw [exprFrom_trigger hp Special.mayTrigger_root, primary_trigger hp Special.mayTrigger_root,
    if_pos rfl] at h
  -- the name is behind, so it is what may follow a name that fails: calls, an operator, the rest
  rcases bind_eq_error_iff.mp h with hprimary | ⟨⟨v, e⟩, hprimary, h⟩
  · rcases bind_eq_error_iff.mp hprimary with hpost | ⟨_, -, hdone⟩
    · have hfails : Turn.Fails {} (fuel + 1) f (.part (.postfixes (.var "sqrt")), c.fill.advance) :=
        hpost
      exact hfails.refused hr hf
    · cases hdone
  · obtain ⟨⟨w, d⟩, hpost, hdone⟩ := bind_eq_ok_iff.mp hprimary
    cases hdone
    have hoperand : c.fill.advance.Follows (factorials w d).2 :=
      (((lawful {} (fuel + 1)).postfixes _ _ _ _ hpost).follows hr).trans (.skipBangs d)
    rcases bind_eq_error_iff.mp h with hop | ⟨⟨op, e⟩, hop, h⟩
    · exact .from_follows hoperand (binaryOp_refused hop)
    · cases op with
      | none => cases h
      | some op =>
        have hfails : Turn.Fails {} (fuel + 2) f (.part (.terms {}), e) := ⟨_, h⟩
        exact .from_follows (hoperand.trans (.binaryOp hop)) (hfails.refused hr hf)

/-- Blanks are passed up to a character that may be a trigger. -/
theorem fill_atStart_trigger {blanks : List Char} {ch : Char}
    (hblanks : ∀ b ∈ blanks, isBlank b = true) (h : Special.mayTrigger ch = true)
    (after : List Char) :
    (atStart (blanks ++ ch :: after) []).fill = before blanks.reverse (ch :: after) 0 := by
  have hclear : startsBlank (ch :: after) = false := by
    simp [startsBlank, Special.not_isBlank h, Special.ne_of_reserved h '#' (by decide)]
  have hstart : atStart (blanks ++ ch :: after) [] = before [] (blanks ++ ch :: after) 0 := rfl
  rw [hstart, fill_before, skipBlanks_before_blanks hblanks, List.append_nil,
    skipBlanks_before hclear]

end Cursor

namespace Reading

variable {src : String} {blanks after : List Char}

/-- A text that begins with a trigger is refused at it. -/
theorem parse_trigger {ch : Char} (hsrc : (blankComments src).toList = blanks ++ ch :: after)
    (hblanks : ∀ b ∈ blanks, isBlank b = true) (h : Special.mayTrigger ch = true)
    (hroot : ch ≠ '√') :
    Reading.parse {} src = .error ⟨.error ⟨.unexpected ch, blanks.length + 1⟩, 0⟩ := by
  have hfill := Cursor.fill_atStart_trigger hblanks h after
  have hrefused := Cursor.exprFrom_refused (c := .atStart (blanks ++ ch :: after) [])
    (by rw [hfill]; rfl) h hroot (8 * (Cursor.atStart (blanks ++ ch :: after) []).size + 5) []
  rw [← parse_blankComments, Reading.parse, hsrc]
  refine bind_eq_error_iff.mpr (.inl (hrefused.trans ?_))
  simp [hfill, Cursor.failWith, Cursor.badChar, Cursor.errorHere, Cursor.col, Cursor.before,
    Cursor.peek]

/-- No error of a text that begins with the root sign is at it. -/
theorem col_of_parse_root {e : Error} {used : Nat}
    (hsrc : (blankComments src).toList = blanks ++ '√' :: after)
    (hblanks : ∀ b ∈ blanks, isBlank b = true)
    (h : Reading.parse {} src = .error ⟨.error e, used⟩) : e.col ≠ blanks.length + 1 := by
  have hfill := Cursor.fill_atStart_trigger hblanks Special.mayTrigger_root after
  rw [← parse_blankComments, Reading.parse, hsrc] at h
  rcases bind_eq_error_iff.mp h with hexpr | ⟨⟨v, d⟩, -, hdone⟩
  · have hbeyond := Cursor.refused_after_root (by rw [List.map_nil, hfill]; rfl) hexpr (by simp)
    have hcol := hbeyond.col_le rfl
    rw [List.map_nil, hfill, Cursor.advance_before] at hcol
    simp only [Cursor.col, Cursor.before, List.length_cons, List.length_reverse] at hcol
    omega
  · cases v with
    | some v => cases hdone
    | none =>
      cases hdone
      dsimp only
      omega

end Reading

/-- Special syntax is admitted for a character at which no value begins, the root sign apart: a text
that begins with such a character, after blanks and comments, is refused right there, and one that
begins with the root sign is not. -/
theorem trigger_refused_iff {ch : Char} {read : List Char → Except Stop (Option Value × Nat)}
    {special : Special} (hmake : Special.make ch read = .ok special) {src : String}
    {blanks after : List Char} (hsrc : (blankComments src).toList = blanks ++ ch :: after)
    (hblanks : ∀ b ∈ blanks, isBlank b = true) :
    (∃ e, Reading.parse {} src = .error ⟨.error e, 0⟩ ∧ e.kind = .malformed ∧
      e.message = s!"Unexpected character: '{ch}'." ∧ e.col = blanks.length + 1) ↔ ch ≠ '√' := by
  have h : Special.mayTrigger ch = true := Special.mayTrigger_of_make hmake
  constructor
  · rintro ⟨e, he, -, -, hcol⟩ rfl
    exact Reading.col_of_parse_root hsrc hblanks he hcol
  · intro hroot
    exact ⟨_, Reading.parse_trigger hsrc hblanks h hroot, rfl, rfl, rfl⟩

/-- A root sign inside a comment begins nothing, and what follows the character is not looked at. -/
theorem dollar_after_comment_refused :
    let src := "# √\n\t$(√"
    let blanks := [' ', ' ', ' ', '\n', '\t']
    Special.make '$' Special.readPlaceholder = .ok ⟨'$', Special.readPlaceholder⟩ ∧
      (blankComments src).toList = blanks ++ '$' :: ['(', '√'] ∧
      (∀ b ∈ blanks, isBlank b = true) ∧
      ∃ e, Reading.parse {} src = .error ⟨.error e, 0⟩ ∧ e.kind = .malformed ∧
        e.message = "Unexpected character: '$'." ∧ e.col = 6 := by
  intro src blanks
  have hmake : Special.make '$' Special.readPlaceholder =
      .ok ⟨'$', Special.readPlaceholder⟩ := by
    rw [Special.make, if_pos (by decide +kernel)]
  have hsrc : (blankComments src).toList = blanks ++ '$' :: ['(', '√'] := by cbv
  have hblanks : ∀ b ∈ blanks, isBlank b = true := by
    simp [blanks, isBlank, Text.inRanges, Text.blankRanges]
  obtain ⟨e, he, hkind, hmessage, hcol⟩ :=
    (trigger_refused_iff hmake hsrc hblanks).mpr (by decide)
  exact ⟨hmake, hsrc, hblanks, e, he, hkind, hmessage, hcol⟩

/-- The root sign is admitted for special syntax although it begins a value. -/
theorem root_sign_begins_value :
    Special.make '√' Special.readPlaceholder = .ok ⟨'√', Special.readPlaceholder⟩ ∧
      Reading.parse {} "√" = .ok ⟨.var "sqrt", 0⟩ := by
  constructor
  · rw [Special.make, if_pos Special.mayTrigger_root]
  · cbv

end Reckon
