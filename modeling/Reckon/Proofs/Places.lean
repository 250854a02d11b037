import Reckon.Proofs.OneText

namespace Reckon

namespace Cursor

/-- The text around a place with all lines that may follow. -/
def entire (c : Cursor) : List Char := c.text ++ joined c.lines

@[simp] theorem entire_advance (c : Cursor) : c.advance.entire = c.entire := by
  rw [entire, text_advance, lines_advance, entire]

@[simp] theorem entire_advanceBy (n : Nat) (c : Cursor) : (c.advanceBy n).entire = c.entire := by
  rw [entire, text_advanceBy, entire]
  rfl

@[simp] theorem entire_skipBlanks (c : Cursor) : c.skipBlanks.entire = c.entire := by
  rw [entire, text_skipBlanks, entire]
  rfl

theorem text_skipBangsFrom (comment : Bool) (count : Nat) (passed rest : List Char) :
    (skipBangsFrom comment count passed rest).2.1.reverse ++
      (skipBangsFrom comment count passed rest).2.2 = passed.reverse ++ rest := by
  induction rest generalizing comment count passed with
  | nil => rfl
  | cons ch rest ih =>
    unfold skipBangsFrom
    repeat' split
    all_goals first | rfl | simp [ih]

@[simp] theorem entire_skipBangs (c : Cursor) : c.skipBangs.2.entire = c.entire :=
  congrArg (· ++ joined c.lines) (text_skipBangsFrom false 0 c.passed c.rest)

@[simp] theorem entire_deeper (c : Cursor) : c.deeper.entire = c.entire := rfl

@[simp] theorem entire_shallower (c : Cursor) : c.shallower.entire = c.entire := rfl

/-- A line that is brought in goes to the end of the text, where it stood among the lines before. -/
theorem entire_fillFrom (c : Cursor) (lines : List (List Char)) :
    (c.fillFrom lines).entire = c.text ++ joined lines := by
  induction lines generalizing c with
  | nil => exact congrArg (· ++ joined []) (text_skipBlanks c)
  | cons line lines ih =>
    unfold fillFrom
    dsimp only
    split
    · next hend =>
      have hrest : c.skipBlanks.rest = [] := by simpa [atEnd] using hend.1
      rw [ih, ← text_skipBlanks c, text, text, hrest]
      simp [joined]
    · exact congrArg (· ++ joined (line :: lines)) (text_skipBlanks c)

@[simp] theorem entire_fill (c : Cursor) : c.fill.entire = c.entire := entire_fillFrom c c.lines

theorem entire_accept? {c d : Cursor} {ch : Char} (h : c.accept? ch = some d) :
    d.entire = c.entire := by
  obtain ⟨-, rfl⟩ := accept?_eq_some_iff.mp h
  exact entire_advance c

theorem entire_name? {c d : Cursor} {name : String} (h : c.name? = some (name, d)) :
    d.entire = c.entire := by
  obtain ⟨⟨word, n⟩, -, he⟩ := Option.map_eq_some_iff.mp h
  cases he
  exact entire_advanceBy n c

theorem entire_number {c d : Cursor} {x : Number} (h : c.number = .ok (x, d)) :
    d.entire = c.entire := by
  unfold number at h
  split at h
  · cases h
    exact entire_advanceBy _ c
  · cases h

theorem entire_binaryOp {t : Terminators} {c d : Cursor} {op : Option Op}
    (h : binaryOp t c = .ok (op, d)) : d.entire = c.entire := by
  unfold binaryOp at h
  dsimp only at h
  repeat' split at h
  all_goals cases h
  all_goals simp

theorem entire_params {fuel : Nat} {names ns : List String} {c d : Cursor}
    (h : params fuel names c = .ok (ns, d)) : d.entire = c.entire := by
  induction fuel generalizing names c with
  | zero => cases h
  | succ fuel ih =>
    unfold params at h
    split at h
    · cases h
    · next name e he =>
      rw [← entire_name? he, ← entire_fill e]
      dsimp only at h
      split at h
      · cases h
      · split at h
        · next e' hb =>
          cases h
          exact entire_accept? hb
        · split at h
          · cases h
          · next e' hc =>
            rw [← entire_accept? hc, ← entire_fill e']
            split at h
            · cases h
            · exact ih h

theorem entire_closureParams {fuel : Nat} {ns : List String} {c d : Cursor}
    (h : closureParams fuel c = .ok (ns, d)) : d.entire = c.entire := by
  rw [← entire_fill c]
  unfold closureParams at h
  dsimp only at h
  split at h
  · cases h
  · split at h
    · next hb =>
      cases h
      exact entire_accept? hb
    · exact entire_params h

/-- A later place in the same text. -/
structure Follows (c d : Cursor) : Prop where
  later : c.Later d
  entire : d.entire = c.entire
  size : d.size ≤ c.size

namespace Follows

variable {c d e : Cursor}

theorem refl (c : Cursor) : c.Follows c := ⟨.refl c, rfl, Nat.le_refl _⟩

theorem trans (h : c.Follows d) (h' : d.Follows e) : c.Follows e :=
  ⟨h.later.trans h'.later, h'.entire.trans h.entire, Nat.le_trans h'.size h.size⟩

theorem fill (c : Cursor) : c.Follows c.fill := ⟨later_fill c, entire_fill c, size_fill c⟩

theorem skipBlanks (c : Cursor) : c.Follows c.skipBlanks :=
  ⟨later_skipBlanks c, entire_skipBlanks c, size_skipBlanks c⟩

theorem skipBangs (c : Cursor) : c.Follows c.skipBangs.2 :=
  ⟨later_skipBangs c, entire_skipBangs c, size_skipBangs c⟩

theorem advance (c : Cursor) : c.Follows c.advance :=
  ⟨later_advance c, entire_advance c, size_advance_le c⟩

theorem shallower (c : Cursor) : c.Follows c.shallower :=
  ⟨later_shallower c, entire_shallower c, Nat.le_refl _⟩

theorem inside {ch : Char} (h : c.peek = some ch) : c.Follows c.advance.deeper :=
  ⟨later_inside h, by simp, size_advance_le c⟩

theorem accept? {ch : Char} (h : c.accept? ch = some d) : c.Follows d :=
  ⟨later_accept? h, entire_accept? h, Nat.le_of_lt (size_accept? h)⟩

theorem name? {name : String} (h : c.name? = some (name, d)) : c.Follows d :=
  ⟨later_name? h, entire_name? h, Nat.le_of_lt (size_name? h)⟩

theorem binaryOp {t : Terminators} {op : Option Op} (h : Cursor.binaryOp t c = .ok (op, d)) :
    c.Follows d :=
  ⟨later_binaryOp h, entire_binaryOp h, size_binaryOp h⟩

theorem closureParams {fuel : Nat} {names : List String}
    (h : Cursor.closureParams fuel c = .ok (names, d)) : c.Follows d := by
  have hends := closureParams_endsAfter fuel c
  rw [h] at hends
  exact ⟨(later_fill c).trans hends, entire_closureParams h, Nat.le_of_lt (size_closureParams h)⟩

/-- The lines that were used on the way are what the text has more. -/
theorem text_eq (h : c.Follows d) :
    d.text = c.text ++ joined (c.lines.take (d.used - c.used)) := by
  obtain ⟨n, hused, hlines, -⟩ := h.later
  have hn : d.used - c.used = n := by omega
  have hjoined : joined c.lines = joined (c.lines.take n) ++ joined d.lines := by
    rw [hlines, joined, joined, joined, ← List.flatMap_append, List.take_append_drop]
  have hentire := h.entire
  rw [Cursor.entire, Cursor.entire, hjoined, ← List.append_assoc] at hentire
  rw [hn]
  exact List.append_cancel_right hentire

end Follows

theorem length_joined (lines : List (List Char)) : (joined lines).length = linesSize lines := by
  induction lines with
  | nil => rfl
  | cons line lines ih =>
    have hcons : joined (line :: lines) = '\n' :: line ++ joined lines := rfl
    rw [hcons, List.length_append, ih, List.length_cons, linesSize]

/-- What was passed and what can still be read is the entire text. -/
theorem length_passed_add_size (c : Cursor) : c.passed.length + c.size = c.entire.length := by
  simp only [entire, text, size, List.length_append, List.length_reverse, length_joined]
  omega

/-- A later place is in the same column or further on. -/
theorem Follows.col_le {c d : Cursor} (h : c.Follows d) : c.col ≤ d.col := by
  have hc := length_passed_add_size c
  have hd := length_passed_add_size d
  have hsize := h.size
  rw [h.entire] at hd
  unfold col
  omega

theorem add_length_le_foldr_utf8Size (s : List Char) (n : Nat) :
    n + s.length ≤ s.foldr (fun ch n => ch.utf8Size + n) n := by
  induction s with
  | nil => exact Nat.le_refl n
  | cons ch s ih =>
    have := ch.utf8Size_pos
    simp only [List.length_cons, List.foldr_cons]
    omega

/-- Of two places in one text the one with less text left is further on. -/
theorem bytes_lt_of_size_lt {c d : Cursor} (h : d.entire = c.entire) (hlt : d.size < c.size) :
    c.bytes < d.bytes := by
  have hlength : c.passed.length < d.passed.length := by
    have := length_passed_add_size c
    have := length_passed_add_size d
    rw [h] at this
    omega
  -- both have passed a first part of the same text, and `d` the longer one
  have hbehind : ∀ c : Cursor, c.passed.reverse <+: c.entire := by
    intro c
    exact ⟨c.rest ++ joined c.lines, by simp [entire, text]⟩
  have hsuffix : c.passed <:+ d.passed := by
    rw [← List.reverse_prefix]
    exact List.prefix_of_prefix_length_le (h ▸ hbehind c) (hbehind d)
      (by simpa using Nat.le_of_lt hlength)
  obtain ⟨s, hs⟩ := hsuffix
  have hmore : 0 < s.length := by
    have := congrArg List.length hs
    rw [List.length_append] at this
    omega
  rw [bytes, bytes, ← hs, List.foldr_append]
  exact Nat.lt_of_lt_of_le (Nat.lt_add_of_pos_right hmore) (add_length_le_foldr_utf8Size s _)

/-- What the rules allow stays in the text. -/
theorem Reads.entire {r : Reading} (hr : r.specials = []) {p : Part} {c d : Cursor} {found : Found}
    (h : Reads r p c found d) : d.entire = c.entire := by
  induction h with
  | sign ha _ ih => rw [ih, entire_accept? ha, entire_fill]
  | last _ _ _ hb ih => rw [entire_binaryOp hb, ih, entire_fill]
  | more _ _ _ _ hb _ ih ih' => rw [ih', entire_binaryOp hb, ih, entire_fill]
  | closed _ _ _ ih | bracketed _ _ ih | vector _ _ _ ih =>
    rw [ih, entire_deeper, entire_advance]
  | @plain _ _ d _ _ _ _ _ ih => exact (entire_skipBangs d).trans ih
  | @followed _ _ _ e _ _ _ _ _ _ _ ih ih' => exact (entire_skipBangs e).trans (ih'.trans ih)
  | number _ _ hn => exact entire_number hn
  | special _ _ _ _ hs => simp [Reading.special?, hr] at hs
  | name _ _ _ _ _ hn => exact entire_name? hn
  | group _ _ ha ih => rw [entire_shallower, entire_accept? ha, ih]
  | empty => rw [entire_shallower, entire_advance, entire_fill]
  | final _ _ _ ih => rw [entire_shallower, entire_advance, ih]
  | next _ _ _ _ ih ih' => rw [ih', entire_advance, ih]
  | closure hn _ _ ih =>
    rw [ih, entire_shallower, entire_closureParams (hn _ (Nat.lt_succ_self _))]
  | call _ _ _ ih ih' | subscript _ _ _ ih ih' =>
    rw [ih', ih, entire_deeper, entire_advance, entire_skipBlanks]
  | done => exact entire_skipBlanks _

theorem Reads.follows {r : Reading} (hr : r.specials = []) {p : Part} {c d : Cursor}
    {found : Found} (h : Reads r p c found d) : c.Follows d :=
  ⟨h.later hr, h.entire hr, Nat.le_trans (Nat.le_add_right _ _) h.size⟩

end Cursor

end Reckon
