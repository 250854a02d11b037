import Reckon.Proofs.Passage

namespace Reckon

/-- Text goes on with a line break, if at all. -/
def BreaksOff (s : List Char) : Prop := s = [] ∨ ∃ t, s = '\n' :: t

namespace Token

/-- Whether a character is part of no name and no number. -/
def isApart (ch : Char) : Bool :=
  !continuesName ch && (glyphName? ch).isNone && ch != '.' && ch != '+' && ch != '-'

/-- Text goes on, if at all, with a character that is part of no name and no number. -/
def Apart (s : List Char) : Prop := s = [] ∨ ∃ ch t, s = ch :: t ∧ isApart ch = true

theorem takeWhile_apart {p : Char → Bool} (hp : ∀ ch, p ch = true → continuesName ch = true)
    (s : List Char) {t : List Char} (ht : Apart t) : (s ++ t).takeWhile p = s.takeWhile p := by
  induction s with
  | nil =>
    rcases ht with rfl | ⟨ch, u, rfl, hch⟩
    · rfl
    · have hstop : p ch = false := by
        by_contra hgo
        simp [isApart, hp ch (by simpa using hgo)] at hch
      simp [hstop]
  | cons ch s ih => simp only [List.cons_append, List.takeWhile_cons, ih]

theorem takeWhile_isDigit_apart (s : List Char) {t : List Char} (ht : Apart t) :
    (s ++ t).takeWhile Char.isDigit = s.takeWhile Char.isDigit :=
  takeWhile_apart (fun ch h => by simp [continuesName, h]) s ht

theorem name?_le {s : List Char} {name : String} {n : Nat} (h : name? s = some (name, n)) :
    n ≤ s.length := by
  cases s with
  | nil => cases h
  | cons ch s =>
    have hword := (List.takeWhile_prefix continuesName (l := s)).length_le
    simp only [name?] at h
    split at h
    · cases h
      simp
    · split at h
      · cases h
        simpa using hword
      · cases h

theorem exponent?_le {s : List Char} {e : Int} {n : Nat} (h : exponent? s = some (e, n)) :
    n ≤ s.length := by
  have hcount : ∀ {rest : List Char} {m : Int} {signs : Nat},
      (if (rest.takeWhile Char.isDigit).isEmpty then none
        else some (m, 1 + signs + (rest.takeWhile Char.isDigit).length)) = some (e, n) →
      n ≤ 1 + signs + rest.length := by
    intro rest m signs h
    have hdigits := (List.takeWhile_prefix Char.isDigit (l := rest)).length_le
    split at h
    · cases h
    · cases h
      omega
  cases s with
  | nil => cases h
  | cons ch s =>
    simp only [exponent?] at h
    split at h
    · split at h
      all_goals
        have hn := hcount h
        simp only [List.length_cons] at hn ⊢
        omega
    · cases h

/-- The exponent of a literal is read from what follows the first `m` characters. -/
theorem exponent_ends_le {s : List Char} {l l' : Decimal.Literal} {f : Int → Decimal.Literal}
    {m n : Nat} (hm : m ≤ s.length)
    (h : (match exponent? (s.drop m) with
      | some (e, k) => some (f e, m + k)
      | none => some (l', m)) = some (l, n)) : n ≤ s.length := by
  split at h
  · next e k he =>
    cases h
    have hk := exponent?_le he
    rw [List.length_drop] at hk
    omega
  · cases h
    exact hm

theorem literal?_le {s : List Char} {l : Decimal.Literal} {n : Nat}
    (h : literal? s = some (l, n)) : n ≤ s.length := by
  have hwhole : (s.takeWhile Char.isDigit).length ≤ s.length :=
    (List.takeWhile_prefix _).length_le
  simp only [literal?] at h
  split at h
  · next rest hrest =>
    dsimp only at h
    split at h
    · cases h
    · refine exponent_ends_le ?_ h
      have hfraction := (List.takeWhile_prefix Char.isDigit (l := rest)).length_le
      have hlen := congrArg List.length hrest
      simp only [List.length_drop, List.length_cons] at hlen
      omega
  · dsimp only at h
    split at h
    · cases h
    · exact exponent_ends_le hwhole h

theorem number?_le {s : List Char} {x : Number} {n : Nat} (h : number? s = some (x, n)) :
    n ≤ s.length := by
  have hinteger : ∀ {i : Int64} {n : Nat}, integer? s = some (i, n) → n ≤ s.length := by
    intro i n hi
    unfold integer? at hi
    dsimp only at hi
    split at hi
    · cases hi
    · cases hi
      exact (List.takeWhile_prefix _).length_le
  have hreal : ∀ {x : Float} {n : Nat}, real? s = some (x, n) → n ≤ s.length := by
    intro x n hx
    obtain ⟨⟨l, m⟩, hl, hx⟩ := Option.bind_eq_some_iff.mp hx
    obtain ⟨y, -, hy⟩ := Option.map_eq_some_iff.mp hx
    cases hy
    exact literal?_le hl
  unfold number? at h
  split at h
  · next hi hr =>
    split at h <;> cases h
    · exact hreal hr
    · exact hinteger hi
  · next hr =>
    cases h
    exact hreal hr
  · next hi _ =>
    cases h
    exact hinteger hi
  · cases h

section

variable {t : List Char} (ht : Apart t)
include ht

theorem name?_apart (s : List Char) : name? (s ++ t) = name? s := by
  cases s with
  | nil =>
    rcases ht with rfl | ⟨ch, u, rfl, hch⟩
    · rfl
    · simp only [isApart, continuesName, Bool.and_eq_true, Bool.not_eq_true', Bool.or_eq_false_iff,
        Option.isNone_iff_eq_none] at hch
      simp [name?, hch]
  | cons ch s =>
    simp only [List.cons_append, name?]
    rw [takeWhile_apart (fun _ => id) s ht]

theorem exponent?_apart (s : List Char) : exponent? (s ++ t) = exponent? s := by
  have hdigits := fun s => takeWhile_isDigit_apart s ht
  have hstop : ∀ ch u, t = ch :: u → isApart ch = true := by
    rintro ch u rfl
    rcases ht with h | ⟨_, _, h, hch⟩
    · cases h
    · cases h
      exact hch
  cases s with
  | nil =>
    cases t with
    | nil => rfl
    | cons ch u =>
      have hch := hstop ch u rfl
      have hletter : ¬(ch = 'e' ∨ ch = 'E') := by
        rintro (rfl | rfl) <;> exact absurd hch (by decide)
      simp [exponent?, hletter]
  | cons e s =>
    simp only [List.cons_append, exponent?]
    split
    · cases s with
      | nil =>
        cases t with
        | nil => rfl
        | cons ch u =>
          have hch := hstop ch u rfl
          have hplus : ch ≠ '+' := by
            rintro rfl
            exact absurd hch (by decide)
          have hminus : ch ≠ '-' := by
            rintro rfl
            exact absurd hch (by decide)
          have hnone := hdigits []
          simp only [List.nil_append, List.takeWhile_nil] at hnone
          simp [hplus, hminus, hnone]
      | cons sign s =>
        by_cases hplus : sign = '+'
        · subst hplus
          simp only [List.cons_append, hdigits]
        · by_cases hminus : sign = '-'
          · subst hminus
            simp only [List.cons_append, hdigits]
          · have hsame := hdigits (sign :: s)
            simp only [List.cons_append] at hsame ⊢
            simp [hplus, hminus, hsame]
    · rfl

theorem literal?_apart (s : List Char) : literal? (s ++ t) = literal? s := by
  have hdigits := fun s => takeWhile_isDigit_apart s ht
  have hexponent : ∀ n, n ≤ s.length → exponent? ((s ++ t).drop n) = exponent? (s.drop n) := by
    intro n hn
    rw [List.drop_append_of_le_length hn, exponent?_apart ht]
  have hwhole : (s.takeWhile Char.isDigit).length ≤ s.length :=
    (List.takeWhile_prefix _).length_le
  unfold literal?
  simp only [hdigits]
  rw [List.drop_append_of_le_length hwhole]
  cases hafter : s.drop (s.takeWhile Char.isDigit).length with
  | nil =>
    rcases ht with rfl | ⟨ch, u, rfl, hch⟩
    · simp
    · have hdot : ch ≠ '.' := by
        rintro rfl
        exact absurd hch (by decide)
      simp [hdot, hexponent _ hwhole]
  | cons ch rest =>
    by_cases hdot : ch = '.'
    · subst hdot
      have hfraction : (s.takeWhile Char.isDigit).length + 1 +
          (rest.takeWhile Char.isDigit).length ≤ s.length := by
        have hrest := (List.takeWhile_prefix Char.isDigit (l := rest)).length_le
        have hlen := congrArg List.length hafter
        simp only [List.length_drop, List.length_cons] at hlen
        omega
      simp only [List.cons_append, hdigits, hexponent _ hfraction]
    · simp [hdot, hexponent _ hwhole]

theorem number?_apart (s : List Char) : number? (s ++ t) = number? s := by
  unfold number? integer? real?
  rw [takeWhile_isDigit_apart s ht, literal?_apart ht]

end

end Token

theorem BreaksOff.apart {t : List Char} (h : BreaksOff t) : Token.Apart t := by
  rcases h with rfl | ⟨u, rfl⟩
  · exact .inl rfl
  · exact .inr ⟨'\n', u, rfl, by decide⟩

namespace Cursor

section

variable {t : List Char} (ht : BreaksOff t)
include ht

/-- A comment that is open where the text breaks off ends with the line break. -/
theorem skipFrom_breaksOff (comment : Bool) (passed : List Char) :
    skipFrom comment passed t = skipFrom false passed t := by
  rcases ht with rfl | ⟨u, rfl⟩
  · rfl
  · cases comment with
    | true =>
      have hblank : Text.isBlank '\n' = true := by decide
      simp [skipFrom, hblank]
    | false => rfl

theorem skipFrom_append (comment : Bool) (passed s : List Char) :
    skipFrom comment passed (s ++ t) =
      if (skipFrom comment passed s).2 = [] then skipFrom false (skipFrom comment passed s).1 t
      else ((skipFrom comment passed s).1, (skipFrom comment passed s).2 ++ t) := by
  induction s generalizing comment passed with
  | nil => simp [skipFrom, skipFrom_breaksOff ht comment]
  | cons ch s ih =>
    simp only [List.cons_append, skipFrom]
    split
    · exact ih _ _
    · split
      · exact ih _ _
      · split
        · exact ih _ _
        · simp

theorem skipBangsFrom_breaksOff (comment : Bool) (count : Nat) (passed : List Char) :
    skipBangsFrom comment count passed t = skipBangsFrom false count passed t := by
  rcases ht with rfl | ⟨u, rfl⟩
  · rfl
  · cases comment with
    | true =>
      have hblank : Text.isBlank '\n' = true := by decide
      simp [skipBangsFrom, hblank]
    | false => rfl

theorem skipBangsFrom_append (comment : Bool) (count : Nat) (passed s : List Char) :
    skipBangsFrom comment count passed (s ++ t) =
      let (n, p, rest) := skipBangsFrom comment count passed s
      if rest = [] then skipBangsFrom false n p t else (n, p, rest ++ t) := by
  induction s generalizing comment count passed with
  | nil => simp [skipBangsFrom, skipBangsFrom_breaksOff ht comment]
  | cons ch s ih =>
    simp only [List.cons_append, skipBangsFrom]
    split
    · exact ih _ _ _
    · split
      · exact ih _ _ _
      · split
        · exact ih _ _ _
        · split
          · exact ih _ _ _
          · simp

end

/-- What blanks are passed up to is no blank. -/
theorem skipFrom_again (comment : Bool) (passed s : List Char) :
    skipFrom false (skipFrom comment passed s).1 (skipFrom comment passed s).2 =
      skipFrom comment passed s := by
  induction s generalizing comment passed with
  | nil => rfl
  | cons ch s ih =>
    simp only [skipFrom]
    split
    · exact ih _ _
    · split
      · exact ih _ _
      · split
        · exact ih _ _
        · next hc hs hb => simp [skipFrom, hs, hb]

/-- Where no factorial sign follows the blanks, only these are passed. -/
theorem skipBangsFrom_of_blanks {comment : Bool} {passed s : List Char} (count : Nat)
    (h : (skipFrom comment passed s).2.head? ≠ some '!') :
    skipBangsFrom comment count passed s = (count, skipFrom comment passed s) := by
  induction s generalizing comment passed with
  | nil => rfl
  | cons ch s ih =>
    simp only [skipFrom, skipBangsFrom] at h ⊢
    by_cases hc : comment
    · simp only [hc, ↓reduceIte] at h ⊢
      exact ih h
    · by_cases hs : ch = '#'
      · simp only [hc, hs, ↓reduceIte] at h ⊢
        exact ih h
      · by_cases hb : Text.isBlank ch
        · simp only [hc, hs, hb, ↓reduceIte] at h ⊢
          exact ih h
        · have hne : ch ≠ '!' := by simpa [hc, hs, hb] using h
          simp [hc, hs, hb, hne]

/-- Blanks that were passed before make no difference to factorial signs. -/
theorem skipBangsFrom_again (comment : Bool) (count : Nat) (passed s : List Char) :
    skipBangsFrom false count (skipFrom comment passed s).1 (skipFrom comment passed s).2 =
      skipBangsFrom comment count passed s := by
  induction s generalizing comment passed with
  | nil => rfl
  | cons ch s ih =>
    simp only [skipFrom, skipBangsFrom]
    split
    · exact ih _ _
    · split
      · exact ih _ _
      · split
        · exact ih _ _
        · next hc hs hb => simp [skipBangsFrom, hs, hb]

/-- Lines, each after a line break. -/
def joined (lines : List (List Char)) : List Char := lines.flatMap ('\n' :: ·)

theorem joined_breaksOff (lines : List (List Char)) : BreaksOff (joined lines) := by
  cases lines with
  | nil => exact .inl rfl
  | cons line lines => exact .inr ⟨line ++ joined lines, rfl⟩

/-- What follows the rest of the text when `k` lines have been brought in. -/
def ahead (k : Nat) (c : Cursor) : List Char := joined (c.lines.take (k - c.used))

/-- The same place in the text that holds the first `k` lines from the start. -/
def whole (k : Nat) (c : Cursor) : Cursor :=
  { passed := c.passed, rest := c.rest ++ c.ahead k, depth := c.depth }

variable {k : Nat} {c d : Cursor}

theorem ahead_breaksOff (k : Nat) (c : Cursor) : BreaksOff (c.ahead k) := joined_breaksOff _

theorem ahead_of_used (h : c.used = k) : c.ahead k = [] := by
  simp [ahead, h, joined]

theorem ahead_of_lines (h : c.lines = []) : c.ahead k = [] := by
  simp [ahead, h, joined]

theorem whole_of_ahead (h : c.ahead k = []) : c.whole k = { c with lines := [], used := 0 } := by
  simp [whole, h]

/-- Nothing that is ahead follows the text at once, if there is text left or nothing is ahead. -/
theorem peek_whole (h : c.rest = [] → c.ahead k = []) : (c.whole k).peek = c.peek := by
  unfold peek whole
  cases hr : c.rest with
  | nil => rw [h hr]; rfl
  | cons ch rest => rfl

theorem advance_whole (h : (c.whole k).peek = c.peek) :
    (c.whole k).advance = c.advance.whole k := by
  unfold advance
  cases hr : c.rest with
  | nil =>
    have hrest : (c.whole k).rest = [] := by
      simpa [peek, hr] using h
    simp [hrest]
  | cons ch rest => simp [whole, hr, ahead]

theorem advanceBy_whole {n : Nat} (h : n ≤ c.rest.length) :
    (c.whole k).advanceBy n = (c.advanceBy n).whole k := by
  simp [advanceBy, whole, ahead, List.take_append_of_le_length h, List.drop_append_of_le_length h]

theorem accept?_whole (h : (c.whole k).peek = c.peek) (ch : Char) :
    (c.whole k).accept? ch = (c.accept? ch).map (whole k) := by
  unfold accept?
  rw [h, advance_whole h]
  split <;> rfl

@[simp] theorem skipBlanks_skipBlanks (c : Cursor) : c.skipBlanks.skipBlanks = c.skipBlanks := by
  simp [skipBlanks, skipFrom_again]

theorem skipBlanks_whole (h : c.skipBlanks.rest = [] → c.ahead k = []) :
    (c.whole k).skipBlanks = c.skipBlanks.whole k := by
  have happ := skipFrom_append (ahead_breaksOff k c) false c.passed c.rest
  split at happ
  · next hrest =>
    have hahead := h hrest
    rw [whole_of_ahead hahead, whole_of_ahead (c := c.skipBlanks) hahead]
    rfl
  · simp only [skipBlanks, whole, happ]
    rfl

/-- If only blanks are left of the text, those at the start of the lines ahead are passed, too. -/
theorem skipBlanks_whole_end (h : c.skipBlanks.rest = []) :
    (c.whole k).skipBlanks =
      { c.skipBlanks.whole k with
        passed := (skipFrom false c.skipBlanks.passed (c.ahead k)).1
        rest := (skipFrom false c.skipBlanks.passed (c.ahead k)).2 } := by
  have hrest : (skipFrom false c.passed c.rest).2 = [] := h
  have happ := skipFrom_append (ahead_breaksOff k c) false c.passed c.rest
  rw [if_pos hrest] at happ
  simp only [skipBlanks, whole, happ]

/-- Blanks that were passed before make no difference. -/
theorem skipBlanks_whole_again (k : Nat) (c : Cursor) :
    (c.skipBlanks.whole k).skipBlanks = (c.whole k).skipBlanks := by
  by_cases h : c.skipBlanks.rest = []
  · rw [skipBlanks_whole_end h, skipBlanks_whole_end (by simpa using h), skipBlanks_skipBlanks]
    rfl
  · rw [skipBlanks_whole (fun he => absurd he h),
      skipBlanks_whole (fun he => absurd (by simpa using he) h), skipBlanks_skipBlanks]

/-- The place after the text has ended and a line has been brought in. -/
def broughtOn (c : Cursor) (line : List Char) (lines : List (List Char)) : Cursor :=
  { c.skipBlanks with rest := '\n' :: line, lines, used := c.used + 1 }

theorem fillFrom_with_lines (c : Cursor) (lines' lines : List (List Char)) :
    ({ c with lines := lines' } : Cursor).fillFrom lines = c.fillFrom lines := by
  induction lines generalizing c with
  | nil => rfl
  | cons line lines ih =>
    rw [fillFrom, fillFrom]
    by_cases hend : c.skipBlanks.atEnd ∧ c.skipBlanks.depth ≠ 0
    · have hbrought := ih { c.skipBlanks with rest := '\n' :: line, used := c.used + 1 }
      exact (if_pos hend).trans (hbrought.trans (if_pos hend).symm)
    · exact (if_neg hend).trans (if_neg hend).symm

theorem fill_settled (h : c.skipBlanks.rest = [] → c.depth = 0 ∨ c.lines = []) :
    c.fill = c.skipBlanks := by
  unfold fill
  cases hl : c.lines with
  | nil => simp [fillFrom, skipBlanks, hl]
  | cons line lines =>
    have hstays : ¬(c.skipBlanks.atEnd ∧ c.skipBlanks.depth ≠ 0) := by
      rintro ⟨hend, hdepth⟩
      rcases h (by simpa [atEnd] using hend) with h | h
      · exact hdepth h
      · simp [hl] at h
    rw [fillFrom, if_neg hstays]
    simp [skipBlanks, hl]

theorem fill_broughtOn {line : List Char} {lines : List (List Char)} (hc : c.skipBlanks.rest = [])
    (hd : c.depth ≠ 0) (hl : c.lines = line :: lines) : c.fill = (c.broughtOn line lines).fill := by
  have hgoes : c.skipBlanks.atEnd ∧ c.skipBlanks.depth ≠ 0 := ⟨by simp [atEnd, hc], hd⟩
  unfold fill
  rw [hl, fillFrom, if_pos hgoes]
  exact (fillFrom_with_lines _ lines lines).symm

/-- In the one text the line stands where the text ended. -/
theorem skipBlanks_whole_broughtOn {line : List Char} {lines : List (List Char)}
    (hc : c.skipBlanks.rest = []) (hl : c.lines = line :: lines) (hk : c.used < k) :
    (c.whole k).skipBlanks = ((c.broughtOn line lines).whole k).skipBlanks := by
  have hahead : c.ahead k = '\n' :: line ++ (c.broughtOn line lines).ahead k := by
    obtain ⟨n, rfl⟩ := Nat.exists_eq_add_of_lt hk
    have hn : c.used + n + 1 - c.used = n + 1 := by omega
    have hn' : c.used + n + 1 - (c.used + 1) = n := by omega
    simp [ahead, joined, broughtOn, hl, hn, hn']
  rw [skipBlanks_whole_end hc, hahead]
  rfl

/-- Of at most `k` lines some have been used, and all of them if the text has ended. -/
def CanUse (k : Nat) (c : Cursor) : Prop := c.used ≤ k ∧ (c.Ended → c.used = k)

theorem CanUse.of_later (h : CanUse k d) (hl : c.Later d) : CanUse k c := by
  refine ⟨Nat.le_trans hl.used_le h.1, fun hc => ?_⟩
  rw [← h.2 (hl.ended hc), hl.used_of_ended hc]

/-- The same place in both texts, with the same character next. -/
def Meets (k : Nat) (c d : Cursor) : Prop := d = c.whole k ∧ d.peek = c.peek

/-- The same place in both texts, but for blanks. -/
def Nears (k : Nat) (c d : Cursor) : Prop := d.skipBlanks = (c.whole k).skipBlanks

/-- Bringing in lines leads to the place that passing blanks leads to in the one text. -/
theorem fill_whole (h : CanUse k c.fill) :
    (c.whole k).fill = c.fill.whole k ∧ (c.fill.whole k).peek = c.fill.peek := by
  have hone : (c.whole k).fill = (c.whole k).skipBlanks := fill_settled fun _ => .inr rfl
  rw [hone]
  clear hone
  induction hl : c.lines generalizing c with
  | nil =>
    have hahead : c.ahead k = [] := ahead_of_lines hl
    rw [fill_settled fun _ => .inr hl, skipBlanks_whole fun _ => hahead]
    exact ⟨rfl, peek_whole fun _ => hahead⟩
  | cons line lines ih =>
    by_cases hend : c.skipBlanks.rest = [] ∧ c.depth ≠ 0
    · rw [fill_broughtOn hend.1 hend.2 hl] at h ⊢
      have hused : c.used + 1 ≤ k := Nat.le_trans (later_fill (c.broughtOn line lines)).used_le h.1
      rw [skipBlanks_whole_broughtOn hend.1 hl hused]
      exact ih h rfl
    · have hfill : c.fill = c.skipBlanks := fill_settled fun hrest => by tauto
      rw [hfill] at h ⊢
      have hahead : c.skipBlanks.rest = [] → c.ahead k = [] := fun hrest =>
        ahead_of_used (h.2 ⟨by tauto, hrest⟩)
      rw [skipBlanks_whole hahead]
      exact ⟨rfl, peek_whole hahead⟩

/-- What comes next in the one text after blanks comes next when lines have been brought in. -/
theorem peek_fill_of_whole {ch : Char} (hd : c.depth ≠ 0)
    (h : (c.whole k).skipBlanks.peek = some ch) : c.fill.peek = some ch := by
  induction hl : c.lines generalizing c with
  | nil =>
    have hahead : c.ahead k = [] := ahead_of_lines hl
    rw [skipBlanks_whole fun _ => hahead, peek_whole (c := c.skipBlanks) fun _ => hahead] at h
    rwa [fill_settled fun _ => .inr hl]
  | cons line lines ih =>
    by_cases hrest : c.skipBlanks.rest = []
    · have hused : c.used < k := by
        by_contra hk
        have hahead : c.ahead k = [] := by
          simp [ahead, joined, Nat.sub_eq_zero_of_le (Nat.le_of_not_lt hk)]
        rw [skipBlanks_whole fun _ => hahead, peek_whole (c := c.skipBlanks) fun _ => hahead,
          peek, hrest] at h
        cases h
      rw [skipBlanks_whole_broughtOn hrest hl hused] at h
      rw [fill_broughtOn hrest hd hl]
      exact ih hd h rfl
    · rw [skipBlanks_whole fun he => absurd he hrest, peek_whole fun he => absurd he hrest] at h
      rwa [fill_settled fun he => absurd he hrest]

/-- At the end of the text, what comes next in the one text is what the lines bring in. -/
theorem CanUse.peek_fill {ch : Char} (h : CanUse k c) (hc : c.rest = [])
    (hp : (c.whole k).skipBlanks.peek = some ch) : c.fill.peek = some ch := by
  by_cases hd : c.depth = 0
  · have hahead : c.ahead k = [] := ahead_of_used (h.2 ⟨hd, hc⟩)
    simp [whole, hahead, hc, skipBlanks, skipFrom, peek] at hp
  · exact peek_fill_of_whole hd hp

theorem skipBangs_skipBlanks (c : Cursor) : c.skipBlanks.skipBangs = c.skipBangs := by
  simp [skipBangs, skipBlanks, skipBangsFrom_again]

/-- The same factorial signs are passed in both texts, unless one follows where the text ended. -/
theorem skipBangs_whole (h : c.skipBangs.2.rest = [] →
    (c.skipBangs.2.whole k).skipBlanks.peek ≠ some '!') :
    (c.whole k).skipBangs.1 = c.skipBangs.1 ∧ Nears k c.skipBangs.2 (c.whole k).skipBangs.2 := by
  have happ := skipBangsFrom_append (ahead_breaksOff k c) false 0 c.passed c.rest
  dsimp only at happ
  split at happ
  · next hrest =>
    have hwhole : (c.skipBangs.2.whole k).rest = c.ahead k := by
      simp [whole, skipBangs, hrest, ahead]
    have hnext : (skipFrom false c.skipBangs.2.passed (c.ahead k)).2.head? ≠ some '!' := by
      have hpeek := h hrest
      unfold skipBlanks peek at hpeek
      rwa [hwhole] at hpeek
    have happ := happ.trans (skipBangsFrom_of_blanks c.skipBangs.1 hnext)
    have hskip : (c.whole k).skipBangs = (c.skipBangs.1, (c.skipBangs.2.whole k).skipBlanks) := by
      unfold skipBlanks
      rw [hwhole]
      simp only [skipBangs, whole, happ]
    rw [hskip]
    exact ⟨rfl, skipBlanks_skipBlanks _⟩
  · have hskip : (c.whole k).skipBangs = (c.skipBangs.1, c.skipBangs.2.whole k) := by
      simp only [skipBangs, whole, happ]
      rfl
    rw [hskip]
    exact ⟨rfl, rfl⟩

/-- Lines are brought in from the same place, whatever blanks were passed. -/
theorem Nears.fill (h : Nears k c d) : d.fill = (c.whole k).fill := by
  have hlines : d.lines = [] := congrArg Cursor.lines h
  rw [fill_settled fun _ => .inr hlines, fill_settled fun _ => .inr rfl, h]

theorem Nears.skipBangs (h : Nears k c d) : d.skipBangs = (c.whole k).skipBangs := by
  rw [← skipBangs_skipBlanks, h, skipBangs_skipBlanks]

theorem name?_whole (k : Nat) (c : Cursor) :
    (c.whole k).name? = c.name?.map fun (name, d) => (name, d.whole k) := by
  have hsame : Token.name? (c.whole k).rest = Token.name? c.rest :=
    Token.name?_apart (ahead_breaksOff k c).apart c.rest
  unfold name?
  rw [hsame]
  cases hn : Token.name? c.rest with
  | none => rfl
  | some p => simp [advanceBy_whole (Token.name?_le hn)]

theorem badChar_whole (h : (c.whole k).peek = c.peek) : (c.whole k).badChar = c.badChar := by
  unfold badChar
  rw [h]
  split <;> rfl

end Cursor

end Reckon
