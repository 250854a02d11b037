import Reckon.Proofs.OneText

namespace Reckon

namespace Text

/-- Text with blanks for its comments, which line breaks end. The flag tells that a comment is
open. -/
def blankFrom (comment : Bool) : List Char → List Char
  | [] => []
  | ch :: rest =>
    if ch = '\n' then '\n' :: blankFrom false rest
    else if comment || ch == '#' then ' ' :: blankFrom true rest
    else ch :: blankFrom false rest

def blankComments (src : String) : String := String.ofList (blankFrom false src.toList)

theorem blankFrom_cons {ch : Char} (h : ch ≠ '#') (s : List Char) :
    blankFrom false (ch :: s) = ch :: blankFrom false s := by
  rw [blankFrom]
  split
  · next hbreak => rw [hbreak]
  · simp [h]

theorem blankFrom_append {s : List Char} (h : '#' ∉ s) (t : List Char) :
    blankFrom false (s ++ t) = s ++ blankFrom false t := by
  induction s with
  | nil => rfl
  | cons ch s ih =>
    obtain ⟨hch, hs⟩ := not_or.mp (mt List.mem_cons.mpr h)
    rw [List.cons_append, blankFrom_cons (Ne.symm hch), ih hs, List.cons_append]

theorem eq_cons_of_blankFrom {ch : Char} (h : ch ≠ ' ') {s u : List Char}
    (hs : blankFrom false s = ch :: u) : ∃ v, s = ch :: v ∧ blankFrom false v = u := by
  cases s with
  | nil => cases hs
  | cons a v =>
    by_cases ha : a = '#'
    · subst ha
      have hspace : blankFrom false ('#' :: v) = ' ' :: blankFrom true v := by
        simp [blankFrom]
      rw [hspace] at hs
      exact absurd (List.cons.inj hs).1.symm h
    · rw [blankFrom_cons ha] at hs
      obtain ⟨rfl, hv⟩ := List.cons.inj hs
      exact ⟨v, rfl, hv⟩

@[simp] theorem length_blankFrom (comment : Bool) (s : List Char) :
    (blankFrom comment s).length = s.length := by
  induction s generalizing comment with
  | nil => rfl
  | cons ch s ih =>
    unfold blankFrom
    split
    · simp [ih]
    · split <;> simp [ih]

theorem hash_not_mem_blankFrom (comment : Bool) (s : List Char) : '#' ∉ blankFrom comment s := by
  induction s generalizing comment with
  | nil => exact List.not_mem_nil
  | cons ch s ih =>
    unfold blankFrom
    split
    · simp [ih]
    · split
      · simp [ih]
      · next hopen =>
        have hch : ch ≠ '#' := by
          rintro rfl
          simp at hopen
        simp [ih, hch.symm]

theorem mem_of_mem_blankFrom {comment : Bool} {s : List Char} {ch : Char}
    (h : ch ∈ blankFrom comment s) (hch : ch ≠ ' ') : ch ∈ s := by
  induction s generalizing comment with
  | nil => exact h
  | cons a s ih =>
    unfold blankFrom at h
    split at h
    · next hbreak => simpa [hbreak] using (List.mem_cons.mp h).imp id ih
    · split at h
      · exact List.mem_cons_of_mem a (ih ((List.mem_cons.mp h).resolve_left hch))
      · simpa using (List.mem_cons.mp h).imp id ih

end Text

namespace Cursor

open Text (blankFrom)

/-- The same place in a text and in the one with blanks for its comments, without further lines. Of
what was passed only the number of characters counts, for the columns of errors. If `signed`, an `=`
is ahead that is not in a comment. -/
structure Akin (signed : Prop) (c d : Cursor) : Prop where
  rest : d.rest = blankFrom false c.rest
  passed : d.passed.length = c.passed.length
  depth : d.depth = c.depth
  used : d.used = c.used
  lines : c.lines = [] ∧ d.lines = []
  sign : signed → '=' ∈ d.rest

/-- The same place, where no comment begins. -/
structure Faces (signed : Prop) (c d : Cursor) : Prop extends Akin signed c d where
  noComment : c.peek ≠ some '#'

/-- The same place, where an expression ends. -/
structure Stops (signed : Prop) (t : Terminators) (c d : Cursor) : Prop
    extends Faces signed c d where
  ends : ∀ ch, c.peek = some ch → t.stopAt ch = true

theorem skipFrom_blankFrom (comment : Bool) {p q : List Char} (h : q.length = p.length)
    (s : List Char) :
    (skipFrom false q (blankFrom comment s)).1.length = (skipFrom comment p s).1.length ∧
      (skipFrom false q (blankFrom comment s)).2 = blankFrom false (skipFrom comment p s).2 := by
  have hbreak : Text.isBlank '\n' = true := by decide
  have hspace : Text.isBlank ' ' = true := by decide
  induction s generalizing comment p q with
  | nil => exact ⟨h, rfl⟩
  | cons ch s ih =>
    have hnext := fun comment ch' => @ih comment (ch :: p) (ch' :: q) (by simp [h])
    by_cases hch : ch = '\n'
    · subst hch
      cases comment <;> simpa [blankFrom, skipFrom, hbreak] using hnext false '\n'
    · have hopen : (ch != '\n') = true := bne_iff_ne.mpr hch
      cases comment with
      | true => simpa [blankFrom, skipFrom, hch, hopen, hspace] using hnext true ' '
      | false =>
        by_cases hhash : ch = '#'
        · subst hhash
          simpa [blankFrom, skipFrom, hspace] using hnext true ' '
        · by_cases hblank : Text.isBlank ch = true
          · simpa [blankFrom, skipFrom, hch, hhash, hblank] using hnext false ch
          · simp [blankFrom, skipFrom, hch, hhash, hblank, h]

theorem skipBangsFrom_blankFrom (comment : Bool) (count : Nat) {p q : List Char}
    (h : q.length = p.length) (s : List Char) :
    (skipBangsFrom false count q (blankFrom comment s)).1 = (skipBangsFrom comment count p s).1 ∧
      (skipBangsFrom false count q (blankFrom comment s)).2.1.length =
        (skipBangsFrom comment count p s).2.1.length ∧
      (skipBangsFrom false count q (blankFrom comment s)).2.2 =
        blankFrom false (skipBangsFrom comment count p s).2.2 := by
  have hbreak : Text.isBlank '\n' = true := by decide
  have hspace : Text.isBlank ' ' = true := by decide
  have hbang : Text.isBlank '!' = false := by decide
  induction s generalizing comment count p q with
  | nil => exact ⟨rfl, h, rfl⟩
  | cons ch s ih =>
    have hnext := fun comment count ch' =>
      @ih comment count (ch :: p) (ch' :: q) (by simp [h])
    by_cases hch : ch = '\n'
    · subst hch
      cases comment <;> simpa [blankFrom, skipBangsFrom, hbreak] using hnext false count '\n'
    · have hopen : (ch != '\n') = true := bne_iff_ne.mpr hch
      cases comment with
      | true => simpa [blankFrom, skipBangsFrom, hch, hopen, hspace] using hnext true count ' '
      | false =>
        by_cases hhash : ch = '#'
        · subst hhash
          simpa [blankFrom, skipBangsFrom, hspace] using hnext true count ' '
        · by_cases hblank : Text.isBlank ch = true
          · simpa [blankFrom, skipBangsFrom, hch, hhash, hblank] using hnext false count ch
          · by_cases hsign : ch = '!'
            · subst hsign
              simpa [blankFrom, skipBangsFrom, hbang] using hnext false (count + 1) '!'
            · simp [blankFrom, skipBangsFrom, hch, hhash, hblank, hsign, h]

theorem peek_skipFrom (comment : Bool) (p s : List Char) :
    (skipFrom comment p s).2.head? ≠ some '#' := by
  induction s generalizing comment p with
  | nil => simp [skipFrom]
  | cons ch s ih =>
    unfold skipFrom
    split
    · exact ih _ _
    · split
      · exact ih _ _
      · next hhash =>
        split
        · exact ih _ _
        · simpa using hhash

/-- Blanks end before an `=` that is not in a comment. -/
theorem sign_mem_skipFrom {p s : List Char} (hs : '#' ∉ s) (h : '=' ∈ s) :
    '=' ∈ (skipFrom false p s).2 := by
  induction s generalizing p with
  | nil => exact h
  | cons ch s ih =>
    obtain ⟨hch, hrest⟩ := not_or.mp (mt List.mem_cons.mpr hs)
    unfold skipFrom
    simp only [Bool.false_eq_true, ↓reduceIte, Ne.symm hch]
    split
    · next hblank =>
      refine ih hrest ((List.mem_cons.mp h).resolve_left ?_)
      rintro rfl
      exact absurd hblank (by decide)
    · exact h

theorem sign_mem_skipBangsFrom {count : Nat} {p s : List Char} (hs : '#' ∉ s) (h : '=' ∈ s) :
    '=' ∈ (skipBangsFrom false count p s).2.2 := by
  induction s generalizing count p with
  | nil => exact h
  | cons ch s ih =>
    obtain ⟨hch, hrest⟩ := not_or.mp (mt List.mem_cons.mpr hs)
    have hlater : ch ≠ '=' → '=' ∈ s := fun hne => (List.mem_cons.mp h).resolve_left hne.symm
    unfold skipBangsFrom
    simp only [Bool.false_eq_true, ↓reduceIte, Ne.symm hch]
    split
    · next hblank =>
      refine ih hrest (hlater ?_)
      rintro rfl
      exact absurd hblank (by decide)
    · split
      · next hsign =>
        refine ih hrest (hlater ?_)
        rintro rfl
        cases hsign
      · exact h

section

variable {signed : Prop} {c d : Cursor}

theorem Akin.noHash (h : Akin signed c d) : '#' ∉ d.rest :=
  h.rest ▸ Text.hash_not_mem_blankFrom false c.rest

theorem Akin.col (h : Akin signed c d) : d.col = c.col := congrArg (· + 1) h.passed

theorem Akin.length (h : Akin signed c d) : d.rest.length = c.rest.length :=
  h.rest ▸ Text.length_blankFrom false c.rest

theorem Akin.deeper (h : Akin signed c d) : Akin signed c.deeper d.deeper :=
  { h with depth := congrArg (· + 1) h.depth }

theorem Akin.shallower (h : Akin signed c d) : Akin signed c.shallower d.shallower :=
  { h with depth := congrArg (· - 1) h.depth }

theorem Akin.skipBlanks (h : Akin signed c d) : Faces signed c.skipBlanks d.skipBlanks := by
  have hskip := skipFrom_blankFrom false h.passed c.rest
  rw [← h.rest] at hskip
  exact {
    h with
    rest := hskip.2
    passed := hskip.1
    sign := fun hs => sign_mem_skipFrom h.noHash (h.sign hs)
    noComment := peek_skipFrom false c.passed c.rest }

theorem Akin.fill (h : Akin signed c d) : Faces signed c.fill d.fill := by
  rw [fill_settled fun _ => .inr h.lines.1, fill_settled fun _ => .inr h.lines.2]
  exact h.skipBlanks

/-- As many factorial signs are passed. -/
theorem Akin.factorials (h : Akin signed c d) (v : Value) :
    (Cursor.factorials v d).1 = (Cursor.factorials v c).1 ∧
      Akin signed (Cursor.factorials v c).2 (Cursor.factorials v d).2 := by
  have hskip := skipBangsFrom_blankFrom false 0 h.passed c.rest
  rw [← h.rest] at hskip
  refine ⟨congrArg (fun n => n.repeat (Value.unary .fact) v) hskip.1, ?_⟩
  exact {
    h with
    rest := hskip.2.2
    passed := hskip.2.1
    sign := fun hs => sign_mem_skipBangsFrom h.noHash (h.sign hs) }

theorem Faces.peek (h : Faces signed c d) : d.peek = c.peek := by
  have hne := h.noComment
  unfold Cursor.peek at hne ⊢
  rw [h.rest]
  cases hr : c.rest with
  | nil => rfl
  | cons ch rest =>
    rw [hr] at hne
    rw [Text.blankFrom_cons (by simpa using hne)]
    rfl

theorem Akin.atEnd (h : Akin signed c d) : d.atEnd = c.atEnd := by
  have hlength := h.length
  unfold Cursor.atEnd
  cases hc : c.rest <;> cases hd : d.rest <;> simp_all

theorem Faces.badChar (h : Faces signed c d) : d.badChar = c.badChar := by
  simp [Cursor.badChar, h.peek, errorHere, earlyEnd, h.col]

/-- A character other than `=` is passed in both texts. -/
theorem Faces.advance (h : Faces signed c d) (hs : c.peek ≠ some '=') :
    Akin signed c.advance d.advance := by
  have hne := h.noComment
  have hrest := h.rest
  unfold Cursor.advance
  unfold Cursor.peek at hs hne
  cases hr : c.rest with
  | nil =>
    rw [hr] at hrest
    rw [hrest]
    exact h.toAkin
  | cons ch rest =>
    rw [hr] at hs hne hrest
    rw [Text.blankFrom_cons (by simpa using hne)] at hrest
    rw [hrest]
    exact {
      h.toAkin with
      rest := rfl
      passed := by simp [h.passed]
      sign := fun hsigned => by
        have hmem := h.sign hsigned
        rw [hrest] at hmem
        exact (List.mem_cons.mp hmem).resolve_left fun he => hs (congrArg some he.symm) }

theorem Faces.accept? (h : Faces signed c d) (ch : Char) (hch : ch ≠ '=') :
    (c.accept? ch = none ∧ d.accept? ch = none) ∨
      ∃ c' d', c.accept? ch = some c' ∧ d.accept? ch = some d' ∧ Akin signed c' d' := by
  unfold Cursor.accept?
  rw [h.peek]
  by_cases hp : c.peek = some ch
  · rw [if_pos hp, if_pos hp]
    exact .inr ⟨_, _, rfl, rfl, h.advance (by simpa [hp] using hch)⟩
  · rw [if_neg hp, if_neg hp]
    exact .inl ⟨rfl, rfl⟩

/-- What is ahead before the next comment and the next `=`. -/
def clear (c : Cursor) : List Char := c.rest.takeWhile fun ch => ch != '#' && ch != '='

theorem mem_clear {ch : Char} (h : ch ∈ c.clear) : ch ≠ '#' ∧ ch ≠ '=' := by
  have hall := List.all_eq_true.mp (List.all_takeWhile (l := c.rest)) ch h
  simpa using hall

/-- Both texts are the same up to the next comment or `=`, where names and numbers end. -/
theorem Akin.clear_append (h : Akin signed c d) : ∃ t, c.rest = c.clear ++ t ∧
    d.rest = c.clear ++ blankFrom false t ∧ Token.Apart t ∧ Token.Apart (blankFrom false t) := by
  have hsplit : c.rest = c.clear ++ c.rest.dropWhile fun ch => ch != '#' && ch != '=' :=
    List.takeWhile_append_dropWhile.symm
  have hhead := List.head?_dropWhile_not (fun ch => ch != '#' && ch != '=') c.rest
  generalize (c.rest.dropWhile fun ch => ch != '#' && ch != '=') = t at hsplit hhead
  have hblank : d.rest = c.clear ++ blankFrom false t := by
    rw [h.rest, hsplit, Text.blankFrom_append fun hm => (mem_clear hm).1 rfl]
  refine ⟨t, hsplit, hblank, ?_⟩
  cases t with
  | nil => exact ⟨.inl rfl, .inl rfl⟩
  | cons ch u =>
    have hch : ch = '#' ∨ ch = '=' := by
      by_contra hne
      simp [not_or.mp hne] at hhead
    rcases hch with rfl | rfl
    · exact ⟨.inr ⟨_, _, rfl, by decide⟩, .inr ⟨' ', blankFrom true u, rfl, by decide⟩⟩
    · exact ⟨.inr ⟨_, _, rfl, by decide⟩, .inr ⟨'=', blankFrom false u, rfl, by decide⟩⟩

theorem Akin.advanceBy (h : Akin signed c d) {n : Nat} (hn : n ≤ c.clear.length) :
    Akin signed (c.advanceBy n) (d.advanceBy n) := by
  obtain ⟨t, hc, hd, -, -⟩ := h.clear_append
  have hdrop : ∀ u, (c.clear ++ u).drop n = c.clear.drop n ++ u :=
    fun u => List.drop_append_of_le_length hn
  exact {
    h with
    rest := by
      change d.rest.drop n = blankFrom false (c.rest.drop n)
      rw [hc, hd, hdrop, hdrop, Text.blankFrom_append]
      exact fun hm => (mem_clear (List.mem_of_mem_drop hm)).1 rfl
    passed := by simp [Cursor.advanceBy, h.passed, h.length]
    sign := fun hs => by
      have hmem := h.sign hs
      change '=' ∈ d.rest.drop n
      rw [hd] at hmem ⊢
      rw [hdrop]
      refine List.mem_append_right _ ((List.mem_append.mp hmem).resolve_left fun hm => ?_)
      exact (mem_clear hm).2 rfl }

/-- A name or number is found in both texts, or in none. -/
theorem Akin.token (h : Akin signed c d) {α : Type} {find : List Char → Option (α × Nat)}
    (hle : ∀ {s a n}, find s = some (a, n) → n ≤ s.length)
    (hends : ∀ {t}, Token.Apart t → ∀ s, find (s ++ t) = find s) :
    (find c.rest = none ∧ find d.rest = none) ∨ ∃ a n, find c.rest = some (a, n) ∧
      find d.rest = some (a, n) ∧ Akin signed (c.advanceBy n) (d.advanceBy n) := by
  obtain ⟨t, hc, hd, ht, hblank⟩ := h.clear_append
  rw [hc, hd, hends ht, hends hblank]
  cases hfound : find c.clear with
  | none => exact .inl ⟨rfl, rfl⟩
  | some p => exact .inr ⟨p.1, p.2, rfl, rfl, h.advanceBy (hle hfound)⟩

theorem Akin.name? (h : Akin signed c d) : (c.name? = none ∧ d.name? = none) ∨
    ∃ name c' d', c.name? = some (name, c') ∧ d.name? = some (name, d') ∧ Akin signed c' d' := by
  unfold Cursor.name?
  rcases h.token Token.name?_le Token.name?_apart with ⟨hc, hd⟩ | ⟨name, n, hc, hd, hakin⟩
  · exact .inl ⟨by rw [hc]; rfl, by rw [hd]; rfl⟩
  · exact .inr ⟨name, _, _, by rw [hc]; rfl, by rw [hd]; rfl, hakin⟩

end

/-- The same is found, up to places in the relation `R`, or there is the same error. -/
inductive Equally {α : Type} (R : α → Cursor → Cursor → Prop) :
    Except Failed (α × Cursor) → Except Failed (α × Cursor) → Prop
  | ok {a : α} {c d : Cursor} : R a c d → Equally R (.ok (a, c)) (.ok (a, d))
  | error (f : Failed) : Equally R (.error f) (.error f)

theorem Equally.bind {α β : Type} {R : α → Cursor → Cursor → Prop} {S : β → Cursor → Cursor → Prop}
    {x y : Except Failed (α × Cursor)} {f g : α × Cursor → Except Failed (β × Cursor)}
    (h : Equally R x y) (hf : ∀ a c d, R a c d → Equally S (f (a, c)) (g (a, d))) :
    Equally S (x >>= f) (y >>= g) := by
  cases h with
  | ok h => exact hf _ _ _ h
  | error f => exact .error f

/-- What becomes of what was found is the same if it does not depend on the two places. -/
theorem Equally.bind_eq {α β : Type} {R : α → Cursor → Cursor → Prop}
    {x y : Except Failed (α × Cursor)} {f : α × Cursor → Except Failed β} (h : Equally R x y)
    (hf : ∀ a c d, R a c d → f (a, c) = f (a, d)) : (x >>= f) = (y >>= f) := by
  cases h with
  | ok h => exact hf _ _ _ h
  | error f => rfl

section

variable {signed : Prop} {c d : Cursor} {α : Type} {R : α → Cursor → Cursor → Prop}

theorem Akin.fails (h : Akin signed c d) (cause : Cause) :
    Equally R (.error (c.failWith (c.errorHere cause)))
      (.error (d.failWith (d.errorHere cause))) := by
  unfold failWith errorHere
  rw [h.col, h.used]
  exact .error _

theorem Faces.fails (h : Faces signed c d) :
    Equally R (.error (c.failWith c.badChar)) (.error (d.failWith d.badChar)) := by
  unfold failWith
  rw [h.badChar, h.used]
  exact .error _

/-- Where nothing is found an expression ends. -/
def Ends (signed : Prop) (t : Terminators) (a : Option α) (c d : Cursor) : Prop :=
  Akin signed c d ∧ (a = none → Stops signed t c d)

theorem binaryOp_equally (t : Terminators) (h : Akin signed c d) :
    Equally (Ends signed t) (binaryOp t c) (binaryOp t d) := by
  have hfill := h.fill
  unfold binaryOp
  simp only [hfill.peek, hfill.depth]
  cases hp : c.fill.peek with
  | none =>
    dsimp only
    split
    · exact hfill.toAkin.fails .earlyEnd
    · exact .ok ⟨hfill.toAkin, fun _ => ⟨hfill, by simp [hp]⟩⟩
  | some ch =>
    dsimp only
    split
    · next hstop => exact .ok ⟨hfill.toAkin, fun _ => ⟨hfill, by simp [hp, hstop]⟩⟩
    · cases hop : operator? ch with
      | some op =>
        refine .ok ⟨hfill.advance ?_, nofun⟩
        rw [hp]
        rintro ⟨rfl⟩
        cases hop
      | none =>
        dsimp only
        split
        · exact .ok ⟨hfill.toAkin, nofun⟩
        · exact hfill.fails

theorem number_equally (h : Faces signed c d) :
    Equally (fun _ => Akin signed) c.number d.number := by
  unfold number
  rcases h.token Token.number?_le Token.number?_apart with ⟨hc, hd⟩ | ⟨x, n, hc, hd, hakin⟩
  · rw [hc, hd]
    exact h.fails
  · rw [hc, hd]
    exact .ok hakin

theorem params_equally (n : Nat) (names : List String) (h : Faces signed c d) :
    Equally (fun _ => Akin signed) (params n names c) (params n names d) := by
  induction n generalizing names c d with
  | zero =>
    unfold params
    rw [h.used]
    exact .error _
  | succ n ih =>
    unfold params
    rcases h.name? with ⟨hc, hd⟩ | ⟨name, c', d', hc, hd, hname⟩
    · simp only [hc, hd]
      exact h.fails
    · have hfill := hname.fill
      simp only [hc, hd, hfill.atEnd]
      split
      · exact hfill.toAkin.fails .earlyEnd
      · rcases hfill.accept? '|' (by decide) with ⟨hc, hd⟩ | ⟨c', d', hc, hd, hbar⟩
        · simp only [hc, hd]
          rcases hfill.accept? ',' (by decide) with ⟨hc, hd⟩ | ⟨c', d', hc, hd, hcomma⟩
          · simp only [hc, hd]
            exact hfill.fails
          · simp only [hc, hd, hcomma.fill.atEnd]
            split
            · exact hcomma.fill.fails
            · exact ih _ hcomma.fill
        · simp only [hc, hd]
          exact .ok hbar

theorem closureParams_equally (n : Nat) (h : Akin signed c d) :
    Equally (fun _ => Akin signed) (closureParams n c) (closureParams n d) := by
  have hfill := h.fill
  unfold closureParams
  simp only [hfill.atEnd]
  split
  · exact hfill.toAkin.fails .earlyEnd
  · rcases hfill.accept? '|' (by decide) with ⟨hc, hd⟩ | ⟨c', d', hc, hd, hbar⟩
    · simp only [hc, hd]
      exact params_equally n [] hfill
    · simp only [hc, hd]
      exact .ok hbar

end

/-- Parts of an expression that are read with some fuel are read equally. -/
structure Blind (signed : Prop) (r : Reading) (n : Nat) : Prop where
  expr : ∀ t s {c d}, Akin signed c d →
    Equally (fun _ => Stops signed t) (exprFrom r n t s c) (exprFrom r n t s d)
  primary : ∀ t {c d}, Faces signed c d →
    Equally (Ends signed t) (Cursor.primary r n t c) (Cursor.primary r n t d)
  atom : ∀ {c d}, Faces signed c d →
    Equally (fun _ => Akin signed) (Cursor.atom r n c) (Cursor.atom r n d)
  group : ∀ {close c d}, close ≠ '=' → Akin signed c d →
    Equally (fun _ => Akin signed) (Cursor.group r n close c) (Cursor.group r n close d)
  list : ∀ {close} first {c d}, close ≠ '=' → Akin signed c d →
    Equally (fun _ => Akin signed) (Cursor.list r n close first c) (Cursor.list r n close first d)
  closure : ∀ t {c d}, Akin signed c d →
    Equally (fun _ => Akin signed) (Cursor.closure r n t c) (Cursor.closure r n t d)
  postfixes : ∀ v {c d}, Akin signed c d →
    Equally (fun _ => Akin signed) (Cursor.postfixes r n v c) (Cursor.postfixes r n v d)

namespace Blind

variable {signed : Prop} {r : Reading} {n : Nat} {c d : Cursor} (h : Blind signed r n)
include h

theorem expr_succ (t : Terminators) (s : Spine) (hcd : Akin signed c d) :
    Equally (fun _ => Stops signed t) (exprFrom r (n + 1) t s c) (exprFrom r (n + 1) t s d) := by
  have hfill := hcd.fill
  unfold exprFrom
  simp only [hfill.atEnd, hfill.depth]
  split
  · next hend =>
    split
    · exact hfill.toAkin.fails .earlyEnd
    · refine .ok ⟨hfill, ?_⟩
      simp [peek, List.isEmpty_iff.mp hend]
  · rcases hfill.accept? '-' (by decide) with ⟨hc, hd⟩ | ⟨c', d', hc, hd, hminus⟩
    · simp only [hc, hd]
      refine (h.primary t hfill).bind fun v c d hv => ?_
      cases v with
      | none =>
        have hstop := hv.2 rfl
        dsimp only
        split
        · exact .ok hstop
        · exact hstop.toFaces.fails
      | some v =>
        refine (binaryOp_equally t hv.1).bind fun op c d hop => ?_
        cases op with
        | none => exact .ok (hop.2 rfl)
        | some op => exact h.expr t _ hop.1
    · simp only [hc, hd]
      exact h.expr t _ hminus

theorem primary_succ (t : Terminators) (hcd : Faces signed c d) :
    Equally (Ends signed t) (Cursor.primary r (n + 1) t c) (Cursor.primary r (n + 1) t d) := by
  unfold Cursor.primary
  simp only [hcd.peek]
  split
  · next hstop =>
    refine .ok ⟨hcd.toAkin, fun _ => ⟨hcd, fun ch hch => ?_⟩⟩
    simpa [hch] using hstop
  · split
    · next hbar =>
      have hinside := (hcd.advance (by simp [hbar])).deeper
      exact (h.closure t hinside).bind fun v c d hv => .ok ⟨hv, by simp⟩
    · refine (h.atom hcd).bind fun v c d hv => ?_
      dsimp only
      split
      · refine (h.postfixes v hv).bind fun w c d hw => ?_
        obtain ⟨hcount, hakin⟩ := hw.factorials w
        dsimp only
        rw [hcount]
        exact .ok ⟨hakin, by simp⟩
      · obtain ⟨hcount, hakin⟩ := hv.factorials v
        simp only [ok_bind]
        rw [hcount]
        exact .ok ⟨hakin, by simp⟩

theorem atom_succ (hr : r.specials = []) (hcd : Faces signed c d) :
    Equally (fun _ => Akin signed) (Cursor.atom r (n + 1) c) (Cursor.atom r (n + 1) d) := by
  unfold Cursor.atom
  simp only [hcd.peek]
  cases hp : c.peek with
  | none => exact hcd.fails
  | some ch =>
    have hspecial : r.special? ch = none := by simp [Reading.special?, hr]
    simp only [hspecial]
    split
    · exact (number_equally hcd).bind fun x c d hx => .ok hx
    · split
      · next hopen =>
        exact h.group (by decide) (hcd.advance (by simp [hp, hopen])).deeper
      · split
        · next hopen =>
          have hinside := (hcd.advance (by simp [hp, hopen])).deeper
          refine (h.list true (by decide) hinside).bind fun vs c' d' hvs => ?_
          dsimp only
          split
          · unfold failWith errorHere
            rw [hvs.used, hcd.col]
            exact .error _
          · exact .ok hvs
        · rcases hcd.name? with ⟨hc, hd⟩ | ⟨name, c', d', hc, hd, hname⟩
          · simp only [hc, hd]
            exact hcd.fails
          · simp only [hc, hd]
            exact .ok hname

theorem group_succ {close : Char} (hclose : close ≠ '=') (hcd : Akin signed c d) :
    Equally (fun _ => Akin signed) (Cursor.group r (n + 1) close c)
      (Cursor.group r (n + 1) close d) := by
  unfold Cursor.group
  refine (h.expr _ [] hcd).bind fun v c d hstop => ?_
  cases v with
  | none => exact hstop.toFaces.fails
  | some v =>
    dsimp only
    rcases hstop.toFaces.accept? close hclose with ⟨hc, hd⟩ | ⟨c', d', hc, hd, hafter⟩
    · simp only [hc, hd]
      exact hstop.toFaces.fails
    · simp only [hc, hd]
      exact .ok hafter.shallower

theorem list_succ {close : Char} (first : Bool) (hclose : close ≠ '=') (hcd : Akin signed c d) :
    Equally (fun _ => Akin signed) (Cursor.list r (n + 1) close first c)
      (Cursor.list r (n + 1) close first d) := by
  unfold Cursor.list
  refine (h.expr _ [] hcd).bind fun v c d hstop => ?_
  -- What ends an item is a comma or the closing bracket.
  have hafter : Akin signed c.advance d.advance := by
    refine hstop.advance fun hp => ?_
    have hends := hstop.ends _ hp
    simp [Terminators.stopAt, hclose] at hends
  cases v with
  | none =>
    simp only [hstop.peek]
    split
    · exact .ok hafter.shallower
    · exact hstop.toFaces.fails
  | some v =>
    simp only [hstop.peek]
    split
    · exact .ok hafter.shallower
    · exact (h.list false hclose hafter).bind fun vs c d hvs => .ok hvs

theorem closure_succ (t : Terminators) (hcd : Akin signed c d) :
    Equally (fun _ => Akin signed)
      (Cursor.closure r (n + 1) t c) (Cursor.closure r (n + 1) t d) := by
  unfold Cursor.closure
  refine (closureParams_equally n hcd).bind fun names c d hnames => ?_
  refine (h.expr t [] hnames.shallower).bind fun v c d hstop => ?_
  cases v with
  | none => exact hstop.toFaces.fails
  | some v => exact .ok hstop.toAkin

theorem postfixes_succ (v : Value) (hcd : Akin signed c d) :
    Equally (fun _ => Akin signed) (Cursor.postfixes r (n + 1) v c)
      (Cursor.postfixes r (n + 1) v d) := by
  have hskip := hcd.skipBlanks
  unfold Cursor.postfixes
  simp only [hskip.peek]
  split
  · next hp =>
    have hinside := (hskip.advance (by simp [hp])).deeper
    exact (h.list true (by decide) hinside).bind fun args c d hargs => h.postfixes _ hargs
  · split
    · next hp =>
      have hinside := (hskip.advance (by simp [hp])).deeper
      exact (h.group (by decide) hinside).bind fun i c d hi => h.postfixes _ hi
    · exact .ok hskip.toAkin

end Blind

theorem blind (signed : Prop) {r : Reading} (hr : r.specials = []) (n : Nat) :
    Blind signed r n := by
  have hspent : ∀ {α : Type} {R : α → Cursor → Cursor → Prop} {c d : Cursor}, Akin signed c d →
      Equally R (.error ⟨.outOfFuel, c.used⟩) (.error ⟨.outOfFuel, d.used⟩) := by
    intro α R c d h
    rw [h.used]
    exact .error _
  induction n with
  | zero => exact {
      expr := fun _ _ _ _ h => hspent h
      primary := fun _ _ _ h => hspent h.toAkin
      atom := fun h => hspent h.toAkin
      group := fun _ h => hspent h
      list := fun _ _ _ _ h => hspent h
      closure := fun _ _ _ h => hspent h
      postfixes := fun _ _ _ h => hspent h }
  | succ n ih => exact {
      expr := fun t s _ _ => ih.expr_succ t s
      primary := fun t _ _ => ih.primary_succ t
      atom := ih.atom_succ hr
      group := ih.group_succ
      list := fun first _ _ => ih.list_succ first
      closure := fun t _ _ => ih.closure_succ t
      postfixes := fun v _ _ => ih.postfixes_succ v }

/-- Without special syntax comments make no difference to an expression, and no `=` outside comments
is passed. -/
theorem expr_equally {signed : Prop} {r : Reading} (hr : r.specials = []) {c d : Cursor}
    (h : Akin signed c d) : Equally (fun _ => Stops signed {}) (c.expr r) (d.expr r) := by
  have hsize : d.size = c.size := by simp [size, h.length, h.lines.1, h.lines.2]
  unfold expr
  rw [hsize]
  exact (blind signed hr _).expr {} [] h

end Cursor

end Reckon
