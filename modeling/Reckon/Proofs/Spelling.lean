import Mathlib
import Reckon.Proofs.Readable

namespace Reckon

namespace Token

/-- Whether no name or number goes on at the head of a text. -/
def delimits : List Char → Bool
  | [] => true
  | ch :: _ => !continuesName ch && ch != '.'

theorem takeWhile_word {p : Char → Bool} {ds s : List Char} (hd : ∀ ch ∈ ds, p ch = true)
    (hp : ∀ ch, p ch = true → continuesName ch = true) (hs : delimits s = true) :
    (ds ++ s).takeWhile p = ds := by
  rw [List.takeWhile_append_of_pos hd]
  cases s with
  | nil => simp
  | cons ch s =>
    simp only [delimits, Bool.and_eq_true, Bool.not_eq_true'] at hs
    have hn : p ch = false := by
      cases hc : p ch with
      | false => rfl
      | true => simp [hp ch hc] at hs
    simp [hn]

theorem continuesName_of_isDigit (ch : Char) (h : ch.isDigit = true) : continuesName ch = true := by
  simp [continuesName, h]

theorem continuesName_of_isName {name : String} (hn : isName name = true) :
    ∀ ch ∈ name.toList, continuesName ch = true := by
  unfold isName at hn
  split at hn
  · cases hn
  · next ch rest hs =>
    simp only [Bool.and_eq_true, List.all_eq_true] at hn
    rw [hs]
    exact List.forall_mem_cons.mpr ⟨by simp [continuesName, hn.1], hn.2⟩

/-- Parameters are written with names, commas and blanks. -/
theorem params_chars {params : List String} (hn : ∀ a ∈ params, isName a = true) :
    ∀ ch ∈ (", ".intercalate params).toList, continuesName ch = true ∨ ch = ',' ∨ ch = ' ' := by
  induction params with
  | nil => simp
  | cons a as ih =>
    have ha := continuesName_of_isName (hn a (by simp))
    cases as with
    | nil =>
      intro ch hc
      exact .inl (ha ch (by simpa using hc))
    | cons b as =>
      intro ch hc
      simp only [String.intercalate_cons_cons, String.toList_append, List.mem_append] at hc
      rcases hc with (hc | hc) | hc
      · exact .inl (ha ch hc)
      · exact .inr (by simpa using hc)
      · exact ih (fun c hc => hn c (List.mem_cons_of_mem a hc)) ch hc

theorem textOfInt_chars (n : Int64) :
    ∀ ch ∈ (Number.textOfInt n).toList, ch = '-' ∨ ch.isDigit = true := by
  have hdigits : ∀ ch ∈ Decimal.digits n.toInt.natAbs, ch.isDigit = true :=
    fun ch hc => Nat.isDigit_of_mem_toDigits (by decide) (by decide) hc
  unfold Number.textOfInt
  intro ch hc
  split at hc
  · simp only [String.toList_append, String.toList_ofList, List.mem_append] at hc
    rcases hc with hc | hc
    · exact .inl (by simpa using hc)
    · exact .inr (hdigits ch hc)
  · exact .inr (hdigits ch (by simpa using hc))

theorem exponent?_of_delimits {s : List Char} (hs : delimits s = true) : exponent? s = none := by
  cases s with
  | nil => rfl
  | cons ch s =>
    have he : ¬(ch = 'e' ∨ ch = 'E') := by
      rintro (rfl | rfl)
      all_goals exact absurd hs (by simp [delimits]; decide)
    simp [exponent?, he]

theorem literal?_of_delimits {ds s : List Char} (hd : ∀ ch ∈ ds, ch.isDigit = true)
    (hne : ds ≠ []) (hs : delimits s = true) :
    literal? (ds ++ s) = some (⟨ds, [], 0⟩, ds.length) := by
  have hpoint : ∀ rest, s ≠ '.' :: rest := by
    rintro rest rfl
    simp [delimits] at hs
  simp only [literal?, takeWhile_word hd continuesName_of_isDigit hs, List.drop_left]
  simp [hne, exponent?_of_delimits hs]

theorem value_digits (n : Nat) : Decimal.value (Decimal.digits n) = n :=
  Nat.ofDigitChars_ten_toDigits

/-- A word is read back from its digits. -/
theorem number?_digits {n : Nat} (hn : n < wordBound) {s : List Char} (hs : delimits s = true) :
    number? (Decimal.digits n ++ s) =
      some (.int (Int64.ofNat n), (Decimal.digits n).length) := by
  have hd : ∀ ch ∈ Decimal.digits n, ch.isDigit = true :=
    fun ch hc => Nat.isDigit_of_mem_toDigits (by decide) (by decide) hc
  have hne : Decimal.digits n ≠ [] := Nat.toDigits_ne_nil
  have hi : integer? (Decimal.digits n ++ s) =
      some (Int64.ofNat n, (Decimal.digits n).length) := by
    simp only [integer?, takeWhile_word hd continuesName_of_isDigit hs, value_digits]
    simp [hne, hn]
  have hr : ∀ x m, real? (Decimal.digits n ++ s) = some (x, m) →
      m = (Decimal.digits n).length := by
    intro x m hx
    rw [real?, literal?_of_delimits hd hne hs] at hx
    obtain ⟨y, -, hy⟩ := Option.map_eq_some_iff.mp hx
    cases hy
    rfl
  unfold number?
  rw [hi]
  cases hx : real? (Decimal.digits n ++ s) with
  | none => rfl
  | some p => simp [hr p.1 p.2 hx]

/-- A word without a sign is read back from its text. -/
theorem number?_textOfInt {n : Int64} (hn : 0 ≤ n) {s : List Char} (hs : delimits s = true) :
    number? ((Number.textOfInt n).toList ++ s) =
      some (.int n, (Number.textOfInt n).toList.length) := by
  have hneg : ¬n < 0 := Int64.not_lt.mpr hn
  have hlt : n.toInt.natAbs < wordBound := by
    have := Int64.toInt_lt n
    have := Int64.le_iff_toInt_le.mp hn
    simp [wordBound] at this ⊢
    omega
  have hback : Int64.ofNat n.toInt.natAbs = n := by
    apply Int64.toInt_inj.mp
    rw [Int64.toInt_ofNat_of_lt hlt]
    have := Int64.le_iff_toInt_le.mp hn
    simp at this
    omega
  simpa [Number.textOfInt, hneg, hback] using number?_digits hlt hs

theorem glyphName?_eq_none {ch : Char} (h : startsName ch = true) : glyphName? ch = none := by
  have hne : ∀ p ∈ glyphs, startsName p.1 = false := by decide
  have hf : glyphs.find? (·.1 == ch) = none := by
    apply List.find?_eq_none.mpr
    intro p hp he
    have := hne p hp
    simp [eq_of_beq he, h] at this
  simp [glyphName?, hf]

theorem name?_toList {name : String} (hn : isName name = true) {s : List Char}
    (hs : delimits s = true) : name? (name.toList ++ s) = some (name, name.toList.length) := by
  unfold isName at hn
  cases hl : name.toList with
  | nil => simp [hl] at hn
  | cons ch rest =>
    simp only [hl, Bool.and_eq_true, List.all_eq_true] at hn
    have htake : (rest ++ s).takeWhile continuesName = rest :=
      takeWhile_word hn.2 (fun _ => id) hs
    have hback : String.ofList (ch :: rest) = name := by rw [← hl, String.ofList_toList]
    simp [name?, glyphName?_eq_none hn.1, hn.1, htake, hback]

/-- A name is read back from its text in either style. -/
theorem name?_styled (style : Style) {name : String} (hn : isName name = true) {s : List Char}
    (hs : delimits s = true) :
    name? ((style.name name).toList ++ s) = some (name, (style.name name).toList.length) := by
  have hglyph : ∀ p ∈ glyphs, glyphName? p.1 = some p.2 := by decide
  unfold Style.name
  split
  · next glyph word hf =>
    have hword : word = name := by simpa using List.find?_some hf
    have hg := hglyph _ (List.mem_of_find?_eq_some hf)
    simp [name?, hg, hword]
  · exact name?_toList hn hs

/-- The characters that a primary other than a function begins with. -/
def opens (ch : Char) : Bool :=
  ch.isDigit || ch == '.' || ch == '(' || ch == '<' || beginsName ch

theorem beginsName_of_name? {ch : Char} {s : List Char} {name : String} {n : Nat}
    (h : name? (ch :: s) = some (name, n)) : beginsName ch = true := by
  simp only [name?] at h
  split at h
  · next hg => simp [beginsName, hg]
  · split at h
    · next hs => simp [beginsName, hs]
    · cases h

theorem notBlank_of_continuesName {ch : Char} (h : continuesName ch = true) :
    Text.isBlank ch = false := by
  have hrange : 48 ≤ ch.toNat ∧ ch.toNat ≤ 122 := by
    simp only [continuesName, startsName, Char.isAlpha, Char.isUpper, Char.isLower, Char.isDigit,
      Bool.or_eq_true, Bool.and_eq_true, decide_eq_true_eq, ge_iff_le,
      UInt32.le_iff_toNat_le] at h
    rcases h with ((rfl | h) | h)
    · decide
    all_goals
      simp at h
      omega
  simp [Text.isBlank, Text.inRanges, Text.blankRanges]
  omega

theorem notBlank_of_opens {ch : Char} (h : opens ch = true) : Text.isBlank ch = false := by
  simp only [opens, Bool.or_eq_true, beq_iff_eq, beginsName] at h
  rcases h with (((h | rfl) | rfl) | rfl) | h | h
  · exact notBlank_of_continuesName (continuesName_of_isDigit ch h)
  · decide
  · decide
  · decide
  · exact notBlank_of_continuesName (by simp [continuesName, h])
  · have hglyph : ∀ p ∈ glyphs, Text.isBlank p.1 = false := by decide
    obtain ⟨p, hp⟩ := Option.isSome_iff_exists.mp (Option.isSome_map ▸ h)
    have he : p.1 = ch := by simpa using List.find?_some hp
    exact he ▸ hglyph p (List.mem_of_find?_eq_some hp)

end Token

namespace Cursor

/-- A place before the text `s`, with `depth` brackets open and no further lines. -/
def before (passed s : List Char) (depth : Nat) : Cursor := { passed, rest := s, depth }

variable {p s : List Char} {k : Nat} {ch : Char}

@[simp] theorem rest_before : (before p s k).rest = s := rfl

@[simp] theorem used_before : (before p s k).used = 0 := rfl

@[simp] theorem depth_before : (before p s k).depth = k := rfl

@[simp] theorem atEnd_before : (before p s k).atEnd = s.isEmpty := rfl

@[simp] theorem peek_before : (before p s k).peek = s.head? := rfl

@[simp] theorem advance_before : (before p (ch :: s) k).advance = before (ch :: p) s k := rfl

@[simp] theorem deeper_before : (before p s k).deeper = before p s (k + 1) := rfl

@[simp] theorem shallower_before : (before p s (k + 1)).shallower = before p s k := rfl

@[simp] theorem accept?_before :
    (before p (ch :: s) k).accept? ch = some (before (ch :: p) s k) := by
  simp [accept?]

theorem accept?_before_ne {c : Char} (h : s.head? ≠ some c) : (before p s k).accept? c = none := by
  simp [accept?, h]

theorem advanceBy_before (s t : List Char) :
    (before p (s ++ t) k).advanceBy s.length = before (s.reverse ++ p) t k := by
  simp [advanceBy, before]

theorem fill_before : (before p s k).fill = (before p s k).skipBlanks := rfl

/-- Whether blanks or a comment stand at the head of a text. -/
def startsBlank : List Char → Bool
  | [] => false
  | ch :: _ => ch == '#' || Text.isBlank ch

theorem startsBlank_of_opens (h : Token.opens ch = true) : startsBlank (ch :: s) = false := by
  have hne : ch ≠ '#' := by
    rintro rfl
    exact absurd h (by decide)
  simp [startsBlank, hne, Token.notBlank_of_opens h]

theorem skipBlanks_before (h : startsBlank s = false) :
    (before p s k).skipBlanks = before p s k := by
  cases s with
  | nil => rfl
  | cons ch s =>
    simp only [startsBlank, Bool.or_eq_false_iff, beq_eq_false_iff_ne] at h
    simp [skipBlanks, before, skipFrom, h.1, h.2]

theorem skipBlanks_before_blank (h : Text.isBlank ch = true) :
    (before p (ch :: s) k).skipBlanks = (before (ch :: p) s k).skipBlanks := by
  have hne : ch ≠ '#' := by
    rintro rfl
    revert h
    decide
  simp [skipBlanks, before, skipFrom, h, hne]

theorem skipBlanks_before_blanks {blanks : List Char}
    (h : ∀ ch ∈ blanks, Text.isBlank ch = true) :
    (before p (blanks ++ s) k).skipBlanks = (before (blanks.reverse ++ p) s k).skipBlanks := by
  induction blanks generalizing p with
  | nil => rfl
  | cons ch blanks ih =>
    obtain ⟨hch, hblanks⟩ := List.forall_mem_cons.mp h
    rw [List.cons_append, skipBlanks_before_blank hch, ih hblanks, List.reverse_cons,
      List.append_assoc]
    rfl

theorem fill_before_clear (h : startsBlank s = false) : (before p s k).fill = before p s k :=
  skipBlanks_before h

theorem fill_before_blank : (before p (' ' :: s) k).fill = (before (' ' :: p) s k).fill :=
  @skipBlanks_before_blank p s k ' ' (by decide)

theorem name?_before (style : Style) {name : String} (hn : Token.isName name = true)
    (hs : Token.delimits s = true) : (before p ((style.name name).toList ++ s) k).name? =
      some (name, before ((style.name name).toList.reverse ++ p) s k) := by
  simp [name?, Token.name?_styled style hn hs, advanceBy_before]

theorem number_before {n : Int64} (hn : 0 ≤ n) (hs : Token.delimits s = true) :
    (before p ((Number.textOfInt n).toList ++ s) k).number =
      .ok (.int n, before ((Number.textOfInt n).toList.reverse ++ p) s k) := by
  simp [number, Token.number?_textOfInt hn hs, advanceBy_before]

/-- A text that begins with a name begins with no blank and no bar. -/
theorem starts_of_isName {name : String} (hn : Token.isName name = true) :
    startsBlank (name.toList ++ s) = false ∧ (name.toList ++ s).isEmpty = false ∧
      (name.toList ++ s).head? ≠ some '|' := by
  unfold Token.isName at hn
  cases hl : name.toList with
  | nil => simp [hl] at hn
  | cons ch rest =>
    simp only [hl, Bool.and_eq_true] at hn
    have ho : Token.opens ch = true := by simp [Token.opens, Token.beginsName, hn.1]
    refine ⟨startsBlank_of_opens ho, rfl, ?_⟩
    rintro ⟨rfl⟩
    exact absurd ho (by decide)

theorem name?_before_plain {name : String} (hn : Token.isName name = true)
    (hs : Token.delimits s = true) : (before p (name.toList ++ s) k).name? =
      some (name, before (name.toList.reverse ++ p) s k) := name?_before .plain hn hs

/-- A parameter that a comma and a blank follow. -/
theorem params_comma {fuel : Nat} {a : String} {names : List String} (ha : Token.isName a = true)
    (hs : startsBlank s = false) (hne : s.isEmpty = false) :
    params (fuel + 1) names (before p (a.toList ++ ',' :: ' ' :: s) k) =
      params fuel (names ++ [a]) (before (' ' :: ',' :: (a.toList.reverse ++ p)) s k) := by
  have hname := @name?_before_plain p (',' :: ' ' :: s) k a ha rfl
  have hcomma : startsBlank (',' :: ' ' :: s) = false := rfl
  have hbar : ∀ p, (before p (',' :: ' ' :: s) k).accept? '|' = none :=
    fun p => accept?_before_ne (by simp)
  have hspace : ∀ p, (before p (' ' :: s) k).skipBlanks = before (' ' :: p) s k := by
    intro p
    rw [skipBlanks_before_blank (by decide), skipBlanks_before hs]
  rw [params]
  simp only [hname, fill_before, skipBlanks_before hcomma, hbar, accept?_before, hspace,
    atEnd_before, hne, List.isEmpty_cons, Bool.false_eq_true, ↓reduceIte]

theorem intercalate_head (b : String) (as : List String) (u : List Char) :
    ∃ t, (", ".intercalate (b :: as)).toList ++ u = b.toList ++ t := by
  cases as with
  | nil => exact ⟨u, by simp⟩
  | cons c as =>
    refine ⟨", ".toList ++ ((", ".intercalate (c :: as)).toList ++ u), ?_⟩
    simp only [String.intercalate_cons_cons, String.toList_append, List.append_assoc]

theorem params_before {a : String} {as names : List String}
    (hn : ∀ b ∈ a :: as, Token.isName b = true) :
    ∃ q, params (as.length + 1) names
      (before p ((", ".intercalate (a :: as)).toList ++ '|' :: s) k) =
        .ok (names ++ a :: as, before q s k) := by
  induction as generalizing a names p with
  | nil =>
    have hname := @name?_before_plain p ('|' :: s) k a (hn a (by simp)) rfl
    have hblank : startsBlank ('|' :: s) = false := rfl
    refine ⟨'|' :: (a.toList.reverse ++ p), ?_⟩
    simp [params, hname, fill_before, skipBlanks_before hblank]
  | cons b as ih =>
    have hb : Token.isName b = true := hn b (by simp)
    obtain ⟨t, ht⟩ := intercalate_head b as ('|' :: s)
    obtain ⟨hblank, hempty, -⟩ := @starts_of_isName t b hb
    obtain ⟨q, hq⟩ := @ih (' ' :: ',' :: (a.toList.reverse ++ p)) b (names ++ [a])
      fun c hc => hn c (List.mem_cons_of_mem a hc)
    refine ⟨q, ?_⟩
    have hcomma : ", ".toList = [',', ' '] := rfl
    simp only [String.intercalate_cons_cons, String.toList_append, List.append_assoc, hcomma,
      List.cons_append, List.nil_append, List.length_cons]
    rw [ht] at hq ⊢
    rw [params_comma (hn a (by simp)) hblank hempty, hq, List.append_assoc]
    rfl

/-- The parameters of a function are read back from their text. -/
theorem closureParams_before {names : List String} (hn : ∀ b ∈ names, Token.isName b = true) :
    ∃ q, ∀ n, (before p ((", ".intercalate names).toList ++ '|' :: s) k).size < n →
      closureParams n (before p ((", ".intercalate names).toList ++ '|' :: s) k) =
        .ok (names, before q s k) := by
  cases names with
  | nil =>
    have hblank : startsBlank ('|' :: s) = false := rfl
    refine ⟨'|' :: p, fun n _ => ?_⟩
    simp [closureParams, fill_before, skipBlanks_before hblank]
  | cons a as =>
    obtain ⟨q, hq⟩ := @params_before p s k a as [] hn
    obtain ⟨t, ht⟩ := intercalate_head a as ('|' :: s)
    obtain ⟨hblank, hempty, hbar⟩ := @starts_of_isName t a (hn a (by simp))
    refine ⟨q, fun n => @closureParams_fuel (as.length + 1) n _ _ _ ?_⟩
    rw [ht] at hq ⊢
    simp [closureParams, fill_before, skipBlanks_before hblank, hempty, accept?_before_ne hbar, hq]

end Cursor

end Reckon
