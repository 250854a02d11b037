import Reckon.Proofs.Rules

namespace Reckon

/-- Characters that are neither a factorial sign nor the bracket of a subscript. -/
def Neutral (m : List Char) : Prop := ∀ ch ∈ m, ch ≠ '[' ∧ ch ≠ '!'

theorem Neutral.append {m n : List Char} (hm : Neutral m) (hn : Neutral n) : Neutral (m ++ n) := by
  intro ch hc
  rcases List.mem_append.mp hc with hc | hc
  · exact hm ch hc
  · exact hn ch hc

theorem Neutral.cons {ch : Char} {m : List Char} (hb : ch ≠ '[') (hf : ch ≠ '!') (hm : Neutral m) :
    Neutral (ch :: m) := by
  intro c hc
  rcases List.mem_cons.mp hc with rfl | hc
  · exact ⟨hb, hf⟩
  · exact hm c hc

theorem Neutral.noBracket {m : List Char} (h : Neutral m) : '[' ∉ m := fun hc => (h _ hc).1 rfl

namespace Token

theorem take_takeWhile (p : Char → Bool) (s : List Char) :
    s.take (s.takeWhile p).length = s.takeWhile p :=
  (List.prefix_iff_eq_take.mp (List.takeWhile_prefix p)).symm

theorem neutral_takeWhile {p : Char → Bool} (hb : p '[' = false) (hf : p '!' = false)
    (s : List Char) : Neutral (s.takeWhile p) := by
  intro ch hc
  have hp : p ch = true := List.all_eq_true.mp List.all_takeWhile ch hc
  constructor
  · rintro rfl
    simp [hb] at hp
  · rintro rfl
    simp [hf] at hp

theorem neutral_digits (s : List Char) : Neutral (s.takeWhile Char.isDigit) :=
  neutral_takeWhile (by decide) (by decide) s

theorem neutral_take_digits (s : List Char) :
    Neutral (s.take (s.takeWhile Char.isDigit).length) :=
  (take_takeWhile Char.isDigit s).symm ▸ neutral_digits s

theorem neutral_take_add {s : List Char} {m n : Nat} (hm : Neutral (s.take m))
    (hn : Neutral ((s.drop m).take n)) : Neutral (s.take (m + n)) := by
  rw [List.take_add]
  exact hm.append hn

theorem exponent?_neutral {s : List Char} {e : Int} {n : Nat} (h : exponent? s = some (e, n)) :
    Neutral (s.take n) := by
  unfold exponent? at h
  split at h
  · next ch rest =>
    split at h
    · next hch =>
      have hmark : Neutral ((ch :: rest).take 1) := by
        rcases hch with rfl | rfl
        all_goals exact .cons (by decide) (by decide) (by simp [Neutral])
      split at h
      next signs after hsigns =>
      have hsign : Neutral (rest.take signs) ∧ rest.drop signs = after := by
        split at hsigns <;> cases hsigns
        · exact ⟨.cons (by decide) (by decide) (by simp [Neutral]), rfl⟩
        · exact ⟨.cons (by decide) (by decide) (by simp [Neutral]), rfl⟩
        · exact ⟨by simp [Neutral], rfl⟩
      dsimp only at h
      split at h
      · cases h
      · cases h
        refine neutral_take_add (neutral_take_add hmark hsign.1) ?_
        rw [Nat.add_comm 1 signs, List.drop_succ_cons, hsign.2]
        exact neutral_take_digits after
    · cases h
  · cases h

theorem literal?_neutral {s : List Char} {l : Decimal.Literal} {n : Nat}
    (h : literal? s = some (l, n)) : Neutral (s.take n) := by
  have hexp : ∀ m, Neutral (s.take m) → ∀ e k, exponent? (s.drop m) = some (e, k) →
      Neutral (s.take (m + k)) := fun m hm e k he => neutral_take_add hm (exponent?_neutral he)
  have hwhole := neutral_take_digits s
  simp only [literal?] at h
  split at h
  · next rest hrest =>
    have hfraction : Neutral (s.take ((s.takeWhile Char.isDigit).length + 1 +
        (rest.takeWhile Char.isDigit).length)) := by
      refine neutral_take_add (neutral_take_add hwhole ?_) ?_
      · rw [hrest]
        exact .cons (by decide) (by decide) (by simp [Neutral])
      · rw [← List.drop_drop, hrest]
        exact neutral_take_digits rest
    dsimp only at h
    repeat' split at h
    · cases h
    · next he =>
      cases h
      exact hexp _ hfraction _ _ he
    · cases h
      exact hfraction
  · dsimp only at h
    repeat' split at h
    · cases h
    · next he =>
      cases h
      exact hexp _ hwhole _ _ he
    · cases h
      exact hwhole

theorem number?_neutral {s : List Char} {x : Number} {n : Nat} (h : number? s = some (x, n)) :
    Neutral (s.take n) := by
  have hi : ∀ i m, integer? s = some (i, m) → Neutral (s.take m) := by
    intro i m hi
    unfold integer? at hi
    dsimp only at hi
    split at hi
    · cases hi
    · cases hi
      exact neutral_take_digits s
  have hr : ∀ y m, real? s = some (y, m) → Neutral (s.take m) := by
    intro y m hr
    obtain ⟨⟨l, k⟩, hl, hm⟩ := Option.bind_eq_some_iff.mp hr
    obtain ⟨z, -, hz⟩ := Option.map_eq_some_iff.mp hm
    cases hz
    exact literal?_neutral hl
  unfold number? at h
  split at h
  · next hi' hr' =>
    split at h <;> cases h
    · exact hr _ _ hr'
    · exact hi _ _ hi'
  · next hr' =>
    cases h
    exact hr _ _ hr'
  · next hi' _ =>
    cases h
    exact hi _ _ hi'
  · cases h

theorem name?_neutral {s : List Char} {name : String} {n : Nat} (h : name? s = some (name, n)) :
    Neutral (s.take n) := by
  cases s with
  | nil => cases h
  | cons ch rest =>
    simp only [name?] at h
    split at h
    · next word hg =>
      cases h
      have hglyph : glyphName? '[' = none ∧ glyphName? '!' = none := by decide
      refine .cons ?_ ?_ (by simp [Neutral])
      all_goals
        rintro rfl
        simp [hglyph] at hg
    · split at h
      · next hs =>
        cases h
        have htake := take_takeWhile continuesName rest
        rw [List.length_cons, List.take_succ_cons, htake]
        refine .cons ?_ ?_ (neutral_takeWhile (by decide) (by decide) rest)
        all_goals
          rintro rfl
          exact absurd hs (by decide)
      · cases h

end Token

namespace Cursor

/-- A place in the text `s`, without further lines, up to which no factorial sign stands directly
before the bracket of a subscript. -/
structure Clear (s : List Char) (c : Cursor) : Prop where
  text : c.text = s
  lines : c.lines = []
  apart : ¬['[', '!'] <:+: c.passed

/-- The last character passed is no factorial sign. -/
def Settled (c : Cursor) : Prop := c.passed.head? ≠ some '!'

theorem infix_of_append {m p : List Char} (hm : '[' ∉ m) (h : ['[', '!'] <:+: m ++ p) :
    ['[', '!'] <:+: p := by
  induction m with
  | nil => exact h
  | cons ch m ih =>
    rcases List.infix_cons_iff.mp h with h | h
    · have hch : '[' = ch := (List.cons_prefix_cons.mp h).1
      exact absurd (hch ▸ List.mem_cons_self) hm
    · exact ih (fun hc => hm (List.mem_cons_of_mem ch hc)) h

section

variable {s : List Char} {c d : Cursor}

theorem Clear.pass (h : Clear s c) {m : List Char} (hm : '[' ∉ m) (hp : d.passed = m ++ c.passed)
    (ht : d.text = c.text) (hl : d.lines = c.lines) : Clear s d :=
  ⟨ht.trans h.text, hl.trans h.lines, fun hi => h.apart (infix_of_append hm (hp ▸ hi))⟩

theorem Settled.pass {m : List Char} (h : Settled c) (hm : Neutral m)
    (hp : d.passed = m ++ c.passed) : Settled d := by
  unfold Settled
  rw [hp]
  cases m with
  | nil => exact h
  | cons ch m => simpa using (hm ch (by simp)).2

theorem Clear.noComment (h : Clear s c) (hs : '#' ∉ s) : '#' ∉ c.rest := by
  intro hc
  apply hs
  rw [← h.text]
  exact List.mem_append_right _ hc

theorem Clear.deeper (h : Clear s c) : Clear s c.deeper := ⟨h.text, h.lines, h.apart⟩

theorem Clear.shallower (h : Clear s c) : Clear s c.shallower := ⟨h.text, h.lines, h.apart⟩

theorem skipFrom_passed {passed rest : List Char} (hs : '#' ∉ rest) :
    ∃ m, (skipFrom false passed rest).1 = m ++ passed ∧ ∀ ch ∈ m, Text.isBlank ch = true := by
  induction rest generalizing passed with
  | nil => exact ⟨[], rfl, by simp⟩
  | cons ch rest ih =>
    obtain ⟨hch, hrest⟩ := not_or.mp (mt List.mem_cons.mpr hs)
    unfold skipFrom
    simp only [Bool.false_eq_true, ↓reduceIte, Ne.symm hch]
    split
    · next hb =>
      obtain ⟨m, hm, hblank⟩ := @ih (ch :: passed) hrest
      refine ⟨m ++ [ch], by simp [hm], ?_⟩
      intro c hc
      rcases List.mem_append.mp hc with hc | hc
      · exact hblank c hc
      · exact List.mem_singleton.mp hc ▸ hb
    · exact ⟨[], rfl, by simp⟩

theorem neutral_of_blank {m : List Char} (h : ∀ ch ∈ m, Text.isBlank ch = true) : Neutral m := by
  intro ch hc
  have hb := h ch hc
  constructor
  all_goals
    rintro rfl
    exact absurd hb (by decide)

theorem Clear.skipBlanks (h : Clear s c) (hs : '#' ∉ s) : Clear s c.skipBlanks := by
  obtain ⟨m, hm, hblank⟩ := @skipFrom_passed c.passed c.rest (h.noComment hs)
  exact h.pass (neutral_of_blank hblank).noBracket hm (text_skipBlanks c) rfl

theorem Settled.skipBlanks (h : Settled c) (hc : Clear s c) (hs : '#' ∉ s) :
    Settled c.skipBlanks := by
  obtain ⟨m, hm, hblank⟩ := @skipFrom_passed c.passed c.rest (hc.noComment hs)
  exact h.pass (neutral_of_blank hblank) hm

theorem Clear.fill (h : Clear s c) (hs : '#' ∉ s) : Clear s c.fill := by
  have hf : c.fill = c.skipBlanks := by
    have hl : c.skipBlanks.lines = [] := h.lines
    unfold Cursor.fill
    rw [h.lines, fillFrom, ← hl]
  exact hf ▸ h.skipBlanks hs

theorem skipBangsFrom_passed {count : Nat} {passed rest : List Char} (hs : '#' ∉ rest) :
    ∃ m, (skipBangsFrom false count passed rest).2.1 = m ++ passed ∧ '[' ∉ m ∧
      rest = m.reverse ++ (skipBangsFrom false count passed rest).2.2 := by
  induction rest generalizing count passed with
  | nil => exact ⟨[], rfl, by simp, rfl⟩
  | cons ch rest ih =>
    obtain ⟨hch, hrest⟩ := not_or.mp (mt List.mem_cons.mpr hs)
    have hpass : ch ≠ '[' → ∀ n, ∃ m,
        (skipBangsFrom false n (ch :: passed) rest).2.1 = m ++ passed ∧
        '[' ∉ m ∧ ch :: rest = m.reverse ++ (skipBangsFrom false n (ch :: passed) rest).2.2 := by
      intro hne n
      obtain ⟨m, hm, hb, ht⟩ := @ih n (ch :: passed) hrest
      refine ⟨m ++ [ch], by simp [hm], ?_, ?_⟩
      · simpa [hb] using hne.symm
      · rw [List.reverse_append, List.append_assoc, ← ht]
        rfl
    unfold skipBangsFrom
    simp only [Bool.false_eq_true, ↓reduceIte, Ne.symm hch]
    split
    · next hb =>
      refine hpass ?_ count
      rintro rfl
      exact absurd hb (by decide)
    · split
      · next hf => exact hpass (by rintro rfl; cases hf) (count + 1)
      · exact ⟨[], rfl, by simp, rfl⟩

theorem Clear.skipBangs (h : Clear s c) (hs : '#' ∉ s) : Clear s c.skipBangs.2 := by
  obtain ⟨m, hm, hb, ht⟩ := @skipBangsFrom_passed 0 c.passed c.rest (h.noComment hs)
  refine h.pass hb hm ?_ rfl
  change (skipBangsFrom false 0 c.passed c.rest).2.1.reverse ++
    (skipBangsFrom false 0 c.passed c.rest).2.2 = _
  rw [hm, List.reverse_append, List.append_assoc, ← ht]
  rfl

theorem advance_passed {ch : Char} (hp : c.peek = some ch) :
    c.advance.passed = [ch] ++ c.passed := by
  obtain ⟨rest, hr⟩ := List.head?_eq_some_iff.mp hp
  simp [advance, hr]

theorem advance_lines (c : Cursor) : c.advance.lines = c.lines := by
  unfold advance
  split <;> rfl

theorem Clear.advance (h : Clear s c) {ch : Char} (hp : c.peek = some ch) (hch : ch ≠ '[') :
    Clear s c.advance :=
  h.pass (by simpa using hch.symm) (advance_passed hp) (text_advance c) (advance_lines c)

theorem settled_advance {ch : Char} (hp : c.peek = some ch) (hch : ch ≠ '!') :
    Settled c.advance := by
  simpa [Settled, advance_passed hp] using hch

theorem Clear.advanceBy (h : Clear s c) {n : Nat} (hn : Neutral (c.rest.take n)) :
    Clear s (c.advanceBy n) :=
  h.pass (by simpa using hn.noBracket) rfl (text_advanceBy n c) rfl

theorem settled_advanceBy {n : Nat} (hn : Neutral (c.rest.take n)) (hpos : 0 < n)
    (hr : c.rest ≠ []) : Settled (c.advanceBy n) := by
  intro h
  obtain ⟨ch, hch⟩ : ∃ ch, (c.rest.take n).reverse.head? = some ch := by
    cases hr' : (c.rest.take n).reverse with
    | nil => simp [hr, Nat.pos_iff_ne_zero.mp hpos] at hr'
    | cons ch m => exact ⟨ch, rfl⟩
  have hmem : ch ∈ c.rest.take n := List.mem_reverse.mp (List.mem_of_mem_head? hch)
  have heq : (c.advanceBy n).passed.head? = some ch := by
    simp only [Cursor.advanceBy, List.head?_append, hch, Option.some_or]
  exact (hn ch hmem).2 (Option.some.inj (heq.symm.trans h))

theorem Clear.accept? (h : Clear s c) {ch : Char} (ha : c.accept? ch = some d) (hch : ch ≠ '[') :
    Clear s d := by
  obtain ⟨hp, rfl⟩ := accept?_eq_some_iff.mp ha
  exact h.advance hp hch

theorem Clear.name? (h : Clear s c) {name : String} (hn : c.name? = some (name, d)) :
    Clear s d ∧ Settled d := by
  obtain ⟨⟨word, n⟩, hw, he⟩ := Option.map_eq_some_iff.mp hn
  cases he
  obtain ⟨hr, hpos⟩ := Token.name?_pos hw
  have hm := Token.name?_neutral hw
  exact ⟨h.advanceBy hm, settled_advanceBy hm hpos hr⟩

theorem Clear.number (h : Clear s c) {x : Number} (hn : c.number = .ok (x, d)) :
    Clear s d ∧ Settled d := by
  unfold Cursor.number at hn
  split at hn
  · next hx =>
    cases hn
    have hm := Token.number?_neutral hx
    exact ⟨h.advanceBy hm, settled_advanceBy hm (Token.number?_pos hx) (Token.number?_ne_nil hx)⟩
  · cases hn

theorem Clear.binaryOp (h : Clear s c) (hs : '#' ∉ s) {t : Terminators} {o : Option Op}
    (hb : binaryOp t c = .ok (o, d)) :
    Clear s d ∧ (o = none → ∀ ch, d.peek = some ch → t.stopAt ch = true) := by
  have hf := h.fill hs
  unfold Cursor.binaryOp at hb
  dsimp only at hb
  split at hb
  · next hp =>
    split at hb <;> cases hb
    exact ⟨hf, fun _ ch hc => by simp [hp] at hc⟩
  · next ch hp =>
    split at hb
    · next ht =>
      cases hb
      exact ⟨hf, fun _ c hc => Option.some.inj (hp.symm.trans hc) ▸ ht⟩
    · split at hb
      · next op ho =>
        cases hb
        refine ⟨hf.advance hp ?_, fun hn => nomatch hn⟩
        rintro rfl
        cases ho
      · split at hb <;> cases hb
        exact ⟨hf, fun hn => nomatch hn⟩

theorem Clear.params (hs : '#' ∉ s) {fuel : Nat} {names ns : List String} (h : Clear s c)
    (hp : params fuel names c = .ok (ns, d)) : Clear s d := by
  induction fuel generalizing names c with
  | zero => cases hp
  | succ fuel ih =>
    unfold Cursor.params at hp
    split at hp
    · cases hp
    · next name e he =>
      have hfill := (h.name? he).1.fill hs
      dsimp only at hp
      split at hp
      · cases hp
      · split at hp
        · next hb =>
          cases hp
          exact hfill.accept? hb (by decide)
        · split at hp
          · cases hp
          · next hb =>
            split at hp
            · cases hp
            · exact ih ((hfill.accept? hb (by decide)).fill hs) hp

theorem Clear.closureParams (hs : '#' ∉ s) {fuel : Nat} {ns : List String} (h : Clear s c)
    (hp : closureParams fuel c = .ok (ns, d)) : Clear s d := by
  unfold Cursor.closureParams at hp
  dsimp only at hp
  split at hp
  · cases hp
  · split at hp
    · next hb =>
      cases hp
      exact (h.fill hs).accept? hb (by decide)
    · exact (h.fill hs).params hs hp

end

/-- What a part is told about where it ends, and where it may begin. -/
def Part.Guarded : Part → Cursor → Prop
  | .terms t, _ | .primary t, _ | .closure t, _ => t.stopAt '[' = false ∧ t.stopAt '!' = false
  | .group close, _ | .list close _, _ => close ≠ '[' ∧ close ≠ '!'
  | .postfixes _, c => Settled c
  | .atom, _ => True

/-- Where a part ends. -/
def Part.Ended : Part → Cursor → Prop
  | .terms t, d => ∀ ch, d.peek = some ch → t.stopAt ch = true
  | .atom, d | .group _, d | .list _ _, d => Settled d
  | _, _ => True

/-- Reading passes a bracket of a subscript only after something other than a factorial sign. -/
theorem Reads.clear {s : List Char} (hs : '#' ∉ s) {p : Part} {c d : Cursor} {found : Found}
    (h : Reads {} p c found d) : p.Guarded c → Clear s c → Clear s d ∧ p.Ended d := by
  induction h with
  | sign ha _ ih => exact fun hg hc => ih hg ((hc.fill hs).accept? ha (by decide))
  | last _ _ _ hb ih =>
    intro hg hc
    obtain ⟨he, hstop⟩ := (ih hg (hc.fill hs)).1.binaryOp hs hb
    exact ⟨he, hstop rfl⟩
  | more _ _ _ _ hb _ ih ih' =>
    intro hg hc
    exact ih' hg ((ih hg (hc.fill hs)).1.binaryOp hs hb).1
  | closed _ hbar _ ih =>
    exact fun hg hc => ⟨(ih hg (hc.advance hbar (by decide)).deeper).1, trivial⟩
  | plain _ _ _ _ ih => exact fun _ hc => ⟨(ih trivial hc).1.skipBangs hs, trivial⟩
  | followed _ _ _ _ _ ih ih' =>
    intro _ hc
    obtain ⟨hd, hset⟩ := ih trivial hc
    exact ⟨(ih' hset hd).1.skipBangs hs, trivial⟩
  | number _ _ hn => exact fun _ hc => hc.number hn
  | bracketed hp _ ih =>
    exact fun _ hc => ih ⟨by decide, by decide⟩ (hc.advance hp (by decide)).deeper
  | vector hp _ _ ih =>
    exact fun _ hc => ih ⟨by decide, by decide⟩ (hc.advance hp (by decide)).deeper
  | special _ _ _ _ hsp => cases hsp
  | name _ _ _ _ _ hn => exact fun _ hc => hc.name? hn
  | @group close _ _ _ _ _ _ _ ha ih =>
    intro hg hc
    have hd := (ih (by simpa [Part.Guarded, Terminators.stopAt] using hg) hc).1
    obtain ⟨hp, rfl⟩ := accept?_eq_some_iff.mp ha
    exact ⟨(hd.advance hp hg.1).shallower, settled_advance hp hg.2⟩
  | empty hp _ =>
    intro hg hc
    exact ⟨((hc.fill hs).advance hp hg.1).shallower, settled_advance hp hg.2⟩
  | final _ _ hp ih =>
    intro hg hc
    have hd := (ih (by simpa [Part.Guarded, Terminators.stopAt] using hg) hc).1
    exact ⟨(hd.advance hp hg.1).shallower, settled_advance hp hg.2⟩
  | @next close _ _ d _ _ _ _ _ _ hp _ ih ih' =>
    intro hg hc
    obtain ⟨hd, hstop⟩ := ih (by simpa [Part.Guarded, Terminators.stopAt] using hg) hc
    refine ih' hg ?_
    cases hpeek : d.peek with
    | none =>
      have hrest : d.rest = [] := List.head?_eq_none_iff.mp hpeek
      have hadv : d.advance = d := by simp [Cursor.advance, hrest]
      exact hadv.symm ▸ hd
    | some ch =>
      have hcomma : ch ≠ '[' := by
        rintro rfl
        have := hstop _ hpeek
        simp [Terminators.stopAt, hg.1] at this
      exact hd.advance hpeek hcomma
  | closure hn _ _ ih =>
    intro hg hc
    have hd := hc.closureParams hs (hn _ (Nat.lt_succ_self _))
    exact ⟨(ih hg hd.shallower).1, trivial⟩
  | call hp _ _ ih ih' =>
    intro _ hc
    obtain ⟨hd, hset⟩ :=
      ih ⟨by decide, by decide⟩ ((hc.skipBlanks hs).advance hp (by decide)).deeper
    exact ih' hset hd
  | @subscript _ c _ _ _ _ hp _ _ ih ih' =>
    intro hg hc
    have hset := Settled.skipBlanks hg hc hs
    have hopen : Clear s c.skipBlanks.advance := by
      refine ⟨(text_advance _).trans (text_skipBlanks c |>.trans hc.text), ?_, ?_⟩
      · rw [advance_lines]
        exact hc.lines
      · rw [advance_passed hp]
        intro hi
        rcases List.infix_cons_iff.mp hi with hi | hi
        · obtain ⟨u, hu⟩ := (List.cons_prefix_cons.mp hi).2
          exact hset (congrArg List.head? hu).symm
        · exact (hc.skipBlanks hs).apart hi
    obtain ⟨hd, hset'⟩ := ih ⟨by decide, by decide⟩ hopen.deeper
    exact ih' hset' hd
  | done => exact fun _ hc => ⟨hc.skipBlanks hs, trivial⟩

end Cursor

/-- In text that is read as an expression no subscript follows a factorial sign directly. -/
theorem Reading.parse_apart {src : String} (hs : '#' ∉ src.toList) {v : Value} {n : Nat}
    (h : Reading.parse {} src = .ok ⟨v, n⟩) : ¬['!', '['] <:+: src.toList := by
  obtain ⟨ss, d, hr, -, -⟩ := Reading.parse_eq_ok_iff.mp h
  have hstart : Cursor.Clear src.toList (.atStart src.toList []) :=
    ⟨rfl, rfl, by simp [Cursor.atStart]⟩
  obtain ⟨hd, hend⟩ := hr.clear hs ⟨rfl, rfl⟩ hstart
  have hpeek : d.peek = none := by
    cases hp : d.peek with
    | none => rfl
    | some ch => cases hend ch hp
  have hrest : d.rest = [] := List.head?_eq_none_iff.mp hpeek
  have htext : d.passed.reverse = src.toList := by simpa [Cursor.text, hrest] using hd.text
  intro hi
  apply hd.apart
  rw [← List.reverse_infix, htext]
  exact hi

end Reckon
