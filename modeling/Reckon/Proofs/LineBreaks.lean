import Reckon.Proofs.OneText

namespace Reckon

namespace Cursor

/-- The signs with which a part goes on where it might end. -/
def Part.signs : Part → List Char
  | .primary _ => ['!']
  | .postfixes _ => ['(', '[']
  | _ => []

/-- The part is taken to end with the text, though the lines that follow go on with it. -/
def Severed (r : Reading) (p : Part) (c : Cursor) : Prop :=
  ∃ found d ch, Reads r p c found d ∧ d.atEnd = true ∧ d.fill.peek = some ch ∧ ch ∈ p.signs

/-- Somewhere in a part, be it read to its end or not, a part is severed. -/
inductive Torn (r : Reading) : Part → Cursor → Prop
  | here {p c} : Severed r p c → Torn r p c
  | sign {t c d} : c.fill.accept? '-' = some d → Torn r (.terms t) d → Torn r (.terms t) c
  | operand {t c} : c.fill.atEnd = false → c.fill.accept? '-' = none →
      Torn r (.primary t) c.fill → Torn r (.terms t) c
  | more {t c d e v op} : c.fill.atEnd = false → c.fill.accept? '-' = none →
      Reads r (.primary t) c.fill (.value v) d → binaryOp t d = .ok (some op, e) →
      Torn r (.terms t) e → Torn r (.terms t) c
  | closed {t c} : c.peek.any t.stopAt = false → c.peek = some '|' →
      Torn r (.closure t) c.advance.deeper → Torn r (.primary t) c
  | atom {t c} : c.peek.any t.stopAt = false → c.peek ≠ some '|' → Torn r .atom c →
      Torn r (.primary t) c
  | followed {t c d v} : c.peek.any t.stopAt = false → c.peek ≠ some '|' →
      Reads r .atom c (.value v) d → takesPostfix v = true → Torn r (.postfixes v) d →
      Torn r (.primary t) c
  | bracketed {c} : c.peek = some '(' → Torn r (.group ')') c.advance.deeper → Torn r .atom c
  | vector {c} : c.peek = some '<' → Torn r (.list '>' true) c.advance.deeper → Torn r .atom c
  | group {close c} : Torn r (.terms ⟨none, some close⟩) c → Torn r (.group close) c
  | item {close first c} : Torn r (.terms ⟨some ',', some close⟩) c → Torn r (.list close first) c
  | next {close first c d ss} : Reads r (.terms ⟨some ',', some close⟩) c (.symbols ss) d →
      d.peek ≠ some close → Torn r (.list close false) d.advance → Torn r (.list close first) c
  | body {t c d names fuel} : closureParams fuel c = .ok (names, d) →
      Torn r (.terms t) d.shallower → Torn r (.closure t) c
  | args {v c} : c.skipBlanks.peek = some '(' →
      Torn r (.list ')' true) c.skipBlanks.advance.deeper → Torn r (.postfixes v) c
  | called {v c d args} : c.skipBlanks.peek = some '(' →
      Reads r (.list ')' true) c.skipBlanks.advance.deeper (.values args) d →
      Torn r (.postfixes (.call v args false)) d → Torn r (.postfixes v) c
  | index {v c} : c.skipBlanks.peek = some '[' →
      Torn r (.group ']') c.skipBlanks.advance.deeper → Torn r (.postfixes v) c
  | indexed {v c d i} : c.skipBlanks.peek = some '[' →
      Reads r (.group ']') c.skipBlanks.advance.deeper (.value i) d →
      Torn r (.postfixes (.subscript v i)) d → Torn r (.postfixes v) c

/-- What is left does not depend on what was passed. -/
theorem skipFrom_rest (comment : Bool) (passed passed' s : List Char) :
    (skipFrom comment passed s).2 = (skipFrom comment passed' s).2 := by
  induction s generalizing comment passed passed' with
  | nil => rfl
  | cons ch s ih =>
    simp only [skipFrom]
    split
    · exact ih _ _ _
    · split
      · exact ih _ _ _
      · split
        · exact ih _ _ _
        · rfl

/-- The first character of a line that is not in a blank or a comment. -/
def firstSign (line : List Char) : Option Char := (skipFrom false [] line).2.head?

/-- What lines bring in is the first sign of one of them. -/
theorem line_of_peek_fill {c : Cursor} {ch : Char} (hc : c.skipBlanks.rest = [])
    (h : c.fill.peek = some ch) : ∃ line ∈ c.lines, firstSign line = some ch := by
  induction hl : c.lines generalizing c with
  | nil =>
    rw [fill_settled fun _ => .inr hl, peek, hc] at h
    cases h
  | cons line lines ih =>
    have hd : c.depth ≠ 0 := by
      intro hd
      rw [fill_settled fun _ => .inl hd, peek, hc] at h
      cases h
    rw [fill_broughtOn hc hd hl] at h
    by_cases hnext : (c.broughtOn line lines).skipBlanks.rest = []
    · obtain ⟨found, hfound, hsign⟩ := ih hnext h rfl
      exact ⟨found, List.mem_cons_of_mem line hfound, hsign⟩
    · rw [fill_settled fun he => absurd he hnext] at h
      have hblank : Text.isBlank '\n' = true := by decide
      have hrest : (c.broughtOn line lines).skipBlanks.rest = (skipFrom false [] line).2 := by
        simp only [broughtOn, skipBlanks, skipFrom, hblank]
        exact skipFrom_rest _ _ _ _
      exact ⟨line, List.mem_cons_self, by rw [firstSign, ← hrest]; exact h⟩

/-- Only a line that begins with a sign of an operand can be torn from one. -/
theorem Torn.line {r : Reading} (hr : r.specials = []) {p : Part} {c : Cursor} (h : Torn r p c) :
    ∃ line ∈ c.lines, ∃ ch ∈ ['!', '(', '['], firstSign line = some ch := by
  have hlater : ∀ {c d : Cursor}, c.Later d →
      (∃ line ∈ d.lines, ∃ ch ∈ ['!', '(', '['], firstSign line = some ch) →
      ∃ line ∈ c.lines, ∃ ch ∈ ['!', '(', '['], firstSign line = some ch := by
    rintro c d hd ⟨line, hline, hsign⟩
    exact ⟨line, hd.lines_suffix.subset hline, hsign⟩
  induction h with
  | @here p c h =>
    obtain ⟨found, d, ch, hreads, hend, hpeek, hch⟩ := h
    refine hlater (hreads.later hr) ?_
    have hrest : d.skipBlanks.rest = [] := by
      simp [skipBlanks, skipFrom, List.isEmpty_iff.mp hend]
    obtain ⟨line, hline, hsign⟩ := line_of_peek_fill hrest hpeek
    refine ⟨line, hline, ch, ?_, hsign⟩
    cases p <;> simp [Part.signs] at hch ⊢ <;> tauto
  | @sign _ c _ ha _ ih => exact hlater ((later_fill c).trans (later_accept? ha)) ih
  | @operand _ c _ _ _ ih => exact hlater (later_fill c) ih
  | @more _ c _ _ _ _ _ _ hp hb _ ih =>
    exact hlater ((later_fill c).trans ((hp.later hr).trans (later_binaryOp hb))) ih
  | closed _ hp _ ih => exact hlater (later_inside hp) ih
  | atom _ _ _ ih | group _ ih | item _ ih => exact ih
  | followed _ _ ha _ _ ih => exact hlater (ha.later hr) ih
  | bracketed hp _ ih | vector hp _ ih => exact hlater (later_inside hp) ih
  | @next _ _ _ d _ hs _ _ ih => exact hlater ((hs.later hr).trans (later_advance d)) ih
  | @body _ c d _ fuel hn _ ih =>
    have hends := closureParams_endsAfter fuel c
    rw [hn] at hends
    exact hlater ((later_fill c).trans (hends.trans (later_shallower d))) ih
  | @args _ c hp _ ih | @index _ c hp _ ih =>
    exact hlater ((later_skipBlanks c).trans (later_inside hp)) ih
  | @called _ c _ _ hp ha _ ih =>
    exact hlater ((later_skipBlanks c).trans ((later_inside hp).trans (ha.later hr))) ih
  | @indexed _ c _ _ hp hi _ ih =>
    exact hlater ((later_skipBlanks c).trans ((later_inside hp).trans (hi.later hr))) ih

end Cursor

end Reckon
