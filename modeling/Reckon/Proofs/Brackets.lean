import Reckon.Proofs.LineBreaks
import Reckon.Proofs.Restated

/-!
A text in brackets, with a line break before the closing one. It is read there as it is read by
itself: whatever runs to the end of the text, be it a function or a comment, ends at the bracket.
Main statement: `Reading.parse_bracketed`.
-/

namespace Reckon

namespace Cursor

/-- What stands around an expression: nothing, or brackets with text after them. -/
inductive Frame where
  | bare
  | brackets (after : List Char)

namespace Frame

def depth : Frame → Nat
  | .bare => 0
  | .brackets _ => 1

def tail : Frame → List Char
  | .bare => []
  | .brackets after => '\n' :: ')' :: after

/-- What follows the expression when blanks have been passed. -/
def next : Frame → List Char
  | .bare => []
  | .brackets after => ')' :: after

/-- The character that ends the expression, besides the end of the text. -/
def close? : Frame → Option Char
  | .bare => none
  | .brackets _ => some ')'

theorem breaksOff_tail (f : Frame) : BreaksOff f.tail := by
  cases f with
  | bare => exact .inl rfl
  | brackets after => exact .inr ⟨_, rfl⟩

theorem skipFrom_tail (f : Frame) (p : List Char) : (skipFrom false p f.tail).2 = f.next := by
  cases f with
  | bare => rfl
  | brackets after =>
    have hbreak : Text.isBlank '\n' = true := by decide
    have hclose : Text.isBlank ')' = false := by decide
    simp [tail, next, skipFrom, hbreak, hclose]

theorem skipFrom_next (f : Frame) (p : List Char) : skipFrom false p f.next = (p, f.next) := by
  cases f with
  | bare => rfl
  | brackets after =>
    have hclose : Text.isBlank ')' = false := by decide
    simp [next, skipFrom, hclose]

theorem head?_next (f : Frame) : f.next.head? = f.close? := by
  cases f with
  | bare => rfl
  | brackets after => rfl

theorem close?_eq {f : Frame} {ch : Char} (h : f.close? = some ch) : ch = ')' := by
  cases f with
  | bare => cases h
  | brackets after =>
    cases h
    rfl

end Frame

end Cursor

/-- What ends an expression in a frame: the bracket of the frame, unless it has one of its own. -/
def Terminators.within (f : Cursor.Frame) (t : Terminators) : Terminators :=
  { t with close := t.close.or f.close? }

namespace Cursor

open Grammar

variable {f : Frame} {k : Nat} {c d e : Cursor} {t : Terminators} {ch : Char}

theorem stopAt_within_of_stopAt (f : Frame) (h : t.stopAt ch = true) :
    (t.within f).stopAt ch = true := by
  obtain ⟨separator, close⟩ := t
  cases close with
  | none =>
    have hs : separator = some ch := by simpa [Terminators.stopAt] using h
    simp [Terminators.stopAt, Terminators.within, hs]
  | some b => exact h

theorem stopAt_within (f : Frame) (hne : ch ≠ ')') (h : t.stopAt ch = false) :
    (t.within f).stopAt ch = false := by
  obtain ⟨separator, close⟩ := t
  cases close with
  | none =>
    have hs : separator ≠ some ch := by simpa [Terminators.stopAt] using h
    have hclose : f.close? ≠ some ch := fun hc => hne (Frame.close?_eq hc)
    simp [Terminators.stopAt, Terminators.within, hs, hclose]
  | some b => exact h

/-- A place in a text, with `k` brackets open, and the same place in the text in a frame. At the end
of the text the line break of the frame may have been passed. -/
inductive Beside (f : Frame) (k : Nat) : Cursor → Cursor → Prop
  | text (p q s) : Beside f k (before p s k) (before q (s ++ f.tail) (k + f.depth))
  | ended (p q) : Beside f k (before p [] k) (before q f.next (k + f.depth))

theorem exists_peek (hend : c.atEnd = false) : ∃ ch, c.peek = some ch := by
  unfold atEnd at hend
  unfold peek
  cases hr : c.rest with
  | nil => simp [hr] at hend
  | cons ch s => exact ⟨ch, rfl⟩

/-- How many factorial signs are passed does not depend on what was passed before. -/
theorem skipBangsFrom_rest (comment : Bool) (count : Nat) (p q s : List Char) :
    (skipBangsFrom comment count p s).1 = (skipBangsFrom comment count q s).1 ∧
      (skipBangsFrom comment count p s).2.2 = (skipBangsFrom comment count q s).2.2 := by
  induction s generalizing comment count p q with
  | nil => exact ⟨rfl, rfl⟩
  | cons ch s ih =>
    simp only [skipBangsFrom]
    split
    · exact ih ..
    · split
      · exact ih ..
      · split
        · exact ih ..
        · split
          · exact ih ..
          · exact ⟨rfl, rfl⟩

/-- In a frame the same factorial signs are passed, and the line break of the frame if the text
ends. -/
theorem skipBangsFrom_tail (f : Frame) (p q s : List Char) :
    (skipBangsFrom false 0 q (s ++ f.tail)).1 = (skipBangsFrom false 0 p s).1 ∧
      (skipBangsFrom false 0 q (s ++ f.tail)).2.2 =
        if (skipBangsFrom false 0 p s).2.2 = [] then f.next
        else (skipBangsFrom false 0 p s).2.2 ++ f.tail := by
  have hnone : f.next.head? ≠ some '!' := by
    rw [f.head?_next]
    exact fun hclose => absurd (Frame.close?_eq hclose) (by decide)
  have htail : ∀ n passed,
      skipBangsFrom false n passed f.tail = (n, skipFrom false passed f.tail) := by
    intro n passed
    exact skipBangsFrom_of_blanks n (by rwa [f.skipFrom_tail])
  obtain ⟨hcount, hrest⟩ := skipBangsFrom_rest false 0 p q s
  rw [skipBangsFrom_append f.breaksOff_tail, hcount, hrest]
  dsimp only
  split
  · rw [htail, f.skipFrom_tail]
    exact ⟨rfl, rfl⟩
  · exact ⟨rfl, rfl⟩

namespace Beside

variable (h : Beside f k c d)
include h

theorem depth_eq : c.depth = k ∧ d.depth = k + f.depth := by
  cases h with
  | text p q s => exact ⟨rfl, rfl⟩
  | ended p q => exact ⟨rfl, rfl⟩

/-- Where the text goes on, it is the same in the frame. -/
theorem head (hp : c.peek = some ch) :
    ∃ p q s, c = before p (ch :: s) k ∧ d = before q (ch :: (s ++ f.tail)) (k + f.depth) := by
  cases h with
  | text p q s =>
    obtain ⟨s, rfl⟩ := List.head?_eq_some_iff.mp hp
    exact ⟨p, q, s, rfl, rfl⟩
  | ended => cases hp

theorem peek (hp : c.peek = some ch) : d.peek = some ch := by
  obtain ⟨p, q, s, -, rfl⟩ := h.head hp
  rfl

theorem advance (hp : c.peek = some ch) : Beside f k c.advance d.advance := by
  obtain ⟨p, q, s, rfl, rfl⟩ := h.head hp
  exact .text _ _ s

theorem deeper : Beside f (k + 1) c.deeper d.deeper := by
  have hdepth : k + f.depth + 1 = k + 1 + f.depth := Nat.add_right_comm ..
  cases h with
  | text p q s =>
    rw [deeper_before, deeper_before, hdepth]
    exact .text p q s
  | ended p q =>
    rw [deeper_before, deeper_before, hdepth]
    exact .ended p q

theorem shallower (hk : 0 < k) : Beside f (k - 1) c.shallower d.shallower := by
  obtain ⟨j, rfl⟩ := Nat.exists_eq_add_one.mpr hk
  have hdepth : j + 1 + f.depth = j + f.depth + 1 := Nat.add_right_comm ..
  cases h with
  | text p q s =>
    rw [hdepth, shallower_before, shallower_before]
    exact .text p q s
  | ended p q =>
    rw [hdepth, shallower_before, shallower_before]
    exact .ended p q

theorem accept? (ha : c.accept? ch = some e) : ∃ e', d.accept? ch = some e' ∧ Beside f k e e' := by
  unfold Cursor.accept? at ha ⊢
  split at ha
  · next hp =>
    cases ha
    exact ⟨d.advance, if_pos (h.peek hp), h.advance hp⟩
  · cases ha

theorem atEnd_eq (hend : c.atEnd = false) : d.atEnd = false := by
  obtain ⟨ch, hp⟩ := exists_peek hend
  obtain ⟨p, q, s, -, rfl⟩ := h.head hp
  rfl

theorem accept?_eq_none (hend : c.atEnd = false) (ha : c.accept? ch = none) :
    d.accept? ch = none := by
  obtain ⟨b, hp⟩ := exists_peek hend
  simp only [Cursor.accept?, hp, h.peek hp] at ha ⊢
  split at ha
  · cases ha
  · next hne => exact if_neg hne

theorem size_advance (hend : c.atEnd = true) : c.advance.size = 0 := by
  cases h with
  | text p q s =>
    obtain rfl : s = [] := List.isEmpty_iff.mp hend
    rfl
  | ended p q => rfl

/-- Passing blanks leads to the same place, past the line break of the frame if the text ends. -/
theorem skipBlanks : Beside f k c.skipBlanks d.skipBlanks ∧
    (c.skipBlanks.rest = [] → d.skipBlanks.rest = f.next) := by
  cases h with
  | text p q s =>
    have hrest := skipFrom_rest false p q s
    have happend := skipFrom_append f.breaksOff_tail false q s
    simp only [Cursor.skipBlanks, before]
    rw [happend, hrest]
    cases hs : (skipFrom false q s).2 with
    | nil =>
      simp only [↓reduceIte, f.skipFrom_tail]
      exact ⟨.ended _ _, fun _ => trivial⟩
    | cons ch s' => exact ⟨.text _ _ (ch :: s'), fun hnil => absurd hnil (List.cons_ne_nil ch s')⟩
  | ended p q =>
    simp only [Cursor.skipBlanks, before, f.skipFrom_next]
    exact ⟨.ended p q, fun _ => trivial⟩

theorem fill : Beside f k c.fill d.fill ∧ (c.fill.rest = [] → d.fill.rest = f.next) := by
  have hskip := h.skipBlanks
  cases h with
  | text p q s => exact hskip
  | ended p q => exact hskip

/-- A sign that does not come next by itself does not come next in the frame, unless it closes the
frame. -/
theorem peek_skipBlanks_ne (hp : c.skipBlanks.peek ≠ some ch) (hne : ch ≠ ')') :
    d.skipBlanks.peek ≠ some ch := by
  obtain ⟨hskip, hnext⟩ := h.skipBlanks
  cases hc : c.skipBlanks.peek with
  | none =>
    rw [Cursor.peek, hnext (List.head?_eq_none_iff.mp hc), f.head?_next]
    exact fun hclose => hne (Frame.close?_eq hclose)
  | some b =>
    rw [hskip.peek hc, ← hc]
    exact hp

theorem not_stopped (hp : c.peek = some ch) (hne : ch ≠ ')')
    (hstop : c.peek.any t.stopAt = false) : d.peek.any (t.within f).stopAt = false := by
  rw [hp] at hstop
  rw [h.peek hp]
  exact stopAt_within f hne hstop

/-- The same factorial signs are passed. -/
theorem factorials (v : Value) : (Cursor.factorials v d).1 = (Cursor.factorials v c).1 ∧
    Beside f k (Cursor.factorials v c).2 (Cursor.factorials v d).2 := by
  cases h with
  | text p q s =>
    obtain ⟨hcount, hrest⟩ := skipBangsFrom_tail f p q s
    simp only [Cursor.factorials, skipBangs, before]
    rw [hcount, hrest]
    cases hs : (skipBangsFrom false 0 p s).2.2 with
    | nil => exact ⟨rfl, .ended _ _⟩
    | cons ch s' => exact ⟨rfl, .text _ _ (ch :: s')⟩
  | ended p q =>
    cases f with
    | bare => exact ⟨rfl, .ended p q⟩
    | brackets after =>
      have hclose : Text.isBlank ')' = false := by decide
      simp only [Cursor.factorials, skipBangs, before, Frame.next, skipBangsFrom, hclose]
      exact ⟨rfl, .ended p q⟩

/-- A token at the head of the text is the same in the frame. -/
theorem token {α : Type} {find : List Char → Option (α × Nat)} {a : α} {n : Nat}
    (hle : ∀ {s a n}, find s = some (a, n) → n ≤ s.length)
    (happart : ∀ {t}, Token.Apart t → ∀ s, find (s ++ t) = find s) (hempty : find [] = none)
    (hfind : find c.rest = some (a, n)) :
    find d.rest = some (a, n) ∧ Beside f k (c.advanceBy n) (d.advanceBy n) := by
  cases h with
  | text p q s =>
    have hn : n ≤ s.length := hle hfind
    refine ⟨(happart f.breaksOff_tail.apart s).trans hfind, ?_⟩
    simp only [advanceBy, before, List.take_append_of_le_length hn,
      List.drop_append_of_le_length hn]
    exact .text _ _ (s.drop n)
  | ended p q =>
    rw [rest_before, hempty] at hfind
    cases hfind

theorem name? {name : String} (hn : c.name? = some (name, e)) :
    ∃ e', d.name? = some (name, e') ∧ Beside f k e e' := by
  obtain ⟨⟨word, n⟩, hfind, he⟩ := Option.map_eq_some_iff.mp hn
  cases he
  obtain ⟨hfind, hplace⟩ := h.token Token.name?_le Token.name?_apart rfl hfind
  refine ⟨d.advanceBy n, ?_, hplace⟩
  simp [Cursor.name?, hfind]

theorem number {x : Number} (hn : c.number = .ok (x, e)) :
    ∃ e', d.number = .ok (x, e') ∧ Beside f k e e' := by
  unfold Cursor.number at hn
  split at hn
  · next y n hfind =>
    cases hn
    obtain ⟨hfind, hplace⟩ := h.token Token.number?_le Token.number?_apart rfl hfind
    refine ⟨d.advanceBy n, ?_, hplace⟩
    simp [Cursor.number, hfind]
  · cases hn

/-- The same operator comes next, and the frame ends the expression where the text did. -/
theorem binaryOp {op : Option Op} (hk : t.close ≠ none → 0 < k)
    (hb : Cursor.binaryOp t c = .ok (op, e)) :
    ∃ e', Cursor.binaryOp (t.within f) d = .ok (op, e') ∧ Beside f k e e' := by
  obtain ⟨hfill, hnext⟩ := h.fill
  unfold Cursor.binaryOp at hb ⊢
  dsimp only at hb ⊢
  cases hp : c.fill.peek with
  | none =>
    simp only [hp] at hb
    split at hb
    · cases hb
    · next hdepth =>
      cases hb
      obtain ⟨hleft, hright⟩ := hfill.depth_eq
      rw [hleft] at hdepth
      have hclose : t.close = none := by
        by_contra hne
        exact hdepth (hk hne)
      have hpeek : d.fill.peek = f.close? := by
        rw [Cursor.peek, hnext (List.head?_eq_none_iff.mp hp), f.head?_next]
      refine ⟨d.fill, ?_, hfill⟩
      cases f with
      | bare =>
        rw [hpeek]
        exact if_neg (by rwa [hright])
      | brackets after =>
        have hstop : (t.within (.brackets after)).stopAt ')' = true := by
          simp [Terminators.stopAt, Terminators.within, Frame.close?, hclose]
        rw [hpeek]
        exact if_pos hstop
  | some ch =>
    simp only [hp] at hb
    rw [hfill.peek hp]
    dsimp only
    split at hb
    · next hstop =>
      cases hb
      rw [if_pos (stopAt_within_of_stopAt f hstop)]
      exact ⟨_, rfl, hfill⟩
    · next hstop =>
      have hgo : ch ≠ ')' → (t.within f).stopAt ch = false := fun hne =>
        stopAt_within f hne (by simpa using hstop)
      split at hb
      · next op hop =>
        cases hb
        have hne : ch ≠ ')' := by
          rintro rfl
          cases hop
        simp only [hgo hne]
        exact ⟨_, rfl, hfill.advance hp⟩
      · next hop =>
        split at hb
        · next hbegins =>
          cases hb
          have hne : ch ≠ ')' := by
            rintro rfl
            exact absurd hbegins (by decide)
          simp only [hgo hne, hbegins]
          exact ⟨_, rfl, hfill⟩
        · cases hb

omit h in
theorem params {n : Nat} {names ns : List String} (h : Beside f k c d)
    (hn : Cursor.params n names c = .ok (ns, e)) :
    ∃ e', Cursor.params n names d = .ok (ns, e') ∧ Beside f k e e' := by
  induction n generalizing names c d with
  | zero => cases hn
  | succ n ih =>
    unfold Cursor.params at hn ⊢
    cases hname : c.name? with
    | none => simp [hname] at hn
    | some p =>
      obtain ⟨name, c'⟩ := p
      obtain ⟨d', hname', h'⟩ := h.name? hname
      obtain ⟨hfill, -⟩ := h'.fill
      simp only [hname, hname'] at hn ⊢
      cases hend : c'.fill.atEnd with
      | true => simp [hend] at hn
      | false =>
        simp only [hend, hfill.atEnd_eq hend, Bool.false_eq_true, ↓reduceIte] at hn ⊢
        cases hbar : c'.fill.accept? '|' with
        | some a =>
          obtain ⟨b, hb, hplace⟩ := hfill.accept? hbar
          simp only [hbar, hb] at hn ⊢
          cases hn
          exact ⟨b, rfl, hplace⟩
        | none =>
          cases hcomma : c'.fill.accept? ',' with
          | none => simp [hbar, hcomma] at hn
          | some a =>
            obtain ⟨b, hb, hplace⟩ := hfill.accept? hcomma
            obtain ⟨hfill', -⟩ := hplace.fill
            simp only [hbar, hcomma, hfill.accept?_eq_none hend hbar, hb] at hn ⊢
            cases hend' : a.fill.atEnd with
            | true => simp [hend'] at hn
            | false =>
              simp only [hend', hfill'.atEnd_eq hend', Bool.false_eq_true, ↓reduceIte] at hn ⊢
              exact ih hfill' hn

theorem closureParams {n : Nat} {ns : List String} (hn : Cursor.closureParams n c = .ok (ns, e)) :
    ∃ e', Cursor.closureParams n d = .ok (ns, e') ∧ Beside f k e e' := by
  obtain ⟨hfill, -⟩ := h.fill
  unfold Cursor.closureParams at hn ⊢
  dsimp only at hn ⊢
  cases hend : c.fill.atEnd with
  | true => simp [hend] at hn
  | false =>
    simp only [hend, hfill.atEnd_eq hend, Bool.false_eq_true, ↓reduceIte] at hn ⊢
    cases hbar : c.fill.accept? '|' with
    | some a =>
      obtain ⟨b, hb, hplace⟩ := hfill.accept? hbar
      simp only [hbar, hb] at hn ⊢
      cases hn
      exact ⟨b, rfl, hplace⟩
    | none =>
      simp only [hbar, hfill.accept?_eq_none hend hbar] at hn ⊢
      exact hfill.params hn

end Beside

/-- A part of an expression in a frame. -/
def Part.within (f : Frame) : Part → Part
  | .terms t => .terms (t.within f)
  | .primary t => .primary (t.within f)
  | .closure t => .closure (t.within f)
  | p => p

/-- Whether a part may stand where `k` brackets are open: what ends at a bracket stands in one. -/
def Part.Nested (k : Nat) : Part → Prop
  | .terms t | .primary t => t.close ≠ none → 0 < k
  | .group _ | .list _ _ => 0 < k
  | .closure t => 0 < k ∧ (t.close ≠ none → 1 < k)
  | .atom | .postfixes _ => True

/-- How many brackets of `k` are open after a part. -/
def Part.left (k : Nat) : Part → Nat
  | .group _ | .list _ _ | .closure _ => k - 1
  | _ => k

/-- An atom does not begin with the bracket of a frame. -/
theorem Reads.atom_peek {v : Value} (h : Reads {} .atom c (.value v) e) :
    ∃ ch, c.peek = some ch ∧ ch ≠ ')' := by
  obtain ⟨ch, hp, hopens⟩ := h.atom_opens
  refine ⟨ch, hp, ?_⟩
  rintro rfl
  exact absurd hopens (by decide)

/-- A part is read in a frame as it is read without. -/
theorem Reads.within {p : Part} {found : Found} (h : Reads {} p c found e) (hp : p.Nested k)
    (hcd : Beside f k c d) :
    ∃ e', Reads {} (p.within f) d found e' ∧ Beside f (p.left k) e e' := by
  induction h generalizing k d with
  | sign ha _ ih =>
    obtain ⟨b, hb, hplace⟩ := hcd.fill.1.accept? ha
    obtain ⟨e', hread, he⟩ := ih hp hplace
    exact ⟨e', .sign hb hread, he⟩
  | last hend ha _ hb ih =>
    obtain ⟨hfill, -⟩ := hcd.fill
    obtain ⟨b, hread, hplace⟩ := ih hp hfill
    obtain ⟨e', hb', he⟩ := hplace.binaryOp hp hb
    exact ⟨e', .last (hfill.atEnd_eq hend) (hfill.accept?_eq_none hend ha) hread hb', he⟩
  | more op hend ha _ hb _ ih ih' =>
    obtain ⟨hfill, -⟩ := hcd.fill
    obtain ⟨b, hread, hplace⟩ := ih hp hfill
    obtain ⟨b', hb', hplace'⟩ := hplace.binaryOp hp hb
    obtain ⟨e', hread', he⟩ := ih' hp hplace'
    exact ⟨e', .more op (hfill.atEnd_eq hend) (hfill.accept?_eq_none hend ha) hread hb' hread', he⟩
  | closed hstop hbar _ ih =>
    obtain ⟨e', hread, he⟩ := ih ⟨by omega, fun hne => Nat.succ_lt_succ (hp hne)⟩
      (hcd.advance hbar).deeper
    exact ⟨e', .closed (hcd.not_stopped hbar (by decide) hstop) (hcd.peek hbar) hread, he⟩
  | @plain t c e v hstop hbar hatom htakes ih =>
    obtain ⟨ch, hpeek, hne⟩ := hatom.atom_peek
    obtain ⟨b, hread, hplace⟩ := ih trivial hcd
    obtain ⟨hvalue, he⟩ := hplace.factorials v
    refine ⟨_, ?_, he⟩
    rw [← hvalue]
    have hbar' : d.peek ≠ some '|' := by rwa [hcd.peek hpeek, ← hpeek]
    exact .plain (hcd.not_stopped hpeek hne hstop) hbar' hread htakes
  | @followed t c a e v w hstop hbar hatom htakes _ ih ih' =>
    obtain ⟨ch, hpeek, hne⟩ := hatom.atom_peek
    obtain ⟨b, hread, hplace⟩ := ih trivial hcd
    obtain ⟨b', hread', hplace'⟩ := ih' trivial hplace
    obtain ⟨hvalue, he⟩ := hplace'.factorials w
    refine ⟨_, ?_, he⟩
    rw [← hvalue]
    have hbar' : d.peek ≠ some '|' := by rwa [hcd.peek hpeek, ← hpeek]
    exact .followed (hcd.not_stopped hpeek hne hstop) hbar' hread htakes hread'
  | number hpeek hch hn =>
    obtain ⟨e', hn', he⟩ := hcd.number hn
    exact ⟨e', .number (hcd.peek hpeek) hch hn', he⟩
  | bracketed hpeek _ ih =>
    obtain ⟨e', hread, he⟩ := ih (Nat.succ_pos k) (hcd.advance hpeek).deeper
    exact ⟨e', .bracketed (hcd.peek hpeek) hread, he⟩
  | vector hpeek _ hlen ih =>
    obtain ⟨e', hread, he⟩ := ih (Nat.succ_pos k) (hcd.advance hpeek).deeper
    exact ⟨e', .vector (hcd.peek hpeek) hread hlen, he⟩
  | special _ _ _ _ hs => cases hs
  | name hpeek hdigit hgroup hvector hs hn =>
    obtain ⟨e', hn', he⟩ := hcd.name? hn
    exact ⟨e', .name (hcd.peek hpeek) hdigit hgroup hvector hs hn', he⟩
  | group _ hv ha ih =>
    obtain ⟨b, hread, hplace⟩ := ih (fun _ => hp) hcd
    obtain ⟨b', ha', hplace'⟩ := hplace.accept? ha
    exact ⟨b'.shallower, .group hread hv ha', hplace'.shallower hp⟩
  | empty hpeek hne =>
    obtain ⟨hfill, -⟩ := hcd.fill
    exact ⟨_, .empty (hfill.peek hpeek) hne, (hfill.advance hpeek).shallower hp⟩
  | final _ hv hpeek ih =>
    obtain ⟨b, hread, hplace⟩ := ih (fun _ => hp) hcd
    exact ⟨_, .final hread hv (hplace.peek hpeek), (hplace.advance hpeek).shallower hp⟩
  | @next close first c a e ss v vs _ hv hpeek hlist ih ih' =>
    obtain ⟨b, hread, hplace⟩ := ih (fun _ => hp) hcd
    -- A list that goes on does not go on at the end of the text.
    have hmore : a.atEnd = false := by
      cases hend : a.atEnd with
      | false => rfl
      | true =>
        have hsize := hlist.size
        rw [hplace.size_advance hend] at hsize
        cases hsize
    obtain ⟨ch, hch⟩ := exists_peek hmore
    obtain ⟨e', hread', he⟩ := ih' hp (hplace.advance hch)
    have hpeek' : b.peek ≠ some close := by rwa [hplace.peek hch, ← hch]
    exact ⟨e', .next hread hv hpeek' hread', he⟩
  | closure hn _ hv ih =>
    obtain ⟨b, hb, hplace⟩ := hcd.closureParams (hn _ (Nat.lt_succ_self _))
    obtain ⟨e', hread, he⟩ := ih (fun hne => Nat.sub_pos_of_lt (hp.2 hne)) (hplace.shallower hp.1)
    exact ⟨e', .closure (fun n => closureParams_fuel hb) hread hv, he⟩
  | call hpeek _ _ ih ih' =>
    obtain ⟨hskip, -⟩ := hcd.skipBlanks
    obtain ⟨b, hread, hplace⟩ := ih (Nat.succ_pos k) (hskip.advance hpeek).deeper
    obtain ⟨e', hread', he⟩ := ih' trivial hplace
    exact ⟨e', .call (hskip.peek hpeek) hread hread', he⟩
  | subscript hpeek _ _ ih ih' =>
    obtain ⟨hskip, -⟩ := hcd.skipBlanks
    obtain ⟨b, hread, hplace⟩ := ih (Nat.succ_pos k) (hskip.advance hpeek).deeper
    obtain ⟨e', hread', he⟩ := ih' trivial hplace
    exact ⟨e', .subscript (hskip.peek hpeek) hread hread', he⟩
  | done hgroup hindex =>
    exact ⟨_, .done (hcd.peek_skipBlanks_ne hgroup (by decide))
      (hcd.peek_skipBlanks_ne hindex (by decide)), hcd.skipBlanks.1⟩

theorem binaryOp_end (hb : binaryOp t c = .ok (none, e)) :
    e.peek.any t.stopAt = true ∨ e.peek = none ∧ e.depth = 0 := by
  unfold binaryOp at hb
  dsimp only at hb
  split at hb
  · next hp =>
    split at hb
    · cases hb
    · next hdepth =>
      cases hb
      exact .inr ⟨hp, Nat.eq_zero_of_not_pos hdepth⟩
  · next ch hp =>
    split at hb
    · next hstop =>
      cases hb
      exact .inl (by rwa [hp])
    · split at hb
      · cases hb
      · split at hb
        · cases hb
        · cases hb

/-- Terms end at a character that ends the expression, or at the end of the text outside
brackets. -/
theorem Reads.terms_end {r : Reading} {ss : List Symbol}
    (h : Reads r (.terms t) c (.symbols ss) e) :
    e.peek.any t.stopAt = true ∨ e.peek = none ∧ e.depth = 0 := by
  generalize hp : Part.terms t = p at h
  generalize hs : Found.symbols ss = found at h
  induction h generalizing ss with
  | sign _ _ ih =>
    cases hp
    exact ih rfl rfl
  | last _ _ _ hb =>
    cases hp
    exact binaryOp_end hb
  | more _ _ _ _ _ _ _ ih =>
    cases hp
    exact ih rfl rfl
  | _ => cases hp

/-- A text that is read as an expression is read as the same in brackets, with a line break before
the closing one. -/
theorem Reads.group_of_bare {p s : List Char} {ss : List Symbol} {v : Value}
    (h : Reads {} (.terms {}) (before p s 0) (.symbols ss) e) (hv : SumPhrase ss v)
    (q after : List Char) : ∃ q', Reads {} (.group ')') (before q (s ++ '\n' :: ')' :: after) 1)
      (.value v) (before q' after 0) := by
  obtain ⟨e', hread, hplace⟩ :=
    h.within (f := .brackets after) (k := 0) (fun hne => absurd rfl hne) (.text p q s)
  have hend : e.peek = none := by
    rcases h.terms_end with hstop | ⟨hnone, -⟩
    · cases hpeek : e.peek with
      | none => rfl
      | some ch => simp [hpeek, Terminators.stopAt] at hstop
    · exact hnone
  have hclose : e'.peek = some ')' := by
    rcases hread.terms_end with hstop | ⟨-, hdepth⟩
    · cases hpeek : e'.peek with
      | none => simp [hpeek] at hstop
      | some ch =>
        have hch : ')' = ch := by
          simpa [hpeek, Terminators.stopAt, Terminators.within, Frame.close?] using hstop
        rw [hch]
    · rw [hplace.depth_eq.2] at hdepth
      cases hdepth
  cases hplace with
  | text p' q' s' =>
    obtain rfl : s' = [] := List.head?_eq_none_iff.mp hend
    cases hclose
  | ended p' q' => exact ⟨')' :: q', .group hread hv rfl⟩

section

variable {p s : List Char} {ss : List Symbol} {v : Value}
  (h : Reads {} (.terms {}) (before p s 0) (.symbols ss) e) (hv : SumPhrase ss v)
include h

/-- What was passed before an expression makes no difference. -/
theorem Reads.anywhere (q : List Char) :
    ∃ e', Reads {} (.terms {}) (before q s 0) (.symbols ss) e' ∧ e'.used = 0 := by
  obtain ⟨e', hread, hplace⟩ :=
    h.within (f := .bare) (k := 0) (fun hne => absurd rfl hne) (.text p q s)
  have hsame : s ++ Frame.bare.tail = s := List.append_nil s
  rw [hsame] at hread
  refine ⟨e', hread, ?_⟩
  cases hplace with
  | text p' q' s' => rfl
  | ended p' q' => rfl

include hv

/-- A text in brackets is an operand at the end of a text. -/
theorem Reads.bracketed_terms (q : List Char) :
    ∃ q', Reads {} (.terms {}) (before q ('(' :: (s ++ ['\n', ')'])) 0) (.symbols [.operand v])
      (before q' [] 0) := by
  obtain ⟨q', hgroup⟩ := h.group_of_bare hv ('(' :: q) []
  have hproper : Proper {} := fun ch hstop => by simp [Terminators.stopAt] at hstop
  have hbased : Based (before q ('(' :: (s ++ ['\n', ')'])) 0) v (before q' [] 0) := by
    refine ⟨v, before q' [] 0, .bracketed rfl hgroup, ?_⟩
    split
    · exact .done (by simp [skipBlanks, before, skipFrom, peek])
        (by simp [skipBlanks, before, skipFrom, peek])
    · exact ⟨rfl, rfl⟩
  exact hbased.terms (q := q') rfl hproper (.atEnd rfl)

end

end Cursor

/-- In brackets a text is read as the same expression. -/
theorem Reading.parse_bracketed {src : String} {v : Value} {n : Nat}
    (h : Reading.parse {} src = .ok ⟨v, n⟩) :
    Reading.parse {} ("(" ++ src ++ "\n)") = .ok ⟨v, 0⟩ := by
  obtain ⟨ss, e, hread, hv, -⟩ := Reading.parse_eq_ok_iff.mp h
  obtain ⟨q, hbracketed⟩ := Cursor.Reads.bracketed_terms hread hv []
  have htext : ("(" ++ src ++ "\n)").toList = '(' :: (src.toList ++ ['\n', ')']) := by simp
  rw [← htext] at hbracketed
  exact Reading.parse_eq_ok_iff.mpr ⟨_, _, hbracketed, Grammar.Phrase.operand 0 v, rfl⟩

end Reckon
