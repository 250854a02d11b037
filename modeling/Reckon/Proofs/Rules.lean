import Reckon.Proofs.Grammar
import Reckon.Proofs.Progress

namespace Reckon

namespace Cursor

open Grammar

/-- A part of an expression, with what its reader is told. -/
inductive Part where
  | terms (t : Terminators)
  | primary (t : Terminators)
  | atom
  | group (close : Char)
  | list (close : Char) (first : Bool)
  | closure (t : Terminators)
  | postfixes (v : Value)

/-- What a part is read as. Terms are read as their symbols, whose tree is the grammar's. -/
inductive Found where
  | symbols (ss : List Symbol)
  | value (v : Value)
  | values (vs : List Value)

inductive Reads (r : Reading) : Part → Cursor → Found → Cursor → Prop
  | sign {t c d e ss} : c.fill.accept? '-' = some d → Reads r (.terms t) d (.symbols ss) e →
      Reads r (.terms t) c (.symbols (minus :: ss)) e
  | last {t c d e v} : c.fill.atEnd = false → c.fill.accept? '-' = none →
      Reads r (.primary t) c.fill (.value v) d → binaryOp t d = .ok (none, e) →
      Reads r (.terms t) c (.symbols [.operand v]) e
  | more {t c d d' e v ss} (op : Infix) : c.fill.atEnd = false → c.fill.accept? '-' = none →
      Reads r (.primary t) c.fill (.value v) d → binaryOp t d = .ok (some op.1, d') →
      Reads r (.terms t) d' (.symbols ss) e →
      Reads r (.terms t) c (.symbols (.operand v :: .sign op :: ss)) e
  | closed {t c d v} : c.peek.any t.stopAt = false → c.peek = some '|' →
      Reads r (.closure t) c.advance.deeper (.value v) d → Reads r (.primary t) c (.value v) d
  | plain {t c d v} : c.peek.any t.stopAt = false → c.peek ≠ some '|' →
      Reads r .atom c (.value v) d → takesPostfix v = false →
      Reads r (.primary t) c (.value (factorials v d).1) (factorials v d).2
  | followed {t c d e v w} : c.peek.any t.stopAt = false → c.peek ≠ some '|' →
      Reads r .atom c (.value v) d → takesPostfix v = true →
      Reads r (.postfixes v) d (.value w) e →
      Reads r (.primary t) c (.value (factorials w e).1) (factorials w e).2
  | number {c d ch x} : c.peek = some ch → ch.isDigit = true ∨ ch = '.' →
      c.number = .ok (x, d) → Reads r .atom c (.value (.number x)) d
  | bracketed {c d v} : c.peek = some '(' →
      Reads r (.group ')') c.advance.deeper (.value v) d → Reads r .atom c (.value v) d
  | vector {c d vs} : c.peek = some '<' →
      Reads r (.list '>' true) c.advance.deeper (.values vs) d → 2 ≤ vs.length →
      Reads r .atom c (.value (.vector vs)) d
  | special {c d ch s v} : c.peek = some ch → ¬(ch.isDigit = true ∨ ch = '.') → ch ≠ '(' →
      ch ≠ '<' → r.special? ch = some s → c.special s = .ok (v, d) →
      Reads r .atom c (.value v) d
  | name {c d ch name} : c.peek = some ch → ¬(ch.isDigit = true ∨ ch = '.') → ch ≠ '(' →
      ch ≠ '<' → r.special? ch = none → c.name? = some (name, d) →
      Reads r .atom c (.value (.var name)) d
  | group {close c d e ss v} : Reads r (.terms ⟨none, some close⟩) c (.symbols ss) d →
      SumPhrase ss v → d.accept? close = some e → Reads r (.group close) c (.value v) e.shallower
  | empty {close c} : c.fill.peek = some close → close ≠ '-' →
      Reads r (.list close true) c (.values []) c.fill.advance.shallower
  | final {close first c d ss v} : Reads r (.terms ⟨some ',', some close⟩) c (.symbols ss) d →
      SumPhrase ss v → d.peek = some close →
      Reads r (.list close first) c (.values [v]) d.advance.shallower
  | next {close first c d e ss v vs} :
      Reads r (.terms ⟨some ',', some close⟩) c (.symbols ss) d →
      SumPhrase ss v → d.peek ≠ some close →
      Reads r (.list close false) d.advance (.values vs) e →
      Reads r (.list close first) c (.values (v :: vs)) e
  | closure {t c d e names ss body} :
      (∀ n, c.size < n → closureParams n c = .ok (names, d)) →
      Reads r (.terms t) d.shallower (.symbols ss) e → SumPhrase ss body →
      Reads r (.closure t) c (.value (.func names body)) e
  | call {v c d e args w} : c.skipBlanks.peek = some '(' →
      Reads r (.list ')' true) c.skipBlanks.advance.deeper (.values args) d →
      Reads r (.postfixes (.call v args false)) d (.value w) e →
      Reads r (.postfixes v) c (.value w) e
  | subscript {v c d e i w} : c.skipBlanks.peek = some '[' →
      Reads r (.group ']') c.skipBlanks.advance.deeper (.value i) d →
      Reads r (.postfixes (.subscript v i)) d (.value w) e →
      Reads r (.postfixes v) c (.value w) e
  | done {v c} : c.skipBlanks.peek ≠ some '(' → c.skipBlanks.peek ≠ some '[' →
      Reads r (.postfixes v) c (.value v) c.skipBlanks

/-- The least number of characters in a part. -/
def Part.least : Part → Nat
  | .postfixes _ => 0
  | _ => 1

theorem size_advance_le (c : Cursor) : c.advance.size ≤ c.size := by
  unfold advance
  split
  · exact Nat.le_refl _
  · next h => simp only [size, h, List.length_cons]; omega

/-- What has been read is no longer left. -/
theorem Reads.size {r : Reading} {p : Part} {c d : Cursor} {found : Found}
    (h : Reads r p c found d) : d.size + p.least ≤ c.size := by
  induction h with
  | @sign _ c _ _ _ ha _ ih =>
    have := size_fill c
    have := size_accept? ha
    simp only [Part.least] at ih ⊢
    omega
  | @last _ c _ _ _ _ _ _ hb ih =>
    have := size_fill c
    have := size_binaryOp hb
    simp only [Part.least] at ih ⊢
    omega
  | @more _ c _ _ _ _ _ _ _ _ _ hb _ ih ih' =>
    have := size_fill c
    have := size_binaryOp hb
    simp only [Part.least] at ih ih' ⊢
    omega
  | @closed _ c _ _ _ hp _ ih =>
    have := size_advance hp
    simp only [Part.least, size_deeper] at ih ⊢
    omega
  | @plain _ _ d v _ _ _ _ ih => exact Nat.le_trans (Nat.add_le_add_right (size_skipBangs d) 1) ih
  | @followed _ _ d e _ w _ _ _ _ _ ih ih' =>
    have he : (factorials w e).2.size ≤ e.size := size_skipBangs e
    simp only [Part.least] at ih ih' ⊢
    omega
  | number _ _ hn => exact size_number hn
  | bracketed hp _ ih | vector hp _ _ ih =>
    have := size_advance hp
    simp only [Part.least, size_deeper] at ih ⊢
    omega
  | special hp _ _ _ _ hs => exact size_special hp hs
  | name _ _ _ _ _ hn => exact size_name? hn
  | group _ _ ha ih =>
    have := size_accept? ha
    simp only [Part.least, size_shallower] at ih ⊢
    omega
  | @empty _ c hp =>
    have := size_fill c
    have := size_advance hp
    simp only [Part.least, size_shallower]
    omega
  | final _ _ hp ih =>
    have := size_advance hp
    simp only [Part.least, size_shallower] at ih ⊢
    omega
  | @next _ _ _ d _ _ _ _ _ _ _ _ ih ih' =>
    have := size_advance_le d
    simp only [Part.least] at ih ih' ⊢
    omega
  | @closure _ c _ _ _ _ _ hn _ _ ih =>
    have := size_closureParams (hn _ (Nat.lt_succ_self _))
    simp only [Part.least, size_shallower] at ih ⊢
    omega
  | @call _ c _ _ _ _ hp _ _ ih ih' | @subscript _ c _ _ _ _ hp _ _ ih ih' =>
    have := size_skipBlanks c
    have := size_advance hp
    simp only [Part.least, size_deeper] at ih ih' ⊢
    omega
  | @done _ c => exact size_skipBlanks c

/-- What the reader of each part finds with some fuel. -/
def Finds (r : Reading) (fuel : Nat) : Part → Cursor → Found → Cursor → Prop
  | .terms t, c, .symbols ss, d =>
    ∀ s v, assembleFrom s ss = some v → exprFrom r fuel t s c = .ok (some v, d)
  | .primary t, c, .value v, d => Cursor.primary r fuel t c = .ok (some v, d)
  | .atom, c, .value v, d => Cursor.atom r fuel c = .ok (v, d)
  | .group close, c, .value v, d => Cursor.group r fuel close c = .ok (v, d)
  | .list close first, c, .values vs, d => Cursor.list r fuel close first c = .ok (vs, d)
  | .closure t, c, .value v, d => Cursor.closure r fuel t c = .ok (v, d)
  | .postfixes v, c, .value w, d => Cursor.postfixes r fuel v c = .ok (w, d)
  | _, _, _, _ => False

/-- Enough fuel for a part: eight steps for each character that is left, and those down to the
first character. -/
def Part.steps (c : Cursor) : Part → Nat
  | .terms _ => 8 * c.size + 3
  | .primary _ => 8 * c.size + 2
  | .atom => 8 * c.size + 1
  | .group _ | .list _ _ | .closure _ => 8 * c.size + 4
  | .postfixes _ => 8 * c.size + 1

theorem Part.steps_succ {p : Part} {c : Cursor} {fuel : Nat} (h : p.steps c ≤ fuel) :
    ∃ n, fuel = n + 1 := by
  refine ⟨fuel - 1, ?_⟩
  cases p <;> simp only [Part.steps] at h <;> omega

/-- The tree of the terms of a whole expression is what is read. -/
theorem Finds.exprFrom {r : Reading} {fuel : Nat} {t : Terminators} {c d : Cursor}
    {ss : List Symbol} {v : Value} (h : Finds r fuel (.terms t) c (.symbols ss) d)
    (hv : SumPhrase ss v) : exprFrom r fuel t [] c = .ok (some v, d) :=
  h [] v hv.assemble

/-- An expression that ends at once is empty. -/
theorem exprFrom_empty {r : Reading} {fuel : Nat} {t : Terminators} {c : Cursor} {ch : Char}
    (hp : c.fill.peek = some ch) (ht : t.stopAt ch = true) (hne : ch ≠ '-') :
    exprFrom r (fuel + 2) t [] c = .ok (none, c.fill) := by
  have hend : c.fill.atEnd = false := by
    unfold peek at hp
    unfold atEnd
    cases hr : c.fill.rest with
    | nil => simp [hr] at hp
    | cons _ _ => rfl
  have hminus : c.fill.accept? '-' = none := by simp [accept?, hp, hne]
  have hprimary : Cursor.primary r (fuel + 1) t c.fill = .ok (none, c.fill) := by
    unfold Cursor.primary
    simp [hp, ht]
  unfold Cursor.exprFrom
  simp [hend, hminus, hprimary]

/-- Whatever the rules allow is found with enough fuel. -/
theorem Reads.finds {r : Reading} {p : Part} {c d : Cursor} {found : Found}
    (h : Reads r p c found d) : ∀ fuel, p.steps c ≤ fuel → Finds r fuel p c found d := by
  induction h with
  | @sign t c d e ss ha _ ih =>
    intro fuel hf
    obtain ⟨n, rfl⟩ := Part.steps_succ hf
    have := size_fill c
    have := size_accept? ha
    have hd := ih n (by simp only [Part.steps] at hf ⊢; omega)
    intro s v hv
    unfold Cursor.exprFrom
    simp only [atEnd_of_accept? ha, ha, Bool.false_eq_true, ↓reduceIte]
    exact hd _ _ (by simpa [assembleFrom, minus] using hv)
  | @last t c d e v hend hminus _ hb ih =>
    intro fuel hf
    obtain ⟨n, rfl⟩ := Part.steps_succ hf
    have := size_fill c
    have hp : Cursor.primary r n t c.fill = _ := ih n (by simp only [Part.steps] at hf ⊢; omega)
    intro s w hw
    cases Option.some.inj hw
    unfold Cursor.exprFrom
    simp [hend, hminus, hp, hb]
  | @more t c d d' e v ss op hend hminus hp hb hss ih ih' =>
    intro fuel hf
    obtain ⟨n, rfl⟩ := Part.steps_succ hf
    have := size_fill c
    have := size_binaryOp hb
    have hs := hp.size
    have hp : Cursor.primary r n t c.fill = _ := ih n (by simp only [Part.steps] at hf ⊢; omega)
    have hss := ih' n (by simp only [Part.steps, Part.least] at hf hs ⊢; omega)
    intro s w hw
    unfold Cursor.exprFrom
    simp only [hend, hminus, hp, hb, ok_bind, Bool.false_eq_true, ↓reduceIte]
    exact hss _ _ hw
  | @closed t c d v hstop hbar _ ih =>
    intro fuel hf
    obtain ⟨n, rfl⟩ := Part.steps_succ hf
    have := size_advance hbar
    have hc : Cursor.closure r n t _ = _ :=
      ih n (by simp only [Part.steps, size_deeper] at hf ⊢; omega)
    simp only [hbar, Option.any_some] at hstop
    simp [Finds, Cursor.primary, hstop, hbar, hc]
  | @plain t c d v hstop hbar _ htakes ih =>
    intro fuel hf
    obtain ⟨n, rfl⟩ := Part.steps_succ hf
    have ha : Cursor.atom r n c = _ := ih n (by simp only [Part.steps] at hf ⊢; omega)
    simp [Finds, Cursor.primary, hstop, hbar, ha, htakes]
  | @followed t c d e v w hstop hbar ha htakes _ ih ih' =>
    intro fuel hf
    obtain ⟨n, rfl⟩ := Part.steps_succ hf
    have hs := ha.size
    have ha : Cursor.atom r n c = _ := ih n (by simp only [Part.steps] at hf ⊢; omega)
    have hw : Cursor.postfixes r n v d = _ :=
      ih' n (by simp only [Part.steps, Part.least] at hf hs ⊢; omega)
    simp [Finds, Cursor.primary, hstop, hbar, ha, htakes, hw]
  | number hp hch hn =>
    intro fuel hf
    obtain ⟨n, rfl⟩ := Part.steps_succ hf
    simp [Finds, Cursor.atom, hp, hch, hn]
  | @bracketed c d v hp _ ih =>
    intro fuel hf
    obtain ⟨n, rfl⟩ := Part.steps_succ hf
    have := size_advance hp
    have hg : Cursor.group r n ')' _ = _ :=
      ih n (by simp only [Part.steps, size_deeper] at hf ⊢; omega)
    simp [Finds, Cursor.atom, hp, hg]
  | @vector c d vs hp _ hl ih =>
    intro fuel hf
    obtain ⟨n, rfl⟩ := Part.steps_succ hf
    have := size_advance hp
    have hg : Cursor.list r n '>' true _ = _ :=
      ih n (by simp only [Part.steps, size_deeper] at hf ⊢; omega)
    have hshort : ¬vs.length < 2 := by omega
    simp only [Finds, Cursor.atom, hp]
    rw [if_neg (by decide), if_neg (by decide), if_pos trivial, hg, ok_bind, if_neg hshort]
  | special hp hd hg hv hs hr =>
    intro fuel hf
    obtain ⟨n, rfl⟩ := Part.steps_succ hf
    simp only [Finds, Cursor.atom, hp, hd, hg, hv, hs, hr, ↓reduceIte]
  | name hp hd hg hv hs hn =>
    intro fuel hf
    obtain ⟨n, rfl⟩ := Part.steps_succ hf
    simp only [Finds, Cursor.atom, hp, hd, hg, hv, hs, hn, ↓reduceIte]
  | group _ hv ha ih =>
    intro fuel hf
    obtain ⟨n, rfl⟩ := Part.steps_succ hf
    have he := (ih n (by simp only [Part.steps] at hf ⊢; omega)).exprFrom hv
    simp [Finds, Cursor.group, he, ha]
  | @empty close c hp hne =>
    intro fuel hf
    obtain ⟨n, rfl⟩ : ∃ n, fuel = n + 3 := ⟨fuel - 3, by simp only [Part.steps] at hf; omega⟩
    have he := @exprFrom_empty r n ⟨some ',', some close⟩ c close hp
      (by simp [Terminators.stopAt]) hne
    simp [Finds, Cursor.list, he, hp]
  | final _ hv hp ih =>
    intro fuel hf
    obtain ⟨n, rfl⟩ := Part.steps_succ hf
    have he := (ih n (by simp only [Part.steps] at hf ⊢; omega)).exprFrom hv
    simp [Finds, Cursor.list, he, hp]
  | @next close first c d e ss v vs hss hv hp _ ih ih' =>
    intro fuel hf
    obtain ⟨n, rfl⟩ := Part.steps_succ hf
    have hs := hss.size
    have := size_advance_le d
    have he := (ih n (by simp only [Part.steps] at hf ⊢; omega)).exprFrom hv
    have hl : Cursor.list r n close false _ = _ :=
      ih' n (by simp only [Part.steps, Part.least] at hf hs ⊢; omega)
    simp [Finds, Cursor.list, he, hp, hl]
  | closure hn _ hv ih =>
    intro fuel hf
    obtain ⟨n, rfl⟩ := Part.steps_succ hf
    have hnames := hn n (by simp only [Part.steps] at hf; omega)
    have := size_closureParams hnames
    have he := (ih n (by simp only [Part.steps, size_shallower] at hf ⊢; omega)).exprFrom hv
    simp [Finds, Cursor.closure, hnames, he]
  | @call v c d e args w hp ha _ ih ih' =>
    intro fuel hf
    obtain ⟨n, rfl⟩ := Part.steps_succ hf
    have hs := ha.size
    have := size_skipBlanks c
    have := size_advance hp
    simp only [Part.steps, Part.least, size_deeper] at hf hs
    have hl : Cursor.list r n ')' true _ = _ := ih n (by simp only [Part.steps, size_deeper]; omega)
    have hw : Cursor.postfixes r n _ d = _ := ih' n (by simp only [Part.steps]; omega)
    simp [Finds, Cursor.postfixes, hp, hl, hw]
  | @subscript v c d e i w hp ha _ ih ih' =>
    intro fuel hf
    obtain ⟨n, rfl⟩ := Part.steps_succ hf
    have hs := ha.size
    have := size_skipBlanks c
    have := size_advance hp
    simp only [Part.steps, Part.least, size_deeper] at hf hs
    have hl : Cursor.group r n ']' _ = _ := ih n (by simp only [Part.steps, size_deeper]; omega)
    have hw : Cursor.postfixes r n _ d = _ := ih' n (by simp only [Part.steps]; omega)
    simp [Finds, Cursor.postfixes, hp, hl, hw]
  | done hp hb =>
    intro fuel hf
    obtain ⟨n, rfl⟩ := Part.steps_succ hf
    simp [Finds, Cursor.postfixes, hp, hb]

/-- Only an expression of which nothing has been read can be empty, and then it ends at once. -/
theorem exprFrom_eq_none {r : Reading} {fuel : Nat} {t : Terminators} {s : Spine} {c d : Cursor}
    (h : Cursor.exprFrom r fuel t s c = .ok (none, d)) :
    s = [] ∧ d = c.fill ∧ c.fill.accept? '-' = none := by
  induction fuel generalizing s c with
  | zero => cases h
  | succ fuel ih =>
    unfold Cursor.exprFrom at h
    dsimp only at h
    split at h
    · next hend =>
      split at h
      · cases h
      · next hn =>
        cases h
        refine ⟨by simpa using fun hs => hn (Or.inr hs), rfl, ?_⟩
        cases ha : c.fill.accept? '-' with
        | none => rfl
        | some e => simp [atEnd_of_accept? ha] at hend
    · split at h
      · have := (ih h).1
        simp [Spine.minus] at this
      · next ha =>
        obtain ⟨⟨v, e⟩, hp, h⟩ := bind_eq_ok_iff.mp h
        cases v with
        | some v =>
          obtain ⟨⟨op, e'⟩, -, h⟩ := bind_eq_ok_iff.mp h
          cases op with
          | none => cases h
          | some op =>
            have := (ih h).1
            unfold Spine.insert at this
            split at this
            · cases this
            · split at this <;> cases this
        | none =>
          simp only at h
          split at h
          · next hs =>
            cases h
            refine ⟨hs, ?_, ha⟩
            cases fuel with
            | zero => cases hp
            | succ fuel =>
              unfold Cursor.primary at hp
              split at hp
              · cases hp
                rfl
              · split at hp
                · obtain ⟨_, -, hp⟩ := bind_eq_ok_iff.mp hp
                  cases hp
                · obtain ⟨⟨w, e'⟩, -, hp⟩ := bind_eq_ok_iff.mp hp
                  dsimp only at hp
                  split at hp
                  · obtain ⟨_, -, hp⟩ := bind_eq_ok_iff.mp hp
                    cases hp
                  · cases hp
          · cases h

/-- What the reader finds follows the rules, for all its parts with the same fuel. -/
structure Lawful (r : Reading) (fuel : Nat) : Prop where
  expr : ∀ t c v d, Cursor.exprFrom r fuel t [] c = .ok (some v, d) →
    ∃ ss, Reads r (.terms t) c (.symbols ss) d ∧ SumPhrase ss v
  primary : ∀ t c v d, Cursor.primary r fuel t c = .ok (some v, d) →
    Reads r (.primary t) c (.value v) d
  atom : ∀ c v d, Cursor.atom r fuel c = .ok (v, d) → Reads r .atom c (.value v) d
  group : ∀ close c v d, Cursor.group r fuel close c = .ok (v, d) →
    Reads r (.group close) c (.value v) d
  list : ∀ close first c vs d, Cursor.list r fuel close first c = .ok (vs, d) →
    Reads r (.list close first) c (.values vs) d
  closure : ∀ t c v d, Cursor.closure r fuel t c = .ok (v, d) → Reads r (.closure t) c (.value v) d
  postfixes : ∀ v c w d, Cursor.postfixes r fuel v c = .ok (w, d) →
    Reads r (.postfixes v) c (.value w) d

theorem Scanned.reads {r : Reading} {t : Terminators} {fuel : Nat} {c d : Cursor}
    {ss : List Symbol} (h : Scanned r t fuel c ss d) (hl : ∀ n < fuel, Lawful r n) :
    Reads r (.terms t) c (.symbols ss) d := by
  induction h with
  | sign ha _ ih => exact .sign ha (ih fun n hn => hl n (by omega))
  | last hend ha hp hb => exact .last hend ha ((hl _ (Nat.lt_succ_self _)).primary _ _ _ _ hp) hb
  | more op hend ha hp hb _ ih =>
    exact .more op hend ha ((hl _ (Nat.lt_succ_self _)).primary _ _ _ _ hp) hb
      (ih fun n hn => hl n (by omega))

theorem lawful_expr {r : Reading} {fuel : Nat} (hl : ∀ n < fuel, Lawful r n) {t : Terminators}
    {c d : Cursor} {v : Value} (h : Cursor.exprFrom r fuel t [] c = .ok (some v, d)) :
    ∃ ss, Reads r (.terms t) c (.symbols ss) d ∧ SumPhrase ss v := by
  obtain ⟨ss, hs, ha⟩ := exprFrom_eq_ok_iff.mp h
  obtain ⟨first, rest, rfl⟩ := hs.sequence
  exact ⟨_, hs.reads hl, (sumPhrase_iff first rest v).mpr ha⟩

section

variable {r : Reading} {fuel : Nat} (hl : Lawful r fuel)
include hl

theorem Lawful.primary_succ {t : Terminators} {c d : Cursor} {v : Value}
    (h : Cursor.primary r (fuel + 1) t c = .ok (some v, d)) :
    Reads r (.primary t) c (.value v) d := by
  unfold Cursor.primary at h
  split at h
  · cases h
  · next hstop =>
    have hstop : c.peek.any t.stopAt = false := by simpa using hstop
    split at h
    · next hbar =>
      obtain ⟨⟨w, e⟩, hc, h⟩ := bind_eq_ok_iff.mp h
      cases h
      exact .closed hstop hbar (hl.closure _ _ _ _ hc)
    · next hbar =>
      obtain ⟨⟨w, e⟩, ha, h⟩ := bind_eq_ok_iff.mp h
      dsimp only at h
      split at h
      · next htakes =>
        obtain ⟨⟨x, e'⟩, hx, h⟩ := bind_eq_ok_iff.mp h
        cases h
        exact .followed hstop hbar (hl.atom _ _ _ ha) htakes (hl.postfixes _ _ _ _ hx)
      · next htakes =>
        cases h
        exact .plain hstop hbar (hl.atom _ _ _ ha) (by simpa using htakes)

theorem Lawful.atom_succ {c d : Cursor} {v : Value} (h : Cursor.atom r (fuel + 1) c = .ok (v, d)) :
    Reads r .atom c (.value v) d := by
  unfold Cursor.atom at h
  split at h
  · cases h
  · next ch hp =>
    split at h
    · next hd =>
      obtain ⟨⟨x, e⟩, hn, h⟩ := bind_eq_ok_iff.mp h
      cases h
      exact .number hp hd hn
    · next hd =>
      split at h
      · next hch => exact .bracketed (hch ▸ hp) (hl.group _ _ _ _ h)
      · next hg =>
        split at h
        · next hch =>
          obtain ⟨⟨vs, e⟩, hv, h⟩ := bind_eq_ok_iff.mp h
          simp only at h
          split at h
          · cases h
          · next hlen =>
            cases h
            exact .vector (hch ▸ hp) (hl.list _ _ _ _ _ hv) (by omega)
        · next hv =>
          split at h
          · next s hs => exact .special hp hd hg hv hs h
          · next hs =>
            split at h
            · next hn =>
              cases h
              exact .name hp hd hg hv hs hn
            · cases h

theorem Lawful.group_succ {close : Char} {c d : Cursor} {v : Value}
    (h : Cursor.group r (fuel + 1) close c = .ok (v, d)) :
    Reads r (.group close) c (.value v) d := by
  unfold Cursor.group at h
  obtain ⟨⟨w, e⟩, he, h⟩ := bind_eq_ok_iff.mp h
  cases w with
  | none => cases h
  | some w =>
    simp only at h
    split at h
    · next ha =>
      cases h
      obtain ⟨ss, hs, hv⟩ := hl.expr _ _ _ _ he
      exact .group hs hv ha
    · cases h

theorem Lawful.list_succ {close : Char} {first : Bool} {c d : Cursor} {vs : List Value}
    (h : Cursor.list r (fuel + 1) close first c = .ok (vs, d)) :
    Reads r (.list close first) c (.values vs) d := by
  unfold Cursor.list at h
  obtain ⟨⟨w, e⟩, he, h⟩ := bind_eq_ok_iff.mp h
  cases w with
  | none =>
    obtain ⟨-, rfl, hminus⟩ := exprFrom_eq_none he
    simp only at h
    split at h
    · next hp =>
      cases h
      obtain ⟨hp, rfl⟩ := hp
      refine .empty hp fun hc => ?_
      simp [accept?, hp, hc] at hminus
    · cases h
  | some w =>
    obtain ⟨ss, hs, hv⟩ := hl.expr _ _ _ _ he
    simp only at h
    split at h
    · next hp =>
      cases h
      exact .final hs hv hp
    · next hp =>
      obtain ⟨⟨ws, e'⟩, hw, h⟩ := bind_eq_ok_iff.mp h
      cases h
      exact .next hs hv hp (hl.list _ _ _ _ _ hw)

theorem Lawful.closure_succ {t : Terminators} {c d : Cursor} {v : Value}
    (h : Cursor.closure r (fuel + 1) t c = .ok (v, d)) : Reads r (.closure t) c (.value v) d := by
  unfold Cursor.closure at h
  obtain ⟨⟨names, e⟩, hn, h⟩ := bind_eq_ok_iff.mp h
  obtain ⟨⟨body, e'⟩, he, h⟩ := bind_eq_ok_iff.mp h
  cases body with
  | none => cases h
  | some body =>
    cases h
    obtain ⟨ss, hs, hv⟩ := hl.expr _ _ _ _ he
    exact .closure (fun n => closureParams_fuel hn) hs hv

theorem Lawful.postfixes_succ {c d : Cursor} {v w : Value}
    (h : Cursor.postfixes r (fuel + 1) v c = .ok (w, d)) :
    Reads r (.postfixes v) c (.value w) d := by
  unfold Cursor.postfixes at h
  dsimp only at h
  split at h
  · next hp =>
    obtain ⟨⟨args, e⟩, ha, h⟩ := bind_eq_ok_iff.mp h
    exact .call hp (hl.list _ _ _ _ _ ha) (hl.postfixes _ _ _ _ h)
  · next hp =>
    split at h
    · next hb =>
      obtain ⟨⟨i, e⟩, hi, h⟩ := bind_eq_ok_iff.mp h
      exact .subscript hb (hl.group _ _ _ _ hi) (hl.postfixes _ _ _ _ h)
    · next hb =>
      cases h
      exact .done hp hb

end

/-- The reader follows the rules. -/
theorem lawful (r : Reading) (fuel : Nat) : Lawful r fuel := by
  induction fuel using Nat.strongRecOn with
  | ind fuel ih =>
    cases fuel with
    | zero =>
      constructor
      all_goals intros
      all_goals contradiction
    | succ fuel =>
      have hl := ih fuel (Nat.lt_succ_self fuel)
      exact {
        expr := fun _ _ _ _ => lawful_expr ih
        primary := fun _ _ _ _ => hl.primary_succ
        atom := fun _ _ _ => hl.atom_succ
        group := fun _ _ _ _ => hl.group_succ
        list := fun _ _ _ _ _ => hl.list_succ
        closure := fun _ _ _ _ => hl.closure_succ
        postfixes := fun _ _ _ _ => hl.postfixes_succ }

/-- A whole expression is read exactly as the rules allow. -/
theorem expr_eq_ok_iff {r : Reading} {c d : Cursor} {v : Value} :
    c.expr r = .ok (some v, d) ↔
      ∃ ss, Reads r (.terms {}) c (.symbols ss) d ∧ SumPhrase ss v := by
  constructor
  · exact (lawful r _).expr {} c v d
  · rintro ⟨ss, hs, hv⟩
    exact (hs.finds _ (by simp only [Part.steps]; omega)).exprFrom hv

end Cursor

/-- A text is read as one expression exactly as the rules allow. -/
theorem Reading.parse_eq_ok_iff {r : Reading} {src : String} {v : Value} {n : Nat} :
    r.parse src = .ok ⟨v, n⟩ ↔
      ∃ ss d, Cursor.Reads r (.terms {}) (.atStart src.toList (r.lines.map String.toList))
        (.symbols ss) d ∧ Grammar.SumPhrase ss v ∧ d.used = n := by
  unfold Reading.parse
  constructor
  · intro h
    obtain ⟨⟨w, d⟩, he, h⟩ := bind_eq_ok_iff.mp h
    cases w with
    | none => cases h
    | some w =>
      cases h
      obtain ⟨ss, hs, hv⟩ := Cursor.expr_eq_ok_iff.mp he
      exact ⟨ss, d, hs, hv, rfl⟩
  · rintro ⟨ss, d, hs, hv, rfl⟩
    simp [Cursor.expr_eq_ok_iff.mpr ⟨ss, hs, hv⟩]

end Reckon
