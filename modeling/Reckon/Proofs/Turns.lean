import Mathlib.Logic.Relation
import Reckon.Proofs.Places
import Reckon.Proofs.Statements

/-!
The turns of reading. A turn is a call of a routine or one more round of a loop; where it does not
read on it calls a routine of lower rank, so no run goes on for ever, and between two turns of one
routine something is read. Main statement: `reading_ends_by_progress`.
-/

namespace Reckon

namespace Cursor

/-- What reading does next: it reads a part of an expression, the next parameter of a closure, or
the signs after an operand. -/
inductive Turn where
  | part (p : Part)
  | parameter
  | sign

/-- The routines and loops that turns belong to. -/
inductive Routine where
  | terms | primary | atom | group | list | closure | postfixes | parameters | signs
  deriving DecidableEq, Repr

def Turn.routine : Turn → Routine
  | .part (.terms _) => .terms
  | .part (.primary _) => .primary
  | .part .atom => .atom
  | .part (.group _) => .group
  | .part (.list _ _) => .list
  | .part (.closure _) => .closure
  | .part (.postfixes _) => .postfixes
  | .parameter => .parameters
  | .sign => .signs

/-- A routine calls one of its own rank, or of a higher one, only after it has read something. -/
def Routine.rank : Routine → Nat
  | .group | .list | .closure => 3
  | .terms => 2
  | .primary => 1
  | .atom | .postfixes | .parameters | .signs => 0

/-- A turn at a place leads to the next of its loop, or calls a routine at a place. -/
inductive Enters (r : Reading) : Turn × Cursor → Turn × Cursor → Prop
  | minus {t c d} : c.fill.accept? '-' = some d →
      Enters r (.part (.terms t), c) (.part (.terms t), d)
  | operand {t c} : Enters r (.part (.terms t), c) (.part (.primary t), c.fill)
  | operator {t c d e v op} : Reads r (.primary t) c.fill (.value v) d →
      binaryOp t d = .ok (some op, e) → Enters r (.part (.terms t), c) (.part (.terms t), e)
  | closed {t c} : c.peek = some '|' →
      Enters r (.part (.primary t), c) (.part (.closure t), c.advance.deeper)
  | atom {t c} : Enters r (.part (.primary t), c) (.part .atom, c)
  | followed {t c d v} : Reads r .atom c (.value v) d →
      Enters r (.part (.primary t), c) (.part (.postfixes v), d)
  | signed {t c d v} : Reads r .atom c (.value v) d →
      Enters r (.part (.primary t), c) (.sign, d)
  | signedAfter {t c d e v w} : Reads r .atom c (.value v) d →
      Reads r (.postfixes v) d (.value w) e → Enters r (.part (.primary t), c) (.sign, e)
  | sign {c d} : c.skipBlanks.accept? '!' = some d → Enters r (.sign, c) (.sign, d)
  | bracketed {c} : c.peek = some '(' →
      Enters r (.part .atom, c) (.part (.group ')'), c.advance.deeper)
  | vector {c} : c.peek = some '<' →
      Enters r (.part .atom, c) (.part (.list '>' true), c.advance.deeper)
  | group {close c} :
      Enters r (.part (.group close), c) (.part (.terms ⟨none, some close⟩), c)
  | item {close first c} :
      Enters r (.part (.list close first), c) (.part (.terms ⟨some ',', some close⟩), c)
  | next {close first c d ss} : Reads r (.terms ⟨some ',', some close⟩) c (.symbols ss) d →
      Enters r (.part (.list close first), c) (.part (.list close false), d.advance)
  | parameters {t c} : Enters r (.part (.closure t), c) (.parameter, c.fill)
  | parameter {c d e name} : c.name? = some (name, d) → d.fill.accept? ',' = some e →
      Enters r (.parameter, c) (.parameter, e.fill)
  | body {t c d names fuel} : closureParams fuel c = .ok (names, d) →
      Enters r (.part (.closure t), c) (.part (.terms t), d.shallower)
  | args {v c} : c.skipBlanks.peek = some '(' →
      Enters r (.part (.postfixes v), c) (.part (.list ')' true), c.skipBlanks.advance.deeper)
  | called {v c d args} : c.skipBlanks.peek = some '(' →
      Reads r (.list ')' true) c.skipBlanks.advance.deeper (.values args) d →
      Enters r (.part (.postfixes v), c) (.part (.postfixes (.call v args false)), d)
  | index {v c} : c.skipBlanks.peek = some '[' →
      Enters r (.part (.postfixes v), c) (.part (.group ']'), c.skipBlanks.advance.deeper)
  | indexed {v c d i} : c.skipBlanks.peek = some '[' →
      Reads r (.group ']') c.skipBlanks.advance.deeper (.value i) d →
      Enters r (.part (.postfixes v), c) (.part (.postfixes (.subscript v i)), d)

namespace Enters

variable {r : Reading} {a b : Turn × Cursor}

/-- A turn leads on in the same text. -/
theorem follows (hr : r.specials = []) (h : Enters r a b) : a.2.Follows b.2 := by
  cases h with
  | @minus _ c _ ha => exact (Follows.fill c).trans (.accept? ha)
  | @operand _ c => exact .fill c
  | @operator _ c _ _ _ _ hp hb =>
    exact (Follows.fill c).trans ((hp.follows hr).trans (.binaryOp hb))
  | closed hp | bracketed hp | vector hp => exact .inside hp
  | atom | group | item => exact .refl _
  | followed ha | signed ha => exact ha.follows hr
  | signedAfter ha hp => exact (ha.follows hr).trans (hp.follows hr)
  | @sign c _ ha => exact (Follows.skipBlanks c).trans (.accept? ha)
  | @next _ _ _ d _ hs => exact (hs.follows hr).trans (.advance d)
  | @parameters _ c => exact .fill c
  | @parameter _ d e _ hn ha =>
    exact (Follows.name? hn).trans ((Follows.fill d).trans ((Follows.accept? ha).trans (.fill e)))
  | @body _ _ d _ _ hn => exact (Follows.closureParams hn).trans (.shallower d)
  | @args _ c hp | @index _ c hp => exact (Follows.skipBlanks c).trans (.inside hp)
  | @called _ c _ _ hp ha | @indexed _ c _ _ hp ha =>
    exact (Follows.skipBlanks c).trans ((Follows.inside hp).trans (ha.follows hr))

/-- A turn reads on, or else it calls a routine of lower rank. -/
theorem progress (h : Enters r a b) :
    b.2.size < a.2.size ∨ b.2.size ≤ a.2.size ∧ b.1.routine.rank < a.1.routine.rank := by
  cases h with
  | @minus _ c _ ha => exact .inl (Nat.lt_of_lt_of_le (size_accept? ha) (size_fill c))
  | @operand _ c | @parameters _ c => exact .inr ⟨size_fill c, by simp [Turn.routine, Routine.rank]⟩
  | atom | group | item => exact .inr ⟨Nat.le_refl _, by simp [Turn.routine, Routine.rank]⟩
  | @operator _ c _ _ _ _ hp hb =>
    have hprimary := hp.size
    exact .inl (Nat.lt_of_le_of_lt (size_binaryOp hb) (Nat.lt_of_lt_of_le hprimary (size_fill c)))
  | closed hp | bracketed hp | vector hp => exact .inl (size_advance hp)
  | followed ha | signed ha => exact .inl ha.size
  | signedAfter ha hp => exact .inl (Nat.lt_of_le_of_lt hp.size ha.size)
  | @sign c _ ha => exact .inl (Nat.lt_of_lt_of_le (size_accept? ha) (size_skipBlanks c))
  | @next _ _ _ d _ hs => exact .inl (Nat.lt_of_le_of_lt (size_advance_le d) hs.size)
  | @parameter c d e _ hn ha =>
    have hcomma : e.size < c.size :=
      Nat.lt_trans (Nat.lt_of_lt_of_le (size_accept? ha) (size_fill d)) (size_name? hn)
    exact .inl (Nat.lt_of_le_of_lt (size_fill e) hcomma)
  | @body _ c d _ _ hn =>
    have hparams : d.size < c.size := size_closureParams hn
    exact .inl hparams
  | @args _ c hp | @index _ c hp =>
    exact .inl (Nat.lt_of_lt_of_le (size_advance hp) (size_skipBlanks c))
  | @called _ c d _ hp ha | @indexed _ c d _ hp ha =>
    have hinside : c.skipBlanks.advance.deeper.size < c.size :=
      Nat.lt_of_lt_of_le (size_advance hp) (size_skipBlanks c)
    exact .inl (Nat.lt_trans ha.size hinside)

/-- No run of turns goes on for ever. -/
theorem wellFounded (r : Reading) : WellFounded fun b a => Enters r a b := by
  -- what is left to read comes first, and where it is the same the rank
  refine Subrelation.wf (r := InvImage (· < ·) fun a => 4 * a.2.size + a.1.routine.rank) ?_
    (InvImage.wf _ Nat.lt_wfRel.wf)
  intro b a h
  have hrank : b.1.routine.rank < 4 := by cases b.1.routine <;> decide
  have := h.progress
  simp only [InvImage]
  omega

end Enters

/-- A text is refused at a place or further on: a character cannot stand there, or the text ends too
early, or a vector that began there has too few components. -/
inductive RefusedFrom (c : Cursor) : Failed → Prop
  | unexpected {d} : c.Follows d → RefusedFrom c (d.failWith d.badChar)
  | ended {d} : c.Follows d → d.atEnd = true → RefusedFrom c (d.failWith d.earlyEnd)
  | shortVector {d e} : c.Follows d → d.peek = some '<' → d.Follows e →
      RefusedFrom c (e.failWith (d.errorHere .shortVector))

namespace RefusedFrom

variable {c d : Cursor} {f : Failed}

theorem from_follows (h : c.Follows d) (hf : RefusedFrom d f) : RefusedFrom c f := by
  cases hf with
  | unexpected hd => exact .unexpected (h.trans hd)
  | ended hd hend => exact .ended (h.trans hd) hend
  | shortVector hd hp he => exact .shortVector (h.trans hd) hp he

/-- A text that is refused did not run out of fuel. -/
theorem stop_eq_error (h : RefusedFrom c f) : ∃ e, f.stop = .error e := by
  cases h <;> exact ⟨_, rfl⟩

end RefusedFrom

/-- With `fuel` the reader fails in a turn, whatever it has read of the expression before. -/
def Turn.Fails (r : Reading) (fuel : Nat) (f : Failed) : Turn × Cursor → Prop
  | (.part (.terms t), c) => ∃ s, exprFrom r fuel t s c = .error f
  | (.part (.primary t), c) => Cursor.primary r fuel t c = .error f
  | (.part .atom, c) => Cursor.atom r fuel c = .error f
  | (.part (.group close), c) => Cursor.group r fuel close c = .error f
  | (.part (.list close first), c) => Cursor.list r fuel close first c = .error f
  | (.part (.closure t), c) => Cursor.closure r fuel t c = .error f
  | (.part (.postfixes v), c) => Cursor.postfixes r fuel v c = .error f
  | (.parameter, c) => ∃ names, params fuel names c = .error f
  | (.sign, _) => False

/-- A turn fails by itself, or because one that it enters fails in the same way with less fuel. -/
def Turn.FailsBy (r : Reading) (fuel : Nat) (f : Failed) (a : Turn × Cursor) : Prop :=
  RefusedFrom a.2 f ∨ ∃ b, Enters r a b ∧ Turn.Fails r fuel f b

/-- Nothing is read where an operand is missing. -/
theorem primary_eq_none {r : Reading} {fuel : Nat} {t : Terminators} {c d : Cursor}
    (h : Cursor.primary r fuel t c = .ok (none, d)) : d = c := by
  cases fuel with
  | zero => cases h
  | succ fuel =>
    unfold Cursor.primary at h
    split at h
    · cases h
      rfl
    · split at h
      · obtain ⟨_, -, h⟩ := bind_eq_ok_iff.mp h
        cases h
      · obtain ⟨⟨w, e⟩, -, h⟩ := bind_eq_ok_iff.mp h
        dsimp only at h
        split at h
        · obtain ⟨_, -, h⟩ := bind_eq_ok_iff.mp h
          cases h
        · cases h

theorem binaryOp_refused {t : Terminators} {c : Cursor} {f : Failed}
    (h : binaryOp t c = .error f) : RefusedFrom c f := by
  have hfill := Follows.fill c
  unfold binaryOp at h
  dsimp only at h
  split at h
  · next hpeek =>
    have hend : c.fill.atEnd = true := by simpa [peek, atEnd] using hpeek
    split at h <;> cases h
    exact .ended hfill hend
  · repeat' split at h
    all_goals cases h
    exact .unexpected hfill

theorem number_refused {c : Cursor} {f : Failed} (h : c.number = .error f) : RefusedFrom c f := by
  unfold number at h
  split at h
  · cases h
  · cases h
    exact .unexpected (.refl c)

theorem parameter_failsBy (r : Reading) {fuel : Nat} {names : List String} {c : Cursor} {f : Failed}
    (h : params (fuel + 1) names c = .error f) : Turn.FailsBy r fuel f (.parameter, c) := by
  unfold params at h
  split at h
  · cases h
    exact .inl (.unexpected (.refl c))
  · next name d hn =>
    have hname := (Follows.name? hn).trans (.fill d)
    dsimp only at h
    split at h
    · next hend =>
      cases h
      exact .inl (.ended hname hend)
    · split at h
      · cases h
      · split at h
        · cases h
          exact .inl (.unexpected hname)
        · next e ha =>
          split at h
          · cases h
            exact .inl (.unexpected (hname.trans ((Follows.accept? ha).trans (.fill e))))
          · exact .inr ⟨_, .parameter hn ha, _, h⟩

theorem closureParams_failsBy (r : Reading) {fuel : Nat} {t : Terminators} {c : Cursor} {f : Failed}
    (h : closureParams fuel c = .error f) : Turn.FailsBy r fuel f (.part (.closure t), c) := by
  unfold closureParams at h
  dsimp only at h
  split at h
  · next hend =>
    cases h
    exact .inl (.ended (.fill c) hend)
  · split at h
    · cases h
    · exact .inr ⟨_, .parameters, _, h⟩

section

variable {r : Reading} (hr : r.specials = []) {fuel : Nat} {f : Failed}
include hr

/-- What has been read as an expression, or an empty one, is behind the place it ends at. -/
theorem Follows.expr {t : Terminators} {c d : Cursor} {v : Option Value}
    (h : exprFrom r fuel t [] c = .ok (v, d)) : c.Follows d := by
  cases v with
  | none =>
    obtain ⟨-, rfl, -⟩ := exprFrom_eq_none h
    exact .fill c
  | some v =>
    obtain ⟨ss, hs, -⟩ := (lawful r fuel).expr _ _ _ _ h
    exact hs.follows hr

theorem terms_failsBy {t : Terminators} {s : Spine} {c : Cursor}
    (h : exprFrom r (fuel + 1) t s c = .error f) : Turn.FailsBy r fuel f (.part (.terms t), c) := by
  have hfill := Follows.fill c
  unfold exprFrom at h
  dsimp only at h
  split at h
  · next hend =>
    split at h
    · cases h
      exact .inl (.ended hfill hend)
    · cases h
  · split at h
    · next ha => exact .inr ⟨_, .minus ha, _, h⟩
    · rcases bind_eq_error_iff.mp h with hp | ⟨⟨v, d⟩, hp, h⟩
      · exact .inr ⟨_, .operand, hp⟩
      · cases v with
        | none =>
          dsimp only at h
          split at h
          · cases h
          · cases h
            rw [primary_eq_none hp]
            exact .inl (.unexpected hfill)
        | some v =>
          have hreads := (lawful r fuel).primary _ _ _ _ hp
          rcases bind_eq_error_iff.mp h with hb | ⟨⟨op, e⟩, hb, h⟩
          · exact .inl (.from_follows (hfill.trans (hreads.follows hr)) (binaryOp_refused hb))
          · cases op with
            | none => cases h
            | some op => exact .inr ⟨_, .operator hreads hb, _, h⟩

omit hr in
theorem primary_failsBy {t : Terminators} {c : Cursor}
    (h : Cursor.primary r (fuel + 1) t c = .error f) :
    Turn.FailsBy r fuel f (.part (.primary t), c) := by
  unfold Cursor.primary at h
  split at h
  · cases h
  · split at h
    · next hbar =>
      rcases bind_eq_error_iff.mp h with hc | ⟨_, -, h⟩
      · exact .inr ⟨_, .closed hbar, hc⟩
      · cases h
    · rcases bind_eq_error_iff.mp h with ha | ⟨⟨v, d⟩, ha, h⟩
      · exact .inr ⟨_, .atom, ha⟩
      · have hreads := (lawful r fuel).atom _ _ _ ha
        dsimp only at h
        split at h
        · rcases bind_eq_error_iff.mp h with hp | ⟨_, -, h⟩
          · exact .inr ⟨_, .followed hreads, hp⟩
          · cases h
        · cases h

theorem atom_failsBy {c : Cursor} (h : Cursor.atom r (fuel + 1) c = .error f) :
    Turn.FailsBy r fuel f (.part .atom, c) := by
  unfold Cursor.atom at h
  split at h
  · cases h
    exact .inl (.unexpected (.refl c))
  · next ch hp =>
    split at h
    · rcases bind_eq_error_iff.mp h with hn | ⟨_, -, h⟩
      · exact .inl (number_refused hn)
      · cases h
    · split at h
      · next hch => exact .inr ⟨_, .bracketed (hch ▸ hp), h⟩
      · split at h
        · next hch =>
          have hp : c.peek = some '<' := hch ▸ hp
          rcases bind_eq_error_iff.mp h with hl | ⟨⟨vs, d⟩, hl, h⟩
          · exact .inr ⟨_, .vector hp, hl⟩
          · have hreads := (lawful r fuel).list _ _ _ _ _ hl
            dsimp only at h
            split at h
            · cases h
              exact .inl (.shortVector (.refl c) hp ((Follows.inside hp).trans (hreads.follows hr)))
            · cases h
        · split at h
          · next s hs => simp [Reading.special?, hr] at hs
          · split at h
            · cases h
            · cases h
              exact .inl (.unexpected (.refl c))

theorem group_failsBy {close : Char} {c : Cursor}
    (h : Cursor.group r (fuel + 1) close c = .error f) :
    Turn.FailsBy r fuel f (.part (.group close), c) := by
  unfold Cursor.group at h
  rcases bind_eq_error_iff.mp h with he | ⟨⟨v, d⟩, he, h⟩
  · exact .inr ⟨_, .group, _, he⟩
  · have hd := Follows.expr hr he
    cases v with
    | none =>
      cases h
      exact .inl (.unexpected hd)
    | some v =>
      dsimp only at h
      split at h
      · cases h
      · cases h
        exact .inl (.unexpected hd)

theorem list_failsBy {close : Char} {first : Bool} {c : Cursor}
    (h : Cursor.list r (fuel + 1) close first c = .error f) :
    Turn.FailsBy r fuel f (.part (.list close first), c) := by
  unfold Cursor.list at h
  rcases bind_eq_error_iff.mp h with he | ⟨⟨v, d⟩, he, h⟩
  · exact .inr ⟨_, .item, _, he⟩
  · cases v with
    | none =>
      dsimp only at h
      split at h
      · cases h
      · cases h
        exact .inl (.unexpected (.expr hr he))
    | some v =>
      obtain ⟨ss, hs, -⟩ := (lawful r fuel).expr _ _ _ _ he
      dsimp only at h
      split at h
      · cases h
      · rcases bind_eq_error_iff.mp h with hl | ⟨_, -, h⟩
        · exact .inr ⟨_, .next hs, hl⟩
        · cases h

theorem closure_failsBy {t : Terminators} {c : Cursor}
    (h : Cursor.closure r (fuel + 1) t c = .error f) :
    Turn.FailsBy r fuel f (.part (.closure t), c) := by
  unfold Cursor.closure at h
  rcases bind_eq_error_iff.mp h with hn | ⟨⟨names, d⟩, hn, h⟩
  · exact closureParams_failsBy r hn
  · rcases bind_eq_error_iff.mp h with he | ⟨⟨v, e⟩, he, h⟩
    · exact .inr ⟨_, .body hn, _, he⟩
    · have hbody := (Follows.closureParams hn).trans ((Follows.shallower d).trans (.expr hr he))
      cases v with
      | none =>
        cases h
        exact .inl (.unexpected hbody)
      | some v => cases h

omit hr in
theorem postfixes_failsBy {v : Value} {c : Cursor}
    (h : Cursor.postfixes r (fuel + 1) v c = .error f) :
    Turn.FailsBy r fuel f (.part (.postfixes v), c) := by
  unfold Cursor.postfixes at h
  dsimp only at h
  split at h
  · next hp =>
    rcases bind_eq_error_iff.mp h with ha | ⟨⟨args, d⟩, ha, h⟩
    · exact .inr ⟨_, .args hp, ha⟩
    · exact .inr ⟨_, .called hp ((lawful r fuel).list _ _ _ _ _ ha), h⟩
  · split at h
    · next hp =>
      rcases bind_eq_error_iff.mp h with hi | ⟨⟨i, d⟩, hi, h⟩
      · exact .inr ⟨_, .index hp, hi⟩
      · exact .inr ⟨_, .indexed hp ((lawful r fuel).group _ _ _ _ hi), h⟩
    · cases h

/-- Where the reader fails there is a place that refuses the text, or a further turn. -/
theorem Turn.Fails.succ {a : Turn × Cursor} (h : Turn.Fails r (fuel + 1) f a) :
    Turn.FailsBy r fuel f a := by
  obtain ⟨turn, c⟩ := a
  cases turn with
  | sign => exact h.elim
  | parameter =>
    obtain ⟨names, h⟩ := h
    exact parameter_failsBy r h
  | part p =>
    cases p with
    | terms t =>
      obtain ⟨s, h⟩ := h
      exact terms_failsBy hr h
    | primary t => exact primary_failsBy h
    | atom => exact atom_failsBy hr h
    | group close => exact group_failsBy hr h
    | list close first => exact list_failsBy hr h
    | closure t => exact closure_failsBy hr h
    | postfixes v => exact postfixes_failsBy h

end

/-- Without fuel nothing else is found than that it is missing. -/
theorem Turn.Fails.zero {r : Reading} {f : Failed} {a : Turn × Cursor} (h : Turn.Fails r 0 f a) :
    f.stop = .outOfFuel := by
  obtain ⟨turn, c⟩ := a
  cases turn with
  | sign => exact h.elim
  | parameter =>
    obtain ⟨names, h⟩ := h
    cases h
    rfl
  | part p =>
    cases p with
    | terms t =>
      obtain ⟨s, h⟩ := h
      unfold exprFrom at h
      cases h
      rfl
    | _ =>
      simp only [Turn.Fails] at h
      cases h
      rfl

section

variable {r : Reading} (hr : r.specials = []) {fuel : Nat} {f : Failed} {a : Turn × Cursor}
include hr

/-- Fuel runs out only in a run of as many turns. -/
theorem Turn.Fails.outOfFuel (h : Turn.Fails r fuel f a) (hf : f.stop = .outOfFuel) :
    ∃ turns, turns.length = fuel ∧ (a :: turns).IsChain (Enters r) := by
  induction fuel generalizing a with
  | zero => exact ⟨[], rfl, .singleton a⟩
  | succ fuel ih =>
    rcases h.succ hr with h | ⟨b, hb, h⟩
    · obtain ⟨e, he⟩ := h.stop_eq_error
      rw [hf] at he
      cases he
    · obtain ⟨turns, hlength, hturns⟩ := ih h
      exact ⟨b :: turns, by simp [hlength], .cons_cons hb hturns⟩

/-- If it is not for want of fuel, the text is refused from where the turn begins. -/
theorem Turn.Fails.refused (h : Turn.Fails r fuel f a) (hf : f.stop ≠ .outOfFuel) :
    RefusedFrom a.2 f := by
  induction fuel generalizing a with
  | zero => exact absurd h.zero hf
  | succ fuel ih =>
    rcases h.succ hr with h | ⟨b, hb, h⟩
    · exact h
    · exact (ih h).from_follows (hb.follows hr)

end

theorem skipBangsFrom_add (comment : Bool) (count k : Nat) (passed s : List Char) :
    skipBangsFrom comment (count + k) passed s =
      ((skipBangsFrom comment count passed s).1 + k, (skipBangsFrom comment count passed s).2) := by
  induction s generalizing comment count passed with
  | nil => rfl
  | cons ch s ih =>
    simp only [skipBangsFrom]
    repeat' split
    · exact ih _ _ _
    · exact ih _ _ _
    · exact ih _ _ _
    · rw [← ih, Nat.add_right_comm]
    · rfl

/-- A factorial sign is counted and passed before those that follow it. -/
theorem skipBangs_of_sign {c d : Cursor} (h : c.skipBlanks.accept? '!' = some d) :
    c.skipBangs.1 = d.skipBangs.1 + 1 := by
  obtain ⟨hp, rfl⟩ := accept?_eq_some_iff.mp h
  have hblank : Text.isBlank '!' = false := by decide
  rw [← skipBangs_skipBlanks]
  unfold peek at hp
  cases hrest : c.skipBlanks.rest with
  | nil => simp [hrest] at hp
  | cons ch s =>
    obtain rfl : ch = '!' := by simpa [hrest] using hp
    simp only [skipBangs, advance, hrest, skipBangsFrom, hblank]
    exact congrArg Prod.fst (skipBangsFrom_add false 0 1 _ s)

theorem skipBangs_of_no_sign {c : Cursor} (h : c.skipBlanks.accept? '!' = none) :
    c.skipBangs.1 = 0 := by
  have hnext : (skipFrom false c.passed c.rest).2.head? ≠ some '!' := by
    intro hp
    have hpeek : c.skipBlanks.peek = some '!' := hp
    simp [accept?, hpeek] at h
  exact congrArg Prod.fst (skipBangsFrom_of_blanks 0 hnext)

/-- Factorial signs are counted in as many turns. -/
theorem skipBangs_turns (r : Reading) (c : Cursor) :
    ∃ turns, turns.length = c.skipBangs.1 ∧ ((Turn.sign, c) :: turns).IsChain (Enters r) := by
  -- each sign is one character less to read
  induction hn : c.size using Nat.strongRecOn generalizing c with
  | ind n ih =>
    cases ha : c.skipBlanks.accept? '!' with
    | none => exact ⟨[], (skipBangs_of_no_sign ha).symm, .singleton _⟩
    | some d =>
      have hlt : d.size < n := hn ▸ Nat.lt_of_lt_of_le (size_accept? ha) (size_skipBlanks c)
      obtain ⟨turns, hlength, hturns⟩ := ih d.size hlt d rfl
      refine ⟨(.sign, d) :: turns, ?_, .cons_cons (.sign ha) hturns⟩
      rw [skipBangs_of_sign ha, List.length_cons, hlength]

section

variable {r : Reading} {a b : Turn × Cursor}

theorem Enters.progress_trans (h : Relation.TransGen (Enters r) a b) :
    b.2.size < a.2.size ∨ b.2.size ≤ a.2.size ∧ b.1.routine.rank < a.1.routine.rank := by
  induction h with
  | single h => exact h.progress
  | tail _ h ih =>
    have := h.progress
    omega

theorem Enters.follows_trans (hr : r.specials = []) (h : Relation.TransGen (Enters r) a b) :
    a.2.Follows b.2 := by
  induction h with
  | single h => exact h.follows hr
  | tail _ h ih => exact ih.trans (h.follows hr)

/-- Between two turns of one routine something is read. -/
theorem Enters.bytes_lt (hr : r.specials = []) (h : Relation.TransGen (Enters r) a b)
    (hroutine : a.1.routine = b.1.routine) : a.2.bytes < b.2.bytes := by
  have hsize : b.2.size < a.2.size := by
    have := Enters.progress_trans h
    rw [hroutine] at this
    omega
  exact bytes_lt_of_size_lt (Enters.follows_trans hr h).entire hsize

end

/-- In blank text there is no expression. -/
theorem expr_of_blank {r : Reading} {c : Cursor} (h : c.skipBlanks.atEnd = true)
    (hd : c.depth = 0) : c.expr r = .ok (none, c.skipBlanks) := by
  have hfuel : 8 * (c.size + 1) = 8 * c.size + 7 + 1 := by omega
  have hdepth : c.skipBlanks.depth = 0 := hd
  rw [expr, hfuel, exprFrom, fill_settled fun _ => .inl hd]
  simp [h, hdepth]

end Cursor

/-- A text is refused because it is blank, or else at a place in it or in the lines used. -/
theorem Reading.parse_refused {r : Reading} (hr : r.specials = []) {src : String} {f : Failed}
    (h : r.parse src = .error f) :
    (Text.isBlankLine src = true ∧ ∃ used, f = ⟨.error ⟨.noExpression, 0⟩, used⟩) ∨
      Text.isBlankLine src = false ∧
        Cursor.RefusedFrom (.atStart src.toList (r.lines.map String.toList)) f := by
  rcases bind_eq_error_iff.mp h with he | ⟨⟨v, d⟩, he, h⟩
  · have hfails : Cursor.Turn.Fails r _ f (.part (.terms {}), .atStart _ _) := ⟨[], he⟩
    have hout : f.stop ≠ .outOfFuel := by
      obtain ⟨e, hstop, -⟩ := Cursor.expr_refuses hr _ _ he
      simp [hstop]
    refine .inr ⟨?_, hfails.refused hr hout⟩
    by_contra hline
    have hblank : (Cursor.atStart src.toList (r.lines.map String.toList)).skipBlanks.atEnd = true :=
      (Bool.not_eq_false _).mp hline
    rw [Cursor.expr_of_blank hblank rfl] at he
    cases he
  · cases v with
    | some v => cases h
    | none =>
      cases h
      have hblank := Cursor.atEnd_of_expr_eq_none he
      rw [Cursor.fill_settled fun _ => .inl rfl] at hblank
      exact .inl ⟨hblank, _, rfl⟩

/-- Reading a text and further lines comes to an end, with a tree or an error, and no greater bound
on its steps makes it run out of them: no run of turns goes on for ever, since between two turns of
one routine, be they rounds of its loop or calls inside each other, the reader has moved on by a
byte or more. These turns are all that is bounded: fuel runs out only in a run of as many turns, and
factorial signs are counted in one turn each. -/
theorem reading_ends_by_progress (src : String) (lines : List String) :
    let r : Reading := { lines }
    let start := Cursor.atStart src.toList (lines.map String.toList)
    ((∃ found, r.parse src = .ok found) ∨ ∃ e used, r.parse src = .error ⟨.error e, used⟩) ∧
    (∀ fuel used, 8 * (start.size + 1) ≤ fuel →
      Cursor.exprFrom r fuel {} [] start ≠ .error ⟨.outOfFuel, used⟩) ∧
    (WellFounded fun b a => Cursor.Enters r a b) ∧
    (∀ a b, Relation.TransGen (Cursor.Enters r) a b → a.1.routine = b.1.routine →
      a.2.bytes < b.2.bytes) ∧
    (∀ fuel used, Cursor.exprFrom r fuel {} [] start = .error ⟨.outOfFuel, used⟩ →
      ∃ turns, turns.length = fuel ∧
        ((.part (.terms {}), start) :: turns).IsChain (Cursor.Enters r)) ∧
    ∀ c, ∃ turns, turns.length = c.skipBangs.1 ∧
      ((.sign, c) :: turns).IsChain (Cursor.Enters r) := by
  intro r start
  have hr : r.specials = [] := rfl
  refine ⟨?_, fun fuel used hfuel hout => ?_, Cursor.Enters.wellFounded r,
    fun a b => Cursor.Enters.bytes_lt hr, fun fuel used hout => ?_, Cursor.skipBangs_turns r⟩
  · cases hparse : r.parse src with
    | ok found => exact .inl ⟨found, rfl⟩
    | error f =>
      obtain ⟨-, used, rfl⟩ | ⟨-, href⟩ := Reading.parse_refused hr hparse
      · exact .inr ⟨_, used, rfl⟩
      · obtain ⟨stop, used⟩ := f
        obtain ⟨e, rfl⟩ := href.stop_eq_error
        exact .inr ⟨e, used, rfl⟩
  · have hsteps : (Cursor.Part.terms {}).steps start ≤ fuel := by
      simp only [Cursor.Part.steps]
      omega
    obtain ⟨e, he, -⟩ := (Cursor.halting hr fuel).expr {} [] start hsteps _ hout
    cases he
  · have hfails : Cursor.Turn.Fails r fuel ⟨.outOfFuel, used⟩ (.part (.terms {}), start) :=
      ⟨[], hout⟩
    exact hfails.outOfFuel hr rfl

/-- Nothing is read of a product without a sign, but its left operand has been. -/
theorem product_without_sign_reads_on :
    let start := Cursor.atStart "2x".toList []
    let next : Cursor := { passed := ['2'], rest := ['x'] }
    Cursor.binaryOp {} next = .ok (some .mul, next) ∧
      Cursor.Enters {} (.part (.terms {}), start) (.part (.terms {}), next) ∧
      start.bytes < next.bytes := by
  have hoperand : Cursor.primary {} 3 {} (Cursor.atStart "2x".toList []).fill =
      .ok (some (.int 2), { passed := ['2'], rest := ['x'] }) := by rfl
  have hproduct : Cursor.binaryOp {} { passed := ['2'], rest := ['x'] } =
      .ok (some .mul, { passed := ['2'], rest := ['x'] }) := by cbv
  have hturn := Cursor.Enters.operator ((Cursor.lawful {} 3).primary _ _ _ _ hoperand) hproduct
  have hprogress := (reading_ends_by_progress "2x" []).2.2.2.1
  exact ⟨hproduct, hturn, hprogress _ _ (.single hturn) rfl⟩

end Reckon
