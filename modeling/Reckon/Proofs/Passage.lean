import Reckon.Proofs.Refusals

namespace Reckon

namespace Cursor

/-- The text has ended outside brackets, where nothing brings it on. -/
def Ended (c : Cursor) : Prop := c.depth = 0 ∧ c.rest = []

/-- Between the two places some of the lines were used, but none if the text had ended. -/
def Later (c d : Cursor) : Prop :=
  ∃ n, d.used = c.used + n ∧ d.lines = c.lines.drop n ∧ (c.Ended → d.Ended ∧ n = 0)

namespace Later

variable {c d e : Cursor}

theorem same (hu : d.used = c.used) (hl : d.lines = c.lines) (he : c.Ended → d.Ended) :
    c.Later d :=
  ⟨0, hu, hl, fun h => ⟨he h, rfl⟩⟩

theorem refl (c : Cursor) : c.Later c := .same rfl rfl id

theorem trans (h : c.Later d) (h' : d.Later e) : c.Later e := by
  obtain ⟨n, hu, hl, hend⟩ := h
  obtain ⟨m, hu', hl', hend'⟩ := h'
  refine ⟨n + m, by omega, by rw [hl', hl, List.drop_drop], fun hc => ?_⟩
  obtain ⟨hd, hn⟩ := hend hc
  obtain ⟨he, hm⟩ := hend' hd
  exact ⟨he, by omega⟩

theorem used_le (h : c.Later d) : c.used ≤ d.used := by
  obtain ⟨n, hu, -, -⟩ := h
  omega

theorem lines_suffix (h : c.Later d) : d.lines <:+ c.lines := by
  obtain ⟨n, -, hl, -⟩ := h
  rw [hl]
  exact List.drop_suffix n c.lines

theorem used_of_ended (h : c.Later d) (hc : c.Ended) : d.used = c.used := by
  obtain ⟨n, hu, -, hend⟩ := h
  have hn := (hend hc).2
  omega

theorem ended (h : c.Later d) (hc : c.Ended) : d.Ended := by
  obtain ⟨n, -, -, hend⟩ := h
  exact (hend hc).1

end Later

@[simp] theorem used_advance (c : Cursor) : c.advance.used = c.used := by
  unfold advance
  split <;> rfl

@[simp] theorem lines_advance (c : Cursor) : c.advance.lines = c.lines := by
  unfold advance
  split <;> rfl

theorem advance_of_ended {c : Cursor} (h : c.Ended) : c.advance = c := by
  unfold advance
  rw [h.2]

theorem later_advance (c : Cursor) : c.Later c.advance :=
  .same (used_advance c) (lines_advance c) fun h => (advance_of_ended h).symm ▸ h

theorem later_advanceBy (n : Nat) (c : Cursor) : c.Later (c.advanceBy n) :=
  .same rfl rfl fun h => ⟨h.1, by simp [advanceBy, h.2]⟩

theorem later_skipBlanks (c : Cursor) : c.Later c.skipBlanks :=
  .same rfl rfl fun h => ⟨h.1, by simp [skipBlanks, skipFrom, h.2]⟩

theorem later_skipBangs (c : Cursor) : c.Later c.skipBangs.2 :=
  .same rfl rfl fun h => ⟨h.1, by simp [skipBangs, skipBangsFrom, h.2]⟩

theorem later_shallower (c : Cursor) : c.Later c.shallower :=
  .same rfl rfl fun h => ⟨by simp [shallower, h.1], h.2⟩

/-- An opening bracket is passed only where there is one, so the text has not ended there. -/
theorem later_inside {c : Cursor} {ch : Char} (h : c.peek = some ch) :
    c.Later c.advance.deeper :=
  .same (used_advance c) (lines_advance c) fun he => by simp [peek, he.2] at h

theorem later_fillFrom (c : Cursor) (lines : List (List Char)) :
    ({ c with lines } : Cursor).Later (c.fillFrom lines) := by
  induction lines generalizing c with
  | nil => exact later_skipBlanks { c with lines := [] }
  | cons line lines ih =>
    unfold fillFrom
    dsimp only
    split
    · next hend =>
      obtain ⟨n, hu, hl, -⟩ := ih { c.skipBlanks with rest := '\n' :: line, used := c.used + 1 }
      exact ⟨n + 1, hu.trans (Nat.add_right_comm c.used 1 n), hl, fun h => absurd h.1 hend.2⟩
    · exact later_skipBlanks { c with lines := line :: lines }

theorem later_fill (c : Cursor) : c.Later c.fill := later_fillFrom c c.lines

theorem later_accept? {c d : Cursor} {ch : Char} (h : c.accept? ch = some d) : c.Later d := by
  obtain ⟨-, rfl⟩ := accept?_eq_some_iff.mp h
  exact later_advance c

theorem later_name? {c d : Cursor} {name : String} (h : c.name? = some (name, d)) : c.Later d := by
  obtain ⟨⟨word, n⟩, -, he⟩ := Option.map_eq_some_iff.mp h
  cases he
  exact later_advanceBy n c

/-- What is read from a place ends at a later one, be it with a result or with an error. -/
def EndsAfter {α : Type} (c : Cursor) : Except Failed (α × Cursor) → Prop
  | .ok (_, d) => c.Later d
  | .error f => ∃ d, c.Later d ∧ f.used = d.used

namespace EndsAfter

variable {α β : Type} {c d : Cursor} {x : Except Failed (α × Cursor)}

theorem from_later (h : c.Later d) (hx : EndsAfter d x) : EndsAfter c x := by
  cases x with
  | ok p => exact h.trans hx
  | error f =>
    obtain ⟨e, he, hu⟩ := hx
    exact ⟨e, h.trans he, hu⟩

theorem fails (e : Error) : EndsAfter c (.error (c.failWith e) : Except Failed (α × Cursor)) :=
  ⟨c, .refl c, rfl⟩

theorem bind {f : α × Cursor → Except Failed (β × Cursor)} (hx : EndsAfter c x)
    (hf : ∀ a d, x = .ok (a, d) → EndsAfter d (f (a, d))) : EndsAfter c (x >>= f) := by
  cases x with
  | ok p => exact .from_later hx (hf p.1 p.2 rfl)
  | error f => exact hx

end EndsAfter

theorem binaryOp_endsAfter (t : Terminators) (c : Cursor) : EndsAfter c.fill (binaryOp t c) := by
  unfold binaryOp
  dsimp only
  split
  · split
    · exact .fails _
    · exact Later.refl _
  · split
    · exact Later.refl _
    · split
      · exact later_advance _
      · split
        · exact Later.refl _
        · exact .fails _

theorem number_endsAfter (c : Cursor) : EndsAfter c c.number := by
  unfold number
  split
  · exact later_advanceBy _ c
  · exact .fails _

section

variable {fuel : Nat} (h : ∀ names c, EndsAfter c (params fuel names c))
include h

theorem after_comma (names : List String) (c : Cursor) :
    EndsAfter c.fill (if c.fill.atEnd then .error (c.fill.failWith c.fill.badChar)
      else params fuel names c.fill) := by
  split
  · exact .fails _
  · exact h names c.fill

theorem after_param (names : List String) (c : Cursor) :
    EndsAfter c.fill (if c.fill.atEnd then .error (c.fill.failWith c.fill.earlyEnd)
      else match c.fill.accept? '|' with
        | some c => .ok (names, c)
        | none => match c.fill.accept? ',' with
          | none => .error (c.fill.failWith c.fill.badChar)
          | some c =>
            if c.fill.atEnd then .error (c.fill.failWith c.fill.badChar)
            else params fuel names c.fill) := by
  split
  · exact .fails _
  · split
    · next d hd => exact later_accept? hd
    · split
      · exact .fails _
      · next d hd =>
        exact .from_later ((later_accept? hd).trans (later_fill d)) (after_comma h names d)

end

theorem params_endsAfter (fuel : Nat) (names : List String) (c : Cursor) :
    EndsAfter c (params fuel names c) := by
  induction fuel generalizing names c with
  | zero => exact ⟨c, .refl c, rfl⟩
  | succ fuel ih =>
    unfold params
    split
    · exact .fails _
    · next name d hd =>
      exact .from_later ((later_name? hd).trans (later_fill d)) (after_param ih _ d)

/-- The first thing that a closure does is to bring in lines. -/
theorem closureParams_endsAfter (fuel : Nat) (c : Cursor) :
    EndsAfter c.fill (closureParams fuel c) := by
  unfold closureParams
  dsimp only
  split
  · exact .fails _
  · split
    · next d hd => exact later_accept? hd
    · exact params_endsAfter fuel [] _

theorem after_grouped (close : Char) (v : Option Value) (c : Cursor) :
    EndsAfter c (match (v, c) with
      | (none, c) => .error (c.failWith c.badChar)
      | (some v, c) => match c.accept? close with
        | some c => .ok (v, c.shallower)
        | none => .error (c.failWith c.badChar)) := by
  cases v with
  | none => exact .fails _
  | some v =>
    dsimp only
    split
    · next d hd => exact (later_accept? hd).trans (later_shallower d)
    · exact .fails _

theorem after_body (names : List String) (v : Option Value) (c : Cursor) :
    EndsAfter c (match (v, c) with
      | (none, c) => .error (c.failWith c.badChar)
      | (some body, c) => .ok (Value.func names body, c)) := by
  cases v with
  | none => exact .fails _
  | some v => exact Later.refl c

/-- All that is read without special syntax ends at a later place. -/
structure Advancing (r : Reading) (fuel : Nat) : Prop where
  expr : ∀ t s c, EndsAfter c (exprFrom r fuel t s c)
  primary : ∀ t c, EndsAfter c (Cursor.primary r fuel t c)
  atom : ∀ c, EndsAfter c (Cursor.atom r fuel c)
  group : ∀ close c, EndsAfter c (Cursor.group r fuel close c)
  list : ∀ close first c, EndsAfter c (Cursor.list r fuel close first c)
  closure : ∀ t c, EndsAfter c (Cursor.closure r fuel t c)
  postfixes : ∀ v c, EndsAfter c (Cursor.postfixes r fuel v c)

section

variable {r : Reading} {fuel : Nat} (h : Advancing r fuel)
include h

theorem Advancing.after_operator (t : Terminators) (s : Spine) (v : Value) (op : Option Op)
    (c : Cursor) :
    EndsAfter c (match (op, c) with
      | (none, c) => .ok (some (s.close v), c)
      | (some op, c) => exprFrom r fuel t (s.insert op v) c) := by
  cases op with
  | none => exact Later.refl c
  | some op => exact h.expr t _ c

theorem Advancing.after_operand (t : Terminators) (s : Spine) (v : Option Value) (c : Cursor) :
    EndsAfter c (match (v, c) with
      | (none, c) => if s = [] then .ok (none, c) else .error (c.failWith c.badChar)
      | (some v, c) => do
        match ← binaryOp t c with
        | (none, c) => .ok (some (s.close v), c)
        | (some op, c) => exprFrom r fuel t (s.insert op v) c) := by
  cases v with
  | none =>
    dsimp only
    split
    · exact Later.refl c
    · exact .fails _
  | some v =>
    exact EndsAfter.bind (.from_later (later_fill c) (binaryOp_endsAfter t c))
      fun op d _ => h.after_operator t s v op d

/-- The first thing that an expression does is to bring in lines. -/
theorem Advancing.expr_fill (t : Terminators) (s : Spine) (c : Cursor) :
    EndsAfter c.fill (exprFrom r (fuel + 1) t s c) := by
  unfold exprFrom
  dsimp only
  split
  · split
    · exact .fails _
    · exact Later.refl _
  · split
    · next d hd => exact .from_later (later_accept? hd) (h.expr _ _ _)
    · exact (h.primary t c.fill).bind fun v d _ => h.after_operand t s v d

theorem Advancing.after_atom (v : Value) (c : Cursor) :
    EndsAfter c (do
      let (v, c) ← if takesPostfix v then Cursor.postfixes r fuel v c else .ok (v, c)
      let (v, c) := factorials v c
      .ok (some v, c)) := by
  split
  · exact (h.postfixes v c).bind fun w d _ => later_skipBangs d
  · exact later_skipBangs c

theorem Advancing.primary_succ (t : Terminators) (c : Cursor) :
    EndsAfter c (Cursor.primary r (fuel + 1) t c) := by
  unfold Cursor.primary
  split
  · exact Later.refl _
  · split
    · next hbar =>
      refine .from_later (later_inside hbar) ?_
      exact (h.closure t c.advance.deeper).bind fun v d _ => Later.refl d
    · exact (h.atom c).bind fun v d _ => h.after_atom v d

theorem Advancing.atom_succ (hr : r.specials = []) (c : Cursor) :
    EndsAfter c (Cursor.atom r (fuel + 1) c) := by
  unfold Cursor.atom
  split
  · exact .fails _
  · next ch hch =>
    have hinside := later_inside hch
    split
    · exact (number_endsAfter c).bind fun x d _ => Later.refl d
    · split
      · exact .from_later hinside (h.group _ _)
      · split
        · refine .from_later hinside ((h.list '>' true c.advance.deeper).bind fun vs d _ => ?_)
          dsimp only
          split
          · exact .fails _
          · exact Later.refl d
        · split
          · next s hs => simp [Reading.special?, hr] at hs
          · split
            · next hn => exact later_name? hn
            · exact .fails _

theorem Advancing.group_succ (close : Char) (c : Cursor) :
    EndsAfter c (Cursor.group r (fuel + 1) close c) := by
  unfold Cursor.group
  exact (h.expr _ _ c).bind fun v d _ => after_grouped close v d

theorem Advancing.after_item (close : Char) (first : Bool) (v : Option Value) (c : Cursor) :
    EndsAfter c (match (v, c) with
      | (none, c) =>
        if c.peek = some close ∧ first then .ok ([], c.advance.shallower)
        else .error (c.failWith c.badChar)
      | (some v, c) =>
        if c.peek = some close then .ok ([v], c.advance.shallower)
        else do
          let (vs, c) ← Cursor.list r fuel close false c.advance
          .ok (v :: vs, c)) := by
  have houtside : c.Later c.advance.shallower := (later_advance c).trans (later_shallower _)
  cases v with
  | none =>
    dsimp only
    split
    · exact houtside
    · exact .fails _
  | some v =>
    dsimp only
    split
    · exact houtside
    · refine .from_later (later_advance c) ?_
      exact (h.list close false c.advance).bind fun vs d _ => Later.refl d

theorem Advancing.list_succ (close : Char) (first : Bool) (c : Cursor) :
    EndsAfter c (Cursor.list r (fuel + 1) close first c) := by
  unfold Cursor.list
  exact (h.expr _ _ c).bind fun v d _ => h.after_item close first v d

theorem Advancing.after_params (t : Terminators) (names : List String) (c : Cursor) :
    EndsAfter c (do
      match ← exprFrom r fuel t [] c.shallower with
      | (none, c) => .error (c.failWith c.badChar)
      | (some body, c) => .ok (Value.func names body, c)) :=
  .from_later (later_shallower c)
    ((h.expr t [] c.shallower).bind fun v d _ => after_body names v d)

theorem Advancing.closure_succ (t : Terminators) (c : Cursor) :
    EndsAfter c (Cursor.closure r (fuel + 1) t c) := by
  unfold Cursor.closure
  exact EndsAfter.bind (.from_later (later_fill c) (closureParams_endsAfter fuel c))
    fun names d _ => h.after_params t names d

theorem Advancing.postfixes_succ (v : Value) (c : Cursor) :
    EndsAfter c (Cursor.postfixes r (fuel + 1) v c) := by
  unfold Cursor.postfixes
  refine .from_later (later_skipBlanks c) ?_
  dsimp only
  split
  · next hp =>
    exact .from_later (later_inside hp) ((h.list _ _ _).bind fun args d _ => h.postfixes _ d)
  · split
    · next hp =>
      exact .from_later (later_inside hp) ((h.group _ _).bind fun i d _ => h.postfixes _ d)
    · exact Later.refl _

end

theorem advancing {r : Reading} (hr : r.specials = []) (fuel : Nat) : Advancing r fuel := by
  induction fuel with
  | zero =>
    constructor
    all_goals
      intros
      exact ⟨_, .refl _, rfl⟩
  | succ fuel ih => exact {
      expr := fun t s c => .from_later (later_fill c) (ih.expr_fill t s c)
      primary := ih.primary_succ
      atom := ih.atom_succ hr
      group := ih.group_succ
      list := ih.list_succ
      closure := ih.closure_succ
      postfixes := ih.postfixes_succ }

theorem later_binaryOp {t : Terminators} {c d : Cursor} {op : Option Op}
    (h : binaryOp t c = .ok (op, d)) : c.Later d := by
  have hends := binaryOp_endsAfter t c
  rw [h] at hends
  exact (later_fill c).trans hends

/-- What the rules allow leads to a later place. -/
theorem Reads.later {r : Reading} (hr : r.specials = []) {p : Part} {c d : Cursor} {found : Found}
    (h : Reads r p c found d) : c.Later d := by
  induction h with
  | @sign _ c _ _ _ ha _ ih => exact (later_fill c).trans ((later_accept? ha).trans ih)
  | @last _ c _ _ _ _ _ _ hb ih => exact (later_fill c).trans (ih.trans (later_binaryOp hb))
  | @more _ c _ _ _ _ _ _ _ _ _ hb _ ih ih' =>
    exact (later_fill c).trans (ih.trans ((later_binaryOp hb).trans ih'))
  | closed _ hp _ ih => exact (later_inside hp).trans ih
  | @plain _ _ d _ _ _ _ _ ih => exact ih.trans (later_skipBangs d)
  | @followed _ _ _ e _ _ _ _ _ _ _ ih ih' => exact ih.trans (ih'.trans (later_skipBangs e))
  | @number c _ _ _ _ _ hn =>
    have hends := number_endsAfter c
    rw [hn] at hends
    exact hends
  | bracketed hp _ ih | vector hp _ _ ih => exact (later_inside hp).trans ih
  | special _ _ _ _ hs => simp [Reading.special?, hr] at hs
  | name _ _ _ _ _ hn => exact later_name? hn
  | group _ _ ha ih => exact ih.trans ((later_accept? ha).trans (later_shallower _))
  | @empty _ c => exact (later_fill c).trans ((later_advance _).trans (later_shallower _))
  | @final _ _ _ d _ _ _ _ _ ih => exact ih.trans ((later_advance d).trans (later_shallower _))
  | @next _ _ _ d _ _ _ _ _ _ _ _ ih ih' => exact ih.trans ((later_advance d).trans ih')
  | @closure _ c d _ _ _ _ hn _ _ ih =>
    have hends := closureParams_endsAfter (c.size + 1) c
    rw [hn _ (Nat.lt_succ_self _)] at hends
    exact (later_fill c).trans (hends.trans ((later_shallower d).trans ih))
  | @call _ c _ _ _ _ hp _ _ ih ih' | @subscript _ c _ _ _ _ hp _ _ ih ih' =>
    exact (later_skipBlanks c).trans ((later_inside hp).trans (ih.trans ih'))
  | @done _ c => exact later_skipBlanks c

end Cursor

end Reckon
