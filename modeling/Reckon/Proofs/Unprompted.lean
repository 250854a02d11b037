import Reckon.Proofs.Continuation
import Reckon.Statement

namespace Reckon

/-- Reading was refused because the text ended too early. -/
def EndsEarly {α : Type} (x : Except Failed α) : Prop :=
  ∃ col used, x = .error ⟨.error ⟨.earlyEnd, col⟩, used⟩

theorem not_endsEarly_of_ok {α : Type} {x : Except Failed α} {a : α} (h : x = .ok a) :
    ¬EndsEarly x := by
  rintro ⟨col, used, he⟩
  cases h.symm.trans he

theorem EndsEarly.bind {α β : Type} {x : Except Failed α} {f : α → Except Failed β}
    (h : EndsEarly x) : EndsEarly (x >>= f) := by
  obtain ⟨col, used, rfl⟩ := h
  exact ⟨col, used, rfl⟩

namespace Cursor

/-- The same place with lines at hand, none of which has been used. -/
def offered (lines : List (List Char)) (c : Cursor) : Cursor := { c with lines, used := 0 }

/-- With lines at hand the same is read up to the same place, or refused with the same error, and
no line is used. -/
inductive Untouched {α : Type} (lines : List (List Char)) :
    Except Failed (α × Cursor) → Except Failed (α × Cursor) → Prop
  | ok (a : α) (c : Cursor) : Untouched lines (.ok (a, c.offered lines)) (.ok (a, c.offered []))
  | error (stop : Stop) : Untouched lines (.error ⟨stop, 0⟩) (.error ⟨stop, 0⟩)

/-- Lines at hand are left untouched, unless the text without them ends early or the fuel runs
out. -/
def Unprompted {α : Type} (lines : List (List Char)) (x y : Except Failed (α × Cursor)) : Prop :=
  ¬Spent x → ¬Spent y → ¬EndsEarly y → Untouched lines x y

/-- From every place the first reader, with lines at hand, reads what the second reads without. -/
def Unpromptedly {α : Type} (lines : List (List Char))
    (f g : Cursor → Except Failed (α × Cursor)) : Prop :=
  ∀ c : Cursor, Unprompted lines (f (c.offered lines)) (g (c.offered []))

variable {lines : List (List Char)} {c : Cursor}

@[simp] theorem peek_offered : (c.offered lines).peek = c.peek := rfl

@[simp] theorem atEnd_offered : (c.offered lines).atEnd = c.atEnd := rfl

@[simp] theorem depth_offered : (c.offered lines).depth = c.depth := rfl

@[simp] theorem skipBlanks_offered :
    (c.offered lines).skipBlanks = c.skipBlanks.offered lines := rfl

@[simp] theorem factorials_offered (v : Value) :
    factorials v (c.offered lines) = ((factorials v c).1, (factorials v c).2.offered lines) := rfl

@[simp] theorem deeper_offered : (c.offered lines).deeper = c.deeper.offered lines := rfl

@[simp] theorem shallower_offered : (c.offered lines).shallower = c.shallower.offered lines := rfl

@[simp] theorem advance_offered : (c.offered lines).advance = c.advance.offered lines := by
  cases h : c.rest <;> simp [advance, offered, h]

@[simp] theorem accept?_offered (ch : Char) :
    (c.offered lines).accept? ch = (c.accept? ch).map (offered lines) := by
  unfold accept?
  rw [peek_offered, advance_offered]
  split <;> rfl

@[simp] theorem name?_offered :
    (c.offered lines).name? = c.name?.map fun (name, d) => (name, d.offered lines) := by
  simp only [name?, Option.map_map]
  rfl

theorem fill_offered_nil (c : Cursor) : (c.offered []).fill = c.skipBlanks.offered [] :=
  fill_settled fun _ => .inr rfl

/-- No line is brought in where the text goes on, nor outside brackets. -/
theorem fill_offered (lines : List (List Char)) (h : c.skipBlanks.atEnd = true → c.depth = 0) :
    (c.offered lines).fill = c.skipBlanks.offered lines :=
  fill_settled fun hrest => .inl (h (List.isEmpty_iff.mpr hrest))

theorem badChar_atEnd (h : c.atEnd = true) : c.badChar = c.earlyEnd := by
  have hpeek : c.peek = none := by simp [peek, List.isEmpty_iff.mp h]
  simp [badChar, hpeek]

theorem endsEarly_earlyEnd {α : Type} (c : Cursor) :
    EndsEarly (.error (c.failWith c.earlyEnd) : Except Failed α) := ⟨c.col, c.used, rfl⟩

namespace Unprompted

variable {α β : Type} {x y : Except Failed (α × Cursor)}

theorem ok (a : α) (c : Cursor) :
    Unprompted lines (.ok (a, c.offered lines)) (.ok (a, c.offered [])) :=
  fun _ _ _ => .ok a c

theorem fails (e : Error) (c : Cursor) : Unprompted lines
    (.error ((c.offered lines).failWith e) : Except Failed (α × Cursor))
    (.error ((c.offered []).failWith e)) :=
  fun _ _ _ => .error (.error e)

theorem of_endsEarly (h : EndsEarly y) : Unprompted lines x y := fun _ _ he => absurd h he

theorem spent_left (used : Nat) : Unprompted lines (.error ⟨.outOfFuel, used⟩) y :=
  fun hx => absurd ⟨used, rfl⟩ hx

theorem spent_right (used : Nat) : Unprompted lines x (.error ⟨.outOfFuel, used⟩) :=
  fun _ hy => absurd ⟨used, rfl⟩ hy

/-- Lines are brought in only where the text ends inside brackets. -/
theorem of_fill (c : Cursor) (hend : c.skipBlanks.atEnd = true → c.depth ≠ 0 → EndsEarly y)
    (h : (c.offered lines).fill = c.skipBlanks.offered lines → Unprompted lines x y) :
    Unprompted lines x y := by
  by_cases hinside : c.skipBlanks.atEnd = true ∧ c.depth ≠ 0
  · exact .of_endsEarly (hend hinside.1 hinside.2)
  · exact h (fill_offered lines fun he => by simpa [he] using hinside)

theorem bind {f g : α × Cursor → Except Failed (β × Cursor)} (h : Unprompted lines x y)
    (hf : ∀ (a : α) (c : Cursor), Unprompted lines (f (a, c.offered lines)) (g (a, c.offered []))) :
    Unprompted lines (x >>= f) (y >>= g) := by
  intro hx hy he
  have hxspent : ¬Spent x := by
    rintro ⟨used, rfl⟩
    exact hx ⟨used, rfl⟩
  have hyspent : ¬Spent y := by
    rintro ⟨used, rfl⟩
    exact hy ⟨used, rfl⟩
  cases h hxspent hyspent fun hearly => he hearly.bind with
  | ok a c => exact hf a c hx hy he
  | error stop => exact .error stop

end Unprompted

theorem binaryOp_unprompted (t : Terminators) :
    Unpromptedly lines (binaryOp t) (binaryOp t) := by
  intro c
  unfold binaryOp
  rw [fill_offered_nil]
  refine .of_fill c (fun hend hdepth => ?_) fun hfill => ?_
  · have hpeek : c.skipBlanks.peek = none := by simp [peek, List.isEmpty_iff.mp hend]
    have hdepth : c.skipBlanks.depth > 0 := Nat.pos_of_ne_zero hdepth
    simp only [peek_offered, hpeek, depth_offered, hdepth, ↓reduceIte]
    exact endsEarly_earlyEnd _
  · rw [hfill]
    simp only [peek_offered, depth_offered, advance_offered]
    cases c.skipBlanks.peek with
    | none =>
      by_cases hdepth : c.skipBlanks.depth > 0
      · simp only [hdepth, ↓reduceIte]
        exact .fails _ _
      · simp only [hdepth, ↓reduceIte]
        exact .ok none _
    | some ch =>
      dsimp only
      split
      · exact .ok none _
      · cases operator? ch with
        | some op => exact .ok (some op) _
        | none =>
          dsimp only
          split
          · exact .ok (some Op.mul) _
          · exact .fails _ _

theorem number_unprompted : Unpromptedly lines number number := by
  intro c
  unfold number
  cases h : Token.number? c.rest with
  | none => simp only [offered, h]; exact .fails _ c
  | some p => simp only [offered, h]; exact .ok p.1 (c.advanceBy p.2)

/-- After a comma the end of the text is a character that cannot stand there, so an early end. -/
theorem after_comma_unprompted {n m : Nat} {names : List String}
    (h : Unpromptedly lines (params n names) (params m names)) :
    Unpromptedly lines
      (fun c => if c.fill.atEnd then .error (c.fill.failWith c.fill.badChar)
        else params n names c.fill)
      (fun c => if c.fill.atEnd then .error (c.fill.failWith c.fill.badChar)
        else params m names c.fill) := by
  intro c
  dsimp only
  rw [fill_offered_nil]
  refine .of_fill c (fun hend _ => ?_) fun hfill => ?_
  · have hbare : (c.skipBlanks.offered []).atEnd = true := hend
    rw [if_pos hbare, badChar_atEnd hbare]
    exact endsEarly_earlyEnd _
  · rw [hfill]
    simp only [atEnd_offered]
    by_cases hend : c.skipBlanks.atEnd = true
    · simp only [hend, ↓reduceIte]
      exact .fails _ _
    · simp only [hend, Bool.false_eq_true, ↓reduceIte]
      exact h c.skipBlanks

theorem params_unprompted (n m : Nat) (names : List String) :
    Unpromptedly lines (params n names) (params m names) := by
  induction n generalizing m names with
  | zero => exact fun _ => .spent_left _
  | succ n ih =>
    intro c
    cases m with
    | zero => exact .spent_right _
    | succ m =>
      unfold params
      rw [name?_offered, name?_offered]
      cases c.name? with
      | none => exact .fails _ c
      | some p =>
        obtain ⟨name, d⟩ := p
        dsimp only [Option.map_some]
        rw [fill_offered_nil]
        refine .of_fill d (fun hend _ => ?_) fun hfill => ?_
        · simp only [atEnd_offered, hend, ↓reduceIte]
          exact endsEarly_earlyEnd _
        · rw [hfill]
          simp only [atEnd_offered, accept?_offered]
          by_cases hend : d.skipBlanks.atEnd = true
          · simp only [hend, ↓reduceIte]
            exact .fails _ _
          · simp only [hend, Bool.false_eq_true, ↓reduceIte]
            cases d.skipBlanks.accept? '|' with
            | some e => exact .ok _ e
            | none =>
              cases d.skipBlanks.accept? ',' with
              | none => exact .fails _ _
              | some e => exact after_comma_unprompted (ih m _) e

theorem closureParams_unprompted (n m : Nat) :
    Unpromptedly lines (closureParams n) (closureParams m) := by
  intro c
  unfold closureParams
  rw [fill_offered_nil]
  refine .of_fill c (fun hend _ => ?_) fun hfill => ?_
  · simp only [atEnd_offered, hend, ↓reduceIte]
    exact endsEarly_earlyEnd _
  · rw [hfill]
    simp only [atEnd_offered, accept?_offered]
    by_cases hend : c.skipBlanks.atEnd = true
    · simp only [hend, ↓reduceIte]
      exact .fails _ _
    · simp only [hend, Bool.false_eq_true, ↓reduceIte]
      cases c.skipBlanks.accept? '|' with
      | some d => exact .ok _ d
      | none => exact params_unprompted n m [] c.skipBlanks

/-- What is read without special syntax, with some fuel, leaves the lines at hand untouched. -/
structure Indifferent (lines : List (List Char)) (r r' : Reading) (n : Nat) : Prop where
  expr : ∀ m t s, Unpromptedly lines (exprFrom r n t s) (exprFrom r' m t s)
  primary : ∀ m t, Unpromptedly lines (Cursor.primary r n t) (Cursor.primary r' m t)
  atom : ∀ m, Unpromptedly lines (Cursor.atom r n) (Cursor.atom r' m)
  group : ∀ m close, Unpromptedly lines (Cursor.group r n close) (Cursor.group r' m close)
  list : ∀ m close first,
    Unpromptedly lines (Cursor.list r n close first) (Cursor.list r' m close first)
  closure : ∀ m t, Unpromptedly lines (Cursor.closure r n t) (Cursor.closure r' m t)
  postfixes : ∀ m v, Unpromptedly lines (Cursor.postfixes r n v) (Cursor.postfixes r' m v)

namespace Indifferent

variable {r r' : Reading} {n : Nat} (h : Indifferent lines r r' n)
include h

theorem after_operand (m : Nat) (t : Terminators) (s : Spine) (v : Value) :
    Unpromptedly lines
      (fun c => do match ← binaryOp t c with
        | (none, c) => .ok (some (s.close v), c)
        | (some op, c) => exprFrom r n t (s.insert op v) c)
      (fun c => do match ← binaryOp t c with
        | (none, c) => .ok (some (s.close v), c)
        | (some op, c) => exprFrom r' m t (s.insert op v) c) := by
  intro c
  refine (binaryOp_unprompted t c).bind fun op d => ?_
  cases op with
  | none => exact .ok _ d
  | some op => exact h.expr m t _ d

theorem expr_succ (m : Nat) (t : Terminators) (s : Spine) :
    Unpromptedly lines (exprFrom r (n + 1) t s) (exprFrom r' m t s) := by
  intro c
  cases m with
  | zero => exact .spent_right _
  | succ m =>
    unfold exprFrom
    rw [fill_offered_nil]
    refine .of_fill c (fun hend hdepth => ?_) fun hfill => ?_
    · have hinside : c.skipBlanks.depth > 0 ∨ s ≠ [] := .inl (Nat.pos_of_ne_zero hdepth)
      simp only [atEnd_offered, depth_offered, hend, hinside, ↓reduceIte]
      exact endsEarly_earlyEnd _
    · rw [hfill]
      simp only [atEnd_offered, depth_offered, accept?_offered]
      by_cases hend : c.skipBlanks.atEnd = true
      · simp only [hend, ↓reduceIte]
        by_cases hopen : c.skipBlanks.depth > 0 ∨ s ≠ []
        · simp only [hopen, ↓reduceIte]
          exact .fails _ _
        · simp only [hopen, ↓reduceIte]
          exact .ok none _
      · simp only [hend, Bool.false_eq_true, ↓reduceIte]
        cases c.skipBlanks.accept? '-' with
        | some d => exact h.expr m t _ d
        | none =>
          refine (h.primary m t c.skipBlanks).bind fun v d => ?_
          cases v with
          | none =>
            by_cases hs : s = []
            · simp only [hs, ↓reduceIte]
              exact .ok none d
            · simp only [hs, ↓reduceIte]
              exact .fails _ d
          | some v => exact h.after_operand m t s v d

theorem primary_succ (m : Nat) (t : Terminators) :
    Unpromptedly lines (Cursor.primary r (n + 1) t) (Cursor.primary r' m t) := by
  intro c
  cases m with
  | zero => exact .spent_right _
  | succ m =>
    unfold Cursor.primary
    simp only [peek_offered, advance_offered, deeper_offered]
    by_cases hstop : c.peek.any t.stopAt = true
    · simp only [hstop, ↓reduceIte]
      exact .ok none c
    · simp only [hstop, Bool.false_eq_true, ↓reduceIte]
      by_cases hbar : c.peek = some '|'
      · simp only [hbar, ↓reduceIte]
        exact (h.closure m t c.advance.deeper).bind fun v d => .ok (some v) d
      · simp only [hbar, ↓reduceIte]
        refine (h.atom m c).bind fun v d => ?_
        dsimp only
        by_cases htakes : takesPostfix v = true
        · simp only [htakes, ↓reduceIte]
          refine (h.postfixes m v d).bind fun w e => ?_
          exact .ok (some (factorials w e).1) (factorials w e).2
        · simp only [htakes, Bool.false_eq_true, ↓reduceIte]
          exact .ok (some (factorials v d).1) (factorials v d).2

theorem group_succ (m : Nat) (close : Char) :
    Unpromptedly lines (Cursor.group r (n + 1) close) (Cursor.group r' m close) := by
  intro c
  cases m with
  | zero => exact .spent_right _
  | succ m =>
    unfold Cursor.group
    refine (h.expr m _ [] c).bind fun v d => ?_
    cases v with
    | none => exact .fails _ d
    | some v =>
      simp only [accept?_offered]
      cases d.accept? close with
      | none => exact .fails _ d
      | some e => exact .ok v e.shallower

theorem list_succ (m : Nat) (close : Char) (first : Bool) :
    Unpromptedly lines (Cursor.list r (n + 1) close first) (Cursor.list r' m close first) := by
  intro c
  cases m with
  | zero => exact .spent_right _
  | succ m =>
    unfold Cursor.list
    refine (h.expr m _ [] c).bind fun v d => ?_
    cases v with
    | none =>
      simp only [peek_offered, advance_offered, shallower_offered]
      by_cases hclose : d.peek = some close ∧ first = true
      · simp only [hclose, and_self, ↓reduceIte]
        exact .ok [] _
      · simp only [hclose, ↓reduceIte]
        exact .fails _ d
    | some v =>
      simp only [peek_offered, advance_offered, shallower_offered]
      by_cases hclose : d.peek = some close
      · simp only [hclose, ↓reduceIte]
        exact .ok [v] _
      · simp only [hclose, ↓reduceIte]
        exact (h.list m close false _).bind fun vs e => .ok (v :: vs) e

theorem closure_succ (m : Nat) (t : Terminators) :
    Unpromptedly lines (Cursor.closure r (n + 1) t) (Cursor.closure r' m t) := by
  intro c
  cases m with
  | zero => exact .spent_right _
  | succ m =>
    unfold Cursor.closure
    refine (closureParams_unprompted n m c).bind fun names d => ?_
    refine (h.expr m t [] d.shallower).bind fun v e => ?_
    cases v with
    | none => exact .fails _ e
    | some v => exact .ok _ e

theorem postfixes_succ (m : Nat) (v : Value) :
    Unpromptedly lines (Cursor.postfixes r (n + 1) v) (Cursor.postfixes r' m v) := by
  intro c
  cases m with
  | zero => exact .spent_right _
  | succ m =>
    unfold Cursor.postfixes
    simp only [skipBlanks_offered, peek_offered, advance_offered, deeper_offered]
    by_cases hcall : c.skipBlanks.peek = some '('
    · simp only [hcall, ↓reduceIte]
      exact (h.list m ')' true _).bind fun args d => h.postfixes m _ d
    · simp only [hcall, ↓reduceIte]
      by_cases hindex : c.skipBlanks.peek = some '['
      · simp only [hindex, ↓reduceIte]
        exact (h.group m ']' _).bind fun i d => h.postfixes m _ d
      · simp only [hindex, ↓reduceIte]
        exact .ok v _

theorem atom_succ (hr : r.specials = []) (hr' : r'.specials = []) (m : Nat) :
    Unpromptedly lines (Cursor.atom r (n + 1)) (Cursor.atom r' m) := by
  intro c
  cases m with
  | zero => exact .spent_right _
  | succ m =>
    unfold Cursor.atom
    simp only [peek_offered, advance_offered, deeper_offered, name?_offered]
    cases c.peek with
    | none => exact .fails _ c
    | some ch =>
      have hspecial : r.special? ch = none ∧ r'.special? ch = none := by
        simp [Reading.special?, hr, hr']
      simp only [hspecial]
      by_cases hnumber : ch.isDigit = true ∨ ch = '.'
      · simp only [hnumber, ↓reduceIte]
        exact (number_unprompted c).bind fun x d => .ok _ d
      · simp only [hnumber, ↓reduceIte]
        by_cases hgroup : ch = '('
        · simp only [hgroup, ↓reduceIte]
          exact h.group m ')' _
        · simp only [hgroup, ↓reduceIte]
          by_cases hvector : ch = '<'
          · simp only [hvector, ↓reduceIte]
            refine (h.list m '>' true _).bind fun elems d => ?_
            dsimp only
            by_cases hshort : elems.length < 2
            · simp only [hshort, ↓reduceIte]
              exact .fails _ d
            · simp only [hshort, ↓reduceIte]
              exact .ok _ d
          · simp only [hvector, ↓reduceIte]
            cases c.name? with
            | none => exact .fails _ c
            | some p => exact .ok _ p.2

end Indifferent

theorem indifferent {r r' : Reading} (hr : r.specials = []) (hr' : r'.specials = []) (n : Nat) :
    Indifferent lines r r' n := by
  induction n with
  | zero =>
    constructor
    all_goals
      intros
      exact fun _ => .spent_left _
  | succ n ih => exact {
      expr := ih.expr_succ
      primary := ih.primary_succ
      atom := ih.atom_succ hr hr'
      group := ih.group_succ
      list := ih.list_succ
      closure := ih.closure_succ
      postfixes := ih.postfixes_succ }

/-- Without special syntax no line at hand is touched, unless the text without them ends early. -/
theorem expr_untouched {r r' : Reading} (hr : r.specials = []) (hr' : r'.specials = [])
    (he : ¬EndsEarly ((c.offered []).expr r')) :
    Untouched lines ((c.offered lines).expr r) ((c.offered []).expr r') :=
  (indifferent hr hr' _).expr _ {} [] c (not_spent_of_refuses (expr_refuses hr _))
    (not_spent_of_refuses (expr_refuses hr' _)) he

end Cursor

/-- What becomes of what was read does not depend on lines that were not touched. -/
theorem Cursor.Untouched.finish {α β : Type} {lines : List (List Char)}
    {x y : Except Failed (α × Cursor)} (h : Untouched lines x y)
    {f : α × Cursor → Except Failed (Read β)}
    (hf : ∀ (a : α) (c : Cursor), f (a, c.offered lines) = f (a, c.offered []) ∧
      Read.linesUsed (f (a, c.offered lines)) = 0) :
    (x >>= f) = (y >>= f) ∧ Read.linesUsed (x >>= f) = 0 := by
  cases h with
  | ok a c => exact hf a c
  | error stop => exact ⟨rfl, rfl⟩

namespace Reading

variable {src : String}

theorem parse_untouched (lines : List String) (h : ¬EndsEarly (Reading.parse {} src)) :
    Reading.parse { lines } src = Reading.parse {} src ∧
      Read.linesUsed (Reading.parse { lines } src) = 0 := by
  have huntouched : Cursor.Untouched (lines.map String.toList)
      ((Cursor.atStart src.toList (lines.map String.toList)).expr { lines })
      ((Cursor.atStart src.toList []).expr {}) :=
    Cursor.expr_untouched (c := .atStart src.toList []) rfl rfl fun he => h he.bind
  refine huntouched.finish fun v c => ?_
  cases v <;> exact ⟨rfl, rfl⟩

theorem statement_untouched (lines : List String) (h : ¬EndsEarly (Reading.statement {} src)) :
    Reading.statement { lines } src = Reading.statement {} src ∧
      Read.linesUsed (Reading.statement { lines } src) = 0 := by
  unfold statement at h ⊢
  dsimp only at h ⊢
  by_cases hblank : (Cursor.atStart src.toList []).skipBlanks.atEnd = true
  · rw [if_pos hblank, if_pos hblank]
    exact ⟨rfl, rfl⟩
  · rw [if_neg hblank] at h ⊢
    rw [if_neg hblank]
    cases htilde : (Cursor.atStart src.toList []).skipBlanks.accept? '~' with
    | some c =>
      dsimp only
      cases c.deletion <;> exact ⟨rfl, rfl⟩
    | none =>
      simp only [htilde] at h ⊢
      cases hsplit : splitAssignment src.toList with
      | none =>
        simp only [hsplit] at h ⊢
        obtain ⟨hsame, hused⟩ := parse_untouched lines fun he => h he.bind
        rw [hsame] at hused ⊢
        refine ⟨rfl, ?_⟩
        cases hparse : Reading.parse {} src with
        | ok v => exact (congrArg Read.linesUsed hparse).symm.trans hused
        | error f => exact (congrArg Read.linesUsed hparse).symm.trans hused
      | some p =>
        simp only [hsplit] at h ⊢
        cases htarget : (Cursor.atStart p.1 []).target with
        | error e => exact ⟨rfl, rfl⟩
        | ok target =>
          simp only [htarget] at h ⊢
          let start : Cursor := { passed := '=' :: p.1.reverse, rest := p.2 }
          have huntouched : Cursor.Untouched (lines.map String.toList)
              ((start.offered (lines.map String.toList)).expr { lines })
              ((start.offered []).expr {}) :=
            Cursor.expr_untouched rfl rfl fun he => h he.bind
          refine huntouched.finish fun v c => ?_
          cases v <;> exact ⟨rfl, rfl⟩

end Reading

/-- Unless a text is refused for ending too early, lines at hand make no difference to what it is
read as, be it as an expression or as a statement, and none of them is used. -/
theorem reading_leaves_lines_untouched (src : String) (lines : List String) :
    (¬EndsEarly (Reading.parse {} src) →
      Reading.parse { lines } src = Reading.parse {} src ∧
        Read.linesUsed (Reading.parse { lines } src) = 0) ∧
    (¬EndsEarly (Reading.statement {} src) →
      Reading.statement { lines } src = Reading.statement {} src ∧
        Read.linesUsed (Reading.statement { lines } src) = 0) :=
  ⟨Reading.parse_untouched lines, Reading.statement_untouched lines⟩

theorem vector_leaves_lines_untouched :
    let lines := ["+ z", ")"]
    (Reading.parse { lines } "<x,\n y>" = .ok ⟨.vector [.var "x", .var "y"], 0⟩ ∧
      Read.linesUsed (Reading.parse { lines } "<x,\n y>") = 0) ∧
    (Reading.statement { lines } "v *= <x,\n y>" =
        .ok ⟨.assign "v" (.binary .mul (.var "v") (.vector [.var "x", .var "y"])), 0⟩ ∧
      Read.linesUsed (Reading.statement { lines } "v *= <x,\n y>") = 0) := by
  intro lines
  have hparse : Reading.parse {} "<x,\n y>" = .ok ⟨.vector [.var "x", .var "y"], 0⟩ := by cbv
  have hstatement : Reading.statement {} "v *= <x,\n y>" =
      .ok ⟨.assign "v" (.binary .mul (.var "v") (.vector [.var "x", .var "y"])), 0⟩ := by
    have hsplit : splitAssignment "v *= <x,\n y>".toList =
      some ("v *".toList, " <x,\n y>".toList) := by cbv
    unfold Reading.statement
    rw [hsplit]
    cbv
  have hexpr := (reading_leaves_lines_untouched "<x,\n y>" lines).1 (not_endsEarly_of_ok hparse)
  have hline := (reading_leaves_lines_untouched "v *= <x,\n y>" lines).2
    (not_endsEarly_of_ok hstatement)
  rw [hparse] at hexpr
  rw [hstatement] at hline
  exact ⟨hexpr, hline⟩

end Reckon
