import Mathlib
import Reckon.Proofs.LineBreaks

namespace Reckon

namespace Cursor

/-- What was read, be it with a result or with an error, uses `k` lines. -/
def Uses {α : Type} (k : Nat) : Except Failed (α × Cursor) → Prop
  | .ok (_, d) => CanUse k d
  | .error f => f.used = k

def Spent {α : Type} (x : Except Failed α) : Prop := ∃ used, x = .error ⟨.outOfFuel, used⟩

/-- The same is read in both texts up to places in a relation, or refused with the same error. -/
def Alike {α : Type} (R : α → Cursor → Cursor → Prop) :
    Except Failed (α × Cursor) → Except Failed (α × Cursor) → Prop
  | .ok (a, c), y => ∃ d, y = .ok (a, d) ∧ R a c d
  | .error f, y => y = .error ⟨f.stop, 0⟩

/-- Text that uses `k` lines is read as the one text is, unless the fuel runs out. -/
def Agrees {α : Type} (k : Nat) (R : α → Cursor → Cursor → Prop)
    (x y : Except Failed (α × Cursor)) : Prop :=
  Uses k x → ¬Spent x → ¬Spent y → Alike R x y

/-- An expression or operand that is absent leaves both texts before the same character. -/
def Absent {α : Type} (k : Nat) (R : Cursor → Cursor → Prop) : Option α → Cursor → Cursor → Prop
  | none => Meets k
  | some _ => R

theorem EndsAfter.canUse {α : Type} {k : Nat} {c : Cursor} {x : Except Failed (α × Cursor)}
    (h : EndsAfter c x) (hx : Uses k x) : CanUse k c := by
  cases x with
  | ok p => exact hx.of_later h
  | error f =>
    obtain ⟨d, hd, hu⟩ := h
    have hk : d.used = k := hu.symm.trans hx
    exact CanUse.of_later ⟨Nat.le_of_eq hk, fun _ => hk⟩ hd

namespace Agrees

variable {α β : Type} {k : Nat} {c d : Cursor} {x y : Except Failed (α × Cursor)}
  {R : α → Cursor → Cursor → Prop}

theorem of_canUse (hx : EndsAfter c x) (h : CanUse k c → Agrees k R x y) : Agrees k R x y :=
  fun hu => h (hx.canUse hu) hu

theorem ok {a : α} (h : CanUse k c → R a c d) : Agrees k R (.ok (a, c)) (.ok (a, d)) :=
  fun hu _ _ => ⟨d, rfl, h hu⟩

theorem fails (e : Error) :
    Agrees k R (.error (c.failWith e)) (.error ((c.whole k).failWith e)) :=
  fun _ _ _ => rfl

/-- Where reading fails all lines have been used, so nothing is ahead. -/
theorem badChar : Agrees k R (.error (c.failWith c.badChar))
    (.error ((c.whole k).failWith (c.whole k).badChar)) := by
  intro hu _ _
  have hsame := badChar_whole (peek_whole fun _ => ahead_of_used (c := c) hu)
  rw [hsame]
  rfl

theorem spent_left (used : Nat) : Agrees k R (.error ⟨.outOfFuel, used⟩) y :=
  fun _ hx => absurd ⟨used, rfl⟩ hx

theorem spent_right (used : Nat) : Agrees k R x (.error ⟨.outOfFuel, used⟩) :=
  fun _ _ hy => absurd ⟨used, rfl⟩ hy

theorem bind {Q : β → Cursor → Cursor → Prop} {f g : α × Cursor → Except Failed (β × Cursor)}
    (h : Agrees k R x y) (hends : ∀ a c, x = .ok (a, c) → EndsAfter c (f (a, c)))
    (hf : ∀ a c d, x = .ok (a, c) → R a c d → Agrees k Q (f (a, c)) (g (a, d))) :
    Agrees k Q (x >>= f) (y >>= g) := by
  intro hu hx hy
  have hyspent : ¬Spent y := by
    rintro ⟨used, rfl⟩
    exact hy ⟨used, rfl⟩
  cases x with
  | error e =>
    have hxspent : ¬Spent (.error e : Except Failed (α × Cursor)) := by
      rintro ⟨used, he⟩
      cases he
      exact hx ⟨used, rfl⟩
    have hsame : y = .error ⟨e.stop, 0⟩ := h hu hxspent hyspent
    rw [hsame]
    rfl
  | ok p =>
    -- How many lines the first part may use is known only from what the second part used.
    obtain ⟨a, c⟩ := p
    obtain ⟨d, rfl, hd⟩ := h ((hends a c rfl).canUse hu) (fun ⟨_, he⟩ => nomatch he) hyspent
    exact hf a c d rfl hd hu hx hy

end Agrees

variable {k : Nat} {c d : Cursor}

theorem Meets.nears (h : Meets k c d) : Nears k c d := by
  rw [h.1]
  rfl

@[simp] theorem depth_whole (k : Nat) (c : Cursor) : (c.whole k).depth = c.depth := rfl

theorem atEnd_whole (h : (c.whole k).peek = c.peek) : (c.whole k).atEnd = c.atEnd := by
  have hpeek : ∀ d : Cursor, d.atEnd = d.peek.isNone := by
    intro d
    cases hd : d.rest <;> simp [atEnd, peek, hd]
  rw [hpeek, hpeek, h]

theorem binaryOp_agrees (t : Terminators) (h : Nears k c d) :
    Agrees k (Absent k fun c d => d = c.whole k) (binaryOp t c) (binaryOp t d) := by
  refine .of_canUse (binaryOp_endsAfter t c) fun hcan => ?_
  obtain ⟨hfill, hpeek⟩ := fill_whole hcan
  unfold binaryOp
  rw [h.fill, hfill]
  dsimp only
  rw [hpeek]
  split
  · split
    · next hd => exact (if_pos hd).symm ▸ .fails _
    · next hd => exact (if_neg hd).symm ▸ .ok fun _ => ⟨rfl, hpeek⟩
  · split
    · exact .ok fun _ => ⟨rfl, hpeek⟩
    · split
      · exact .ok fun _ => advance_whole hpeek
      · split
        · exact .ok fun _ => rfl
        · exact .badChar

/-- The same factorial signs are read in both texts, unless the next line begins with one. -/
theorem factorials_agrees (v : Value) (h : Nears k c d)
    (hbang : (factorials v c).2.atEnd = true → (factorials v c).2.fill.peek ≠ some '!') :
    Agrees k (Absent k (Nears k)) (.ok (some (factorials v c).1, (factorials v c).2))
      (.ok (some (factorials v d).1, (factorials v d).2)) := by
  refine .of_canUse (Later.refl (factorials v c).2) fun hcan => ?_
  obtain ⟨hcount, hplace⟩ := skipBangs_whole (k := k) (c := c) fun hend hpeek =>
    hbang (List.isEmpty_iff.mpr hend) (hcan.peek_fill hend hpeek)
  rw [← h.skipBangs] at hcount hplace
  have hvalue : (factorials v d).1 = (factorials v c).1 :=
    congrArg (fun n => n.repeat (Value.unary .fact) v) hcount
  rw [hvalue]
  exact .ok fun _ => hplace

theorem number_agrees (k : Nat) (c : Cursor) :
    Agrees k (fun _ c d => d = c.whole k) c.number (c.whole k).number := by
  have hsame : Token.number? (c.whole k).rest = Token.number? c.rest :=
    Token.number?_apart (ahead_breaksOff k c).apart c.rest
  unfold number
  rw [hsame]
  split
  · next hn => exact .ok fun _ => advanceBy_whole (Token.number?_le hn)
  · exact .badChar

theorem params_agrees (n m : Nat) (names : List String) (c : Cursor) :
    Agrees k (fun _ c d => d = c.whole k) (params n names c) (params m names (c.whole k)) := by
  induction n generalizing m names c with
  | zero => exact .spent_left _
  | succ n ih =>
    cases m with
    | zero => exact .spent_right _
    | succ m =>
      unfold params
      rw [name?_whole]
      cases hname : c.name? with
      | none => exact .badChar
      | some p =>
        obtain ⟨name, d⟩ := p
        refine .of_canUse (after_param (params_endsAfter n) _ d) fun hcan => ?_
        obtain ⟨hfill, hpeek⟩ := fill_whole hcan
        simp only [Option.map_some, hfill, atEnd_whole hpeek, accept?_whole hpeek]
        split
        · exact .fails _
        · cases hbar : d.fill.accept? '|' with
          | some e => exact .ok fun _ => rfl
          | none =>
            cases hcomma : d.fill.accept? ',' with
            | none => exact .badChar
            | some e =>
              refine .of_canUse (after_comma (params_endsAfter n) _ e) fun hcan => ?_
              obtain ⟨hfill, hpeek⟩ := fill_whole hcan
              simp only [Option.map_some, hfill, atEnd_whole hpeek]
              split
              · exact .badChar
              · exact ih m _ e.fill

theorem closureParams_agrees (n m : Nat) (c : Cursor) :
    Agrees k (fun _ c d => d = c.whole k) (closureParams n c) (closureParams m (c.whole k)) := by
  refine .of_canUse (closureParams_endsAfter n c) fun hcan => ?_
  obtain ⟨hfill, hpeek⟩ := fill_whole hcan
  unfold closureParams
  simp only [hfill, atEnd_whole hpeek, accept?_whole hpeek]
  split
  · exact .fails _
  · cases hbar : c.fill.accept? '|' with
    | some d => exact .ok fun _ => rfl
    | none => exact params_agrees n m [] c.fill

/-- What is read without special syntax, with some fuel, uses the same text either way. -/
structure Mirrored (k : Nat) (r r' : Reading) (n : Nat) : Prop where
  expr : ∀ m t s c, ¬Torn r (.terms t) c →
    Agrees k (fun _ => Meets k) (exprFrom r n t s c) (exprFrom r' m t s (c.whole k))
  primary : ∀ m t c, c.rest ≠ [] → ¬Torn r (.primary t) c →
    Agrees k (Absent k (Nears k)) (Cursor.primary r n t c) (Cursor.primary r' m t (c.whole k))
  atom : ∀ m c, c.rest ≠ [] → ¬Torn r .atom c →
    Agrees k (fun _ c d => d = c.whole k) (Cursor.atom r n c) (Cursor.atom r' m (c.whole k))
  group : ∀ m close c, ¬Torn r (.group close) c → Agrees k (fun _ c d => d = c.whole k)
    (Cursor.group r n close c) (Cursor.group r' m close (c.whole k))
  list : ∀ m close first c, ¬Torn r (.list close first) c → Agrees k (fun _ c d => d = c.whole k)
    (Cursor.list r n close first c) (Cursor.list r' m close first (c.whole k))
  closure : ∀ m t c, ¬Torn r (.closure t) c →
    Agrees k (fun _ => Meets k) (Cursor.closure r n t c) (Cursor.closure r' m t (c.whole k))
  postfixes : ∀ m v c, ¬Torn r (.postfixes v) c →
    Agrees k (fun _ => Nears k) (Cursor.postfixes r n v c) (Cursor.postfixes r' m v (c.whole k))

/-- Where the text ends after a value, the one text may go on, but only with blanks and a sign of
something else: a bracket would have severed the value. -/
theorem postfixes_agrees_end {r r' : Reading} (n m : Nat) (v : Value)
    (hrest : c.skipBlanks.rest = []) (ht : ¬Torn r (.postfixes v) c) : Agrees k (fun _ => Nears k)
      (Cursor.postfixes r (n + 1) v c) (Cursor.postfixes r' (m + 1) v (c.whole k)) := by
  have hpeek : c.skipBlanks.peek = none := by simp [peek, hrest]
  have hdone : Reads r (.postfixes v) c (.value v) c.skipBlanks :=
    .done (by simp [hpeek]) (by simp [hpeek])
  unfold Cursor.postfixes
  dsimp only
  rw [if_neg (by simp [hpeek]), if_neg (by simp [hpeek])]
  refine .of_canUse (Later.refl c.skipBlanks) fun hcan => ?_
  have hnext : ∀ ch ∈ ['(', '['], (c.whole k).skipBlanks.peek ≠ some ch := by
    intro ch hch hp
    rw [← skipBlanks_whole_again] at hp
    have hend : c.skipBlanks.atEnd = true := List.isEmpty_iff.mpr hrest
    exact ht (.here ⟨_, _, ch, hdone, hend, hcan.peek_fill hrest hp, hch⟩)
  rw [if_neg (hnext '(' (by simp)), if_neg (hnext '[' (by simp))]
  exact .ok fun _ => (skipBlanks_skipBlanks _).trans (skipBlanks_whole_again k c).symm

section

variable {r r' : Reading} {n : Nat} (hr : r.specials = []) (hr' : r'.specials = [])
  (h : Mirrored k r r' n)
include h

include hr in
theorem Mirrored.expr_succ (m : Nat) (t : Terminators) (s : Spine) {c : Cursor}
    (ht : ¬Torn r (.terms t) c) :
    Agrees k (fun _ => Meets k) (exprFrom r (n + 1) t s c) (exprFrom r' m t s (c.whole k)) := by
  cases m with
  | zero => exact .spent_right _
  | succ m =>
    refine .of_canUse ((advancing hr n).expr_fill t s c) fun hcan => ?_
    obtain ⟨hfill, hpeek⟩ := fill_whole hcan
    unfold exprFrom
    dsimp only
    rw [hfill, atEnd_whole hpeek, accept?_whole hpeek, depth_whole]
    split
    · split
      · exact .fails _
      · exact .ok fun _ => ⟨rfl, hpeek⟩
    · next hend =>
      have hend : c.fill.atEnd = false := by simpa using hend
      have hrest : c.fill.rest ≠ [] := by simpa [atEnd] using hend
      cases hminus : c.fill.accept? '-' with
      | some d => exact h.expr m t _ d fun hd => ht (.sign hminus hd)
      | none =>
        have hprimary := h.primary m t c.fill hrest fun hd => ht (.operand hend hminus hd)
        refine hprimary.bind (fun v d _ => (advancing hr n).after_operand t s v d) ?_
        intro v d d' hv hd
        cases v with
        | none =>
          obtain ⟨rfl, hpeek⟩ := hd
          dsimp only
          split
          · exact .ok fun _ => ⟨rfl, hpeek⟩
          · exact .badChar
        | some v =>
          refine (binaryOp_agrees t hd).bind
            (fun op e _ => (advancing hr n).after_operator t s v op e) ?_
          intro op e e' hop he
          cases op with
          | none => exact .ok fun _ => he
          | some op =>
            cases he
            have hreads := (lawful r n).primary t c.fill v d hv
            exact h.expr m t _ e fun htorn => ht (.more hend hminus hreads hop htorn)

include hr in
theorem Mirrored.primary_succ (m : Nat) (t : Terminators) {c : Cursor} (hc : c.rest ≠ [])
    (ht : ¬Torn r (.primary t) c) : Agrees k (Absent k (Nears k))
      (Cursor.primary r (n + 1) t c) (Cursor.primary r' m t (c.whole k)) := by
  cases m with
  | zero => exact .spent_right _
  | succ m =>
    have hpeek : (c.whole k).peek = c.peek := peek_whole fun he => absurd he hc
    unfold Cursor.primary
    rw [hpeek, advance_whole hpeek]
    split
    · exact .ok fun _ => ⟨rfl, hpeek⟩
    · next hstop =>
      have hstop : c.peek.any t.stopAt = false := by simpa using hstop
      split
      · next hbar =>
        have hclosure := h.closure m t c.advance.deeper fun hd => ht (.closed hstop hbar hd)
        exact hclosure.bind (fun v d _ => Later.refl d) fun v d d' _ hd => .ok fun _ => hd.nears
      · next hbar =>
        have hatom := h.atom m c hc fun hd => ht (.atom hstop hbar hd)
        refine hatom.bind (fun v d _ => (advancing hr n).after_atom v d) ?_
        rintro v d d' hv rfl
        have hatom := (lawful r n).atom c v d hv
        dsimp only
        split
        · next htakes =>
          have hpostfixes := h.postfixes m v d fun hd => ht (.followed hstop hbar hatom htakes hd)
          refine hpostfixes.bind (fun w e _ => later_skipBangs e) fun w e e' hw he => ?_
          have hreads := Reads.followed hstop hbar hatom htakes ((lawful r n).postfixes v d w e hw)
          exact factorials_agrees w he fun hend hbang =>
            ht (.here ⟨_, _, '!', hreads, hend, hbang, by simp [Part.signs]⟩)
        · next htakes =>
          have hreads := Reads.plain hstop hbar hatom (by simpa using htakes)
          exact factorials_agrees v rfl fun hend hbang =>
            ht (.here ⟨_, _, '!', hreads, hend, hbang, by simp [Part.signs]⟩)

theorem Mirrored.group_succ (m : Nat) (close : Char) {c : Cursor} (ht : ¬Torn r (.group close) c) :
    Agrees k (fun _ c d => d = c.whole k)
      (Cursor.group r (n + 1) close c) (Cursor.group r' m close (c.whole k)) := by
  cases m with
  | zero => exact .spent_right _
  | succ m =>
    unfold Cursor.group
    have hexpr := h.expr m ⟨none, some close⟩ [] c fun hc => ht (.group hc)
    refine hexpr.bind (fun v d _ => after_grouped close v d) ?_
    rintro v d d' - ⟨rfl, hpeek⟩
    cases v with
    | none => exact .badChar
    | some v =>
      dsimp only
      rw [accept?_whole hpeek]
      cases d.accept? close with
      | none => exact .badChar
      | some e => exact .ok fun _ => rfl

include hr in
theorem Mirrored.list_succ (m : Nat) (close : Char) (first : Bool) {c : Cursor}
    (ht : ¬Torn r (.list close first) c) : Agrees k (fun _ c d => d = c.whole k)
      (Cursor.list r (n + 1) close first c) (Cursor.list r' m close first (c.whole k)) := by
  cases m with
  | zero => exact .spent_right _
  | succ m =>
    unfold Cursor.list
    have hexpr := h.expr m ⟨some ',', some close⟩ [] c fun hc => ht (.item hc)
    refine hexpr.bind (fun v d _ => (advancing hr n).after_item close first v d) ?_
    rintro v d d' hv ⟨rfl, hpeek⟩
    cases v with
    | none =>
      dsimp only
      rw [hpeek, advance_whole hpeek]
      split
      · exact .ok fun _ => rfl
      · exact .badChar
    | some v =>
      dsimp only
      rw [hpeek, advance_whole hpeek]
      split
      · exact .ok fun _ => rfl
      · next hclose =>
        obtain ⟨ss, hreads, -⟩ := (lawful r n).expr _ c v d hv
        have hlist := h.list m close false d.advance fun hd => ht (.next hreads hclose hd)
        exact hlist.bind (fun vs e _ => Later.refl e) fun vs e e' _ he => .ok fun _ => he

include hr in
theorem Mirrored.closure_succ (m : Nat) (t : Terminators) {c : Cursor}
    (ht : ¬Torn r (.closure t) c) : Agrees k (fun _ => Meets k)
      (Cursor.closure r (n + 1) t c) (Cursor.closure r' m t (c.whole k)) := by
  cases m with
  | zero => exact .spent_right _
  | succ m =>
    unfold Cursor.closure
    refine (closureParams_agrees n m c).bind
      (fun names d _ => (advancing hr n).after_params t names d) ?_
    rintro names d d' hnames rfl
    have hexpr := h.expr m t [] d.shallower fun hd => ht (.body hnames hd)
    refine hexpr.bind (fun v e _ => after_body names v e) ?_
    rintro v e e' - he
    cases v with
    | none =>
      obtain ⟨rfl, -⟩ := he
      exact .badChar
    | some v => exact .ok fun _ => he

include hr in
theorem Mirrored.postfixes_succ (m : Nat) (v : Value) {c : Cursor}
    (ht : ¬Torn r (.postfixes v) c) : Agrees k (fun _ => Nears k)
      (Cursor.postfixes r (n + 1) v c) (Cursor.postfixes r' m v (c.whole k)) := by
  cases m with
  | zero => exact .spent_right _
  | succ m =>
    by_cases hrest : c.skipBlanks.rest = []
    · exact postfixes_agrees_end n m v hrest ht
    · unfold Cursor.postfixes
      dsimp only
      rw [skipBlanks_whole fun he => absurd he hrest]
      have hpeek : (c.skipBlanks.whole k).peek = c.skipBlanks.peek :=
        peek_whole fun he => absurd he hrest
      rw [hpeek, advance_whole hpeek]
      split
      · next hp =>
        have hlist := h.list m ')' true _ fun hd => ht (.args hp hd)
        refine hlist.bind (fun args d _ => (advancing hr n).postfixes _ d) ?_
        rintro args d d' hargs rfl
        have hreads := (lawful r n).list _ _ _ args d hargs
        exact h.postfixes m _ d fun hd => ht (.called hp hreads hd)
      · split
        · next hp =>
          have hgroup := h.group m ']' _ fun hd => ht (.index hp hd)
          refine hgroup.bind (fun i d _ => (advancing hr n).postfixes _ d) ?_
          rintro i d d' hi rfl
          have hreads := (lawful r n).group _ _ i d hi
          exact h.postfixes m _ d fun hd => ht (.indexed hp hreads hd)
        · exact .ok fun _ => rfl

include hr hr' in
theorem Mirrored.atom_succ (m : Nat) {c : Cursor} (hc : c.rest ≠ []) (ht : ¬Torn r .atom c) :
    Agrees k (fun _ c d => d = c.whole k)
      (Cursor.atom r (n + 1) c) (Cursor.atom r' m (c.whole k)) := by
  cases m with
  | zero => exact .spent_right _
  | succ m =>
    have hpeek : (c.whole k).peek = c.peek := peek_whole fun he => absurd he hc
    unfold Cursor.atom
    rw [hpeek, advance_whole hpeek, name?_whole]
    split
    · exact .badChar
    · next ch hch =>
      split
      · exact (number_agrees k c).bind (fun x d _ => Later.refl d)
          fun x d d' _ hd => .ok fun _ => hd
      · split
        · next hopen => exact h.group m ')' _ fun hd => ht (.bracketed (hopen ▸ hch) hd)
        · split
          · next hopen =>
            have hlist := h.list m '>' true _ fun hd => ht (.vector (hopen ▸ hch) hd)
            refine hlist.bind (fun vs d _ => ?_) ?_
            · dsimp only
              split
              · exact .fails _
              · exact Later.refl d
            · rintro vs d d' - rfl
              dsimp only
              split
              · exact .fails _
              · exact .ok fun _ => rfl
          · have hspecial : r.special? ch = none ∧ r'.special? ch = none := by
              simp [Reading.special?, hr, hr']
            rw [hspecial.1, hspecial.2]
            dsimp only
            cases hname : c.name? with
            | none => exact .badChar
            | some p => exact .ok fun _ => rfl

end

theorem mirrored {r r' : Reading} (hr : r.specials = []) (hr' : r'.specials = []) (k n : Nat) :
    Mirrored k r r' n := by
  induction n with
  | zero =>
    constructor
    all_goals
      intros
      exact .spent_left _
  | succ n ih => exact {
      expr := fun m t s _ => ih.expr_succ hr m t s
      primary := fun m t _ => ih.primary_succ hr m t
      atom := fun m _ => ih.atom_succ hr hr' m
      group := fun m close _ => ih.group_succ m close
      list := fun m close first _ => ih.list_succ hr m close first
      closure := fun m t _ => ih.closure_succ hr m t
      postfixes := fun m v _ => ih.postfixes_succ hr m v }

/-- What is refused for the form of the text did not run out of fuel. -/
theorem not_spent_of_refuses {α : Type} {x : Except Failed α} (h : Refuses x) : ¬Spent x := by
  rintro ⟨used, rfl⟩
  obtain ⟨e, he, -⟩ := h _ rfl
  cases he

/-- Without special syntax the two texts are read alike. -/
theorem expr_alike {r r' : Reading} (hr : r.specials = []) (hr' : r'.specials = [])
    (ht : ¬Torn r (.terms {}) c) (hu : Uses k (c.expr r)) :
    Alike (fun _ => Meets k) (c.expr r) ((c.whole k).expr r') :=
  (mirrored hr hr' k _).expr _ _ _ c ht hu (not_spent_of_refuses (expr_refuses hr c))
    (not_spent_of_refuses (expr_refuses hr' _))

end Cursor

/-- The number of further lines that reading took, be it with a result or with an error. -/
def Read.linesUsed {α : Type} : Except Failed (Read α) → Nat
  | .ok found => found.used
  | .error f => f.used

/-- What was read, or why nothing was, without the number of lines that it took. -/
def Read.outcome {α : Type} : Except Failed (Read α) → Except Stop α
  | .ok found => .ok found.result
  | .error f => .error f.stop

/-- A text and further lines in one, each line after a line break. -/
def oneText (src : String) (lines : List String) : String :=
  src ++ String.join (lines.map ("\n" ++ ·))

theorem toList_oneText (src : String) (lines : List String) :
    (oneText src lines).toList = src.toList ++ Cursor.joined (lines.map String.toList) := by
  simp [oneText, String.toList_join, Cursor.joined, List.flatMap_map]

theorem atStart_oneText (src : String) (lines : List String) (k : Nat) :
    Cursor.atStart (oneText src (lines.take k)).toList [] =
      (Cursor.atStart src.toList (lines.map String.toList)).whole k := by
  rw [toList_oneText, List.map_take]
  rfl

/-- Reading a text with further lines tears no operand: none is taken to end with the text while the
next line goes on with a factorial sign, a call or a subscript of it. -/
def KeepsOperands (src : String) (lines : List String) : Prop :=
  ¬Cursor.Torn { lines } (.terms {}) (.atStart src.toList (lines.map String.toList))

theorem keepsOperands_of_lines {src : String} {lines : List String}
    (h : ∀ line ∈ lines, ∀ ch ∈ ['!', '(', '['], Cursor.firstSign line.toList ≠ some ch) :
    KeepsOperands src lines := by
  intro ht
  obtain ⟨line, hline, ch, hch, hsign⟩ := ht.line rfl
  obtain ⟨source, hsource, rfl⟩ := List.mem_map.mp hline
  exact h source hsource ch hch hsign

/-- A text that takes some further lines is read, or refused, as the one text that holds these lines
from the start is without any. -/
theorem parse_continued_eq_parse_oneText {src : String} {lines : List String}
    (h : KeepsOperands src lines) :
    Read.outcome (Reading.parse {}
        (oneText src (lines.take (Read.linesUsed (Reading.parse { lines } src))))) =
      Read.outcome (Reading.parse { lines } src) := by
  generalize hk : Read.linesUsed (Reading.parse { lines } src) = k
  have hwhole := atStart_oneText src lines k
  have hplain : ({} : Reading).specials = [] := rfl
  have halike := Cursor.expr_alike (k := k) rfl hplain h
  unfold Reading.parse at hk ⊢
  rw [← hwhole] at halike
  cases hexpr : (Cursor.atStart src.toList (lines.map String.toList)).expr { lines } with
  | error f =>
    rw [hexpr] at hk halike
    have hsame := halike hk
    simp only [Cursor.Alike] at hsame
    simp [hsame, Read.outcome]
  | ok p =>
    obtain ⟨v, d⟩ := p
    have hd : d.used = k := by
      rw [hexpr] at hk
      cases v <;> exact hk
    rw [hexpr] at halike
    obtain ⟨d', hsame, -⟩ := halike ⟨Nat.le_of_eq hd, fun _ => hd⟩
    cases v <;> simp [hsame, Read.outcome, Cursor.failWith]

theorem call_continued_eq_call :
    KeepsOperands "f(x," ["# more", "y)"] ∧
      Read.linesUsed (Reading.parse { lines := ["# more", "y)"] } "f(x,") = 2 ∧
      Read.outcome (Reading.parse {}
          (oneText "f(x," (["# more", "y)"].take
            (Read.linesUsed (Reading.parse { lines := ["# more", "y)"] } "f(x,"))))) =
        Read.outcome (Reading.parse { lines := ["# more", "y)"] } "f(x,") := by
  have hcomment : Cursor.firstSign "# more".toList = none := by cbv
  have hname : Cursor.firstSign "y)".toList = some 'y' := by cbv
  have hkeeps : KeepsOperands "f(x," ["# more", "y)"] :=
    keepsOperands_of_lines (by simp [hcomment, hname, -String.reduceToList])
  exact ⟨hkeeps, by cbv, parse_continued_eq_parse_oneText hkeeps⟩

/-- A factorial sign at the start of a line is refused, though in the one text it is read. -/
theorem factorial_continued_ne_factorial :
    Read.linesUsed (Reading.parse { lines := ["!)"] } "(x") = 1 ∧
      Read.outcome (Reading.parse { lines := ["!)"] } "(x") =
        .error (.error ⟨.unexpected '!', 4⟩) ∧
      Read.outcome (Reading.parse {} (oneText "(x" ["!)"])) = .ok (.unary .fact (.var "x")) := by
  refine ⟨?_, ?_, ?_⟩ <;> cbv

end Reckon
