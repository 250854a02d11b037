import Mathlib.Data.List.Induction
import Reckon.Reading.Expression
import Reckon.Proofs.Outcome

/-!
The grammar of expressions by levels, and the trees that spines build.

    Sum     = Product { ('+' | '-') Product }            grouped to the left
    Product = Unary { ('*' | '/' | '%') Unary }          grouped to the left
    Unary   = '-' Unary | Power
    Power   = operand [ '^' Unary ]
-/

namespace Reckon

/-- Whether an operator stands between two operands. -/
def Op.isInfix : Op → Bool
  | .none | .fact => false
  | _ => true

/-- An operator between two operands. -/
abbrev Infix := { op : Op // op.isInfix = true }

namespace Grammar

/-- What an expression is made of: operands, whatever is inside them, and signs between them. -/
inductive Symbol where
  | operand (v : Value)
  | sign (op : Infix)

/-- A minus, before an operand or between two. -/
def minus : Symbol := .sign ⟨.sub, rfl⟩

mutual

inductive UnaryPhrase : List Symbol → Value → Prop
  | minus {ss v} : UnaryPhrase ss v →
      UnaryPhrase (minus :: ss) (.binary .mul (.int (-1)) v)
  | power {ss v} : PowerPhrase ss v → UnaryPhrase ss v

inductive PowerPhrase : List Symbol → Value → Prop
  | operand (v : Value) : PowerPhrase [.operand v] v
  | power {ss w} (v : Value) : UnaryPhrase ss w →
      PowerPhrase (.operand v :: .sign ⟨.pow, rfl⟩ :: ss) (.binary .pow v w)

end

/-- Phrases of one form with some of `ops` between them, grouped to the left. -/
inductive Chain (item : List Symbol → Value → Prop) (ops : List Op) : List Symbol → Value → Prop
  | one {ss v} : item ss v → Chain item ops ss v
  | more {ss us l r} (op : Infix) : Chain item ops ss l → op.1 ∈ ops →
      item us r → Chain item ops (ss ++ .sign op :: us) (.binary op.1 l r)

def ProductPhrase : List Symbol → Value → Prop := Chain UnaryPhrase [.mul, .div, .mod]

def SumPhrase : List Symbol → Value → Prop := Chain ProductPhrase [.add, .sub]

/-- The tree that a spine grows into when the symbols are added one by one. -/
def assembleFrom (s : Spine) : List Symbol → Option Value
  | [.operand v] => some (s.close v)
  | .operand v :: .sign op :: ss => assembleFrom (s.insert op.1 v) ss
  | .sign op :: ss => if op.1 = .sub then assembleFrom s.minus ss else none
  | _ => none

/-- An operand with the minus signs before it. -/
structure Term where
  minuses : Nat
  operand : Value

def Term.symbols (x : Term) : List Symbol := List.replicate x.minuses minus ++ [.operand x.operand]

/-- Terms with operators between them. -/
def sequence (first : Term) : List (Infix × Term) → List Symbol
  | [] => first.symbols
  | (op, next) :: rest => first.symbols ++ .sign op :: sequence next rest

end Grammar

namespace Strength

variable {p q : Strength}

/-- A stronger operator is closed by a weaker one, and so is one of the same strength that does not
group to the right. -/
theorem closes_of_level (h : q.level < p.level ∨ q.level = p.level ∧ p.right = false) :
    p.closes q = true := by
  rcases h with h | ⟨h, hr⟩
  · have hn : ¬p.level < q.level := by omega
    simp [closes, compare, h, hn]
  · simp [closes, compare, h, hr]

theorem not_closes_of_level (h : p.level < q.level ∨ p.level = q.level ∧ p.right = true) :
    p.closes q = false := by
  rcases h with h | ⟨h, hr⟩
  · simp [closes, compare, h]
  · simp [closes, compare, h, hr]

end Strength

namespace Spine

/-- An operator that nothing on the edge closes goes to its end. -/
theorem insert_weaker {s : Spine} {op : Op} {v : Value}
    (h : ∀ p ∈ s, p.1.strength.closes op.strength = false) : s.insert op v = s ++ [(op, v)] := by
  induction s with
  | nil => rfl
  | cons p s ih =>
    have hp := h p (by simp)
    have hs := ih (fun q hq => h q (by simp [hq]))
    simp [insert, hp, hs]

/-- If the last operator of an edge is closed, it grows into an operand of the edge above. -/
theorem insert_closing {s : Spine} {p op : Op} {l w : Value}
    (h : p.strength.closes op.strength = true) :
    Spine.insert op w (s ++ [(p, l)]) = s.insert op (.binary p l w) := by
  induction s with
  | nil => simp [insert, h, close]
  | cons q s ih =>
    simp only [List.cons_append, insert, ih]
    split
    · simp [close, close_append]
    · rfl

end Spine

namespace Grammar

/-- Spines of operators that stand between operands and are weaker than `level`. -/
def Below (level : Nat) (s : Spine) : Prop :=
  ∀ p ∈ s, p.1.isInfix = true ∧ p.1.strength.level < level

/-- What may follow a phrase: nothing, or an operator of at most this level. -/
def Follows (level : Nat) : List Symbol → Prop
  | [] => True
  | .sign op :: _ => op.1.strength.level ≤ level
  | .operand _ :: _ => False

theorem Below.mono {m n : Nat} {s : Spine} (h : Below m s) (hn : m ≤ n) : Below n s :=
  fun p hp => ⟨(h p hp).1, Nat.lt_of_lt_of_le (h p hp).2 hn⟩

theorem Follows.mono {m n : Nat} {rest : List Symbol} (h : Follows m rest) (hn : m ≤ n) :
    Follows n rest := by
  match rest, h with
  | [], _ => trivial
  | .sign op :: _, h => exact Nat.le_trans h hn

theorem Below.snoc {n : Nat} {s : Spine} (h : Below n s) (op : Infix) (v : Value)
    (ho : op.1.strength.level < n) : Below n (s ++ [(op.1, v)]) := by
  intro p hp
  rcases List.mem_append.mp hp with hp | hp
  · exact h p hp
  · rw [List.mem_singleton.mp hp]
    exact ⟨op.2, ho⟩

/-- The last operator of an edge and its operands act as one operand, if all that may follow closes
that operator. -/
theorem assemble_closing {s : Spine} {p : Op} {l w : Value} {level : Nat} {rest : List Symbol}
    (hr : Follows level rest)
    (hp : ∀ op : Op, op.strength.level ≤ level → p.strength.closes op.strength = true) :
    assembleFrom (s ++ [(p, l)]) (.operand w :: rest) =
      assembleFrom s (.operand (.binary p l w) :: rest) := by
  match rest, hr with
  | [], _ => simp [assembleFrom, Spine.close_append, Spine.close]
  | .sign op :: rest, hr => simp only [assembleFrom, Spine.insert_closing (hp op.1 hr)]

/-- A phrase acts as one operand: the edge above it and what follows it meet its tree. -/
def ActsAsOperand (above after : Nat) (ss : List Symbol) (v : Value) : Prop :=
  ∀ s rest, Below above s → Follows after rest →
    assembleFrom s (ss ++ rest) = assembleFrom s (.operand v :: rest)

theorem mul_closes {op : Op} (h : op.strength.level ≤ 5) :
    Op.mul.strength.closes op.strength = true := by
  revert h
  cases op <;> decide

theorem pow_closes {op : Op} (h : op.strength.level ≤ 5) :
    Op.pow.strength.closes op.strength = true := by
  revert h
  cases op <;> decide

/-- Nothing that stands between operands closes a power. -/
theorem insert_pow {s : Spine} {n : Nat} (h : Below n s) (v : Value) :
    s.insert .pow v = s ++ [(.pow, v)] := by
  apply Spine.insert_weaker
  intro p hp
  have hi := (h p hp).1
  revert hi
  cases p.1 <;> decide

mutual

theorem UnaryPhrase.acts {ss : List Symbol} {v : Value} :
    UnaryPhrase ss v → ActsAsOperand 20 5 ss v
  | .minus h => by
    intro s rest hs hr
    have hm : Below 20 s.minus := hs.snoc ⟨.mul, rfl⟩ _ (by decide)
    calc assembleFrom s (minus :: _ ++ rest)
        = assembleFrom s.minus (_ ++ rest) := by simp [minus, assembleFrom]
      _ = assembleFrom s.minus (.operand _ :: rest) := h.acts s.minus rest hm hr
      _ = _ := assemble_closing hr (fun _ => mul_closes)
  | .power h => h.acts

theorem PowerPhrase.acts {ss : List Symbol} {v : Value} :
    PowerPhrase ss v → ActsAsOperand 20 5 ss v
  | .operand v => fun _ _ _ _ => rfl
  | .power v h => by
    intro s rest hs hr
    have hp : Below 20 (s ++ [(.pow, v)]) := hs.snoc ⟨.pow, rfl⟩ v (by decide)
    calc assembleFrom s (.operand v :: .sign ⟨.pow, rfl⟩ :: _ ++ rest)
        = assembleFrom (s ++ [(.pow, v)]) (_ ++ rest) := by
          simp [assembleFrom, insert_pow hs v]
      _ = assembleFrom (s ++ [(.pow, v)]) (.operand _ :: rest) := h.acts _ rest hp hr
      _ = _ := assemble_closing hr (fun _ => pow_closes)

end

/-- A chain acts as one operand, if its items do below the operators of the chain and these close
one another. -/
theorem Chain.acts {item : List Symbol → Value → Prop} {ops : List Op} {level above after : Nat}
    (hitem : ∀ ss v, item ss v → ActsAsOperand above after ss v)
    (hops : ∀ op ∈ ops, op.strength = ⟨level, false⟩) (ha : level < above) (hb : level ≤ after)
    {ss : List Symbol} {v : Value} (h : Chain item ops ss v) : ActsAsOperand level level ss v := by
  induction h with
  | one h => exact fun s rest hs hr => hitem _ _ h s rest (hs.mono (by omega)) (hr.mono hb)
  | @more ss us l r op _ hop hi ih =>
    intro s rest hs hr
    have ho := hops op.1 hop
    have hins : s.insert op.1 l = s ++ [(op.1, l)] := by
      apply Spine.insert_weaker
      intro p hp
      exact Strength.not_closes_of_level (Or.inl (by simpa [ho] using (hs p hp).2))
    have hbelow : Below above (s ++ [(op.1, l)]) :=
      (hs.mono (by omega)).snoc op l (by simpa [ho] using ha)
    calc assembleFrom s (ss ++ .sign op :: us ++ rest)
        = assembleFrom s (ss ++ .sign op :: (us ++ rest)) := by simp
      _ = assembleFrom s (.operand l :: .sign op :: (us ++ rest)) :=
          ih s _ hs (by simp [Follows, ho])
      _ = assembleFrom (s ++ [(op.1, l)]) (us ++ rest) := by simp only [assembleFrom, hins]
      _ = assembleFrom (s ++ [(op.1, l)]) (.operand r :: rest) :=
          hitem _ _ hi _ rest hbelow (hr.mono hb)
      _ = assembleFrom s (.operand (.binary op.1 l r) :: rest) := by
          apply assemble_closing hr
          intro q hq
          apply Strength.closes_of_level
          rw [ho]
          rcases Nat.lt_or_eq_of_le hq with hq | hq
          · exact Or.inl hq
          · exact Or.inr ⟨hq, rfl⟩

theorem ProductPhrase.acts {ss : List Symbol} {v : Value} (h : ProductPhrase ss v) :
    ActsAsOperand 5 5 ss v :=
  Chain.acts (fun _ _ => UnaryPhrase.acts) (by decide) (by decide) (by decide) h

/-- A spine grows into the tree that the grammar gives. -/
theorem SumPhrase.assemble {ss : List Symbol} {v : Value} (h : SumPhrase ss v) :
    assembleFrom [] ss = some v := by
  have ha : ActsAsOperand 1 1 ss v :=
    Chain.acts (fun _ _ => ProductPhrase.acts) (by decide) (by decide) (by decide) h
  have he := ha [] [] (fun _ hp => nomatch hp) trivial
  simpa [assembleFrom, Spine.close] using he

/-- A term alone is a phrase. -/
theorem Term.unary (x : Term) : ∃ v, UnaryPhrase x.symbols v := by
  obtain ⟨n, v⟩ := x
  induction n with
  | zero => exact ⟨v, .power (.operand v)⟩
  | succ n ih =>
    obtain ⟨w, h⟩ := ih
    exact ⟨_, .minus h⟩

mutual

/-- A power sign and one more phrase go to the last operand. -/
theorem UnaryPhrase.extend {ss us : List Symbol} {v w : Value} (hu : UnaryPhrase us w) :
    UnaryPhrase ss v → ∃ x, UnaryPhrase (ss ++ .sign ⟨.pow, rfl⟩ :: us) x
  | .minus h =>
    have ⟨_, hx⟩ := UnaryPhrase.extend hu h
    ⟨_, .minus hx⟩
  | .power h =>
    have ⟨_, hx⟩ := PowerPhrase.extend hu h
    ⟨_, .power hx⟩

theorem PowerPhrase.extend {ss us : List Symbol} {v w : Value} (hu : UnaryPhrase us w) :
    PowerPhrase ss v → ∃ x, PowerPhrase (ss ++ .sign ⟨.pow, rfl⟩ :: us) x
  | .operand v => ⟨_, .power v hu⟩
  | .power v h =>
    have ⟨_, hx⟩ := UnaryPhrase.extend hu h
    ⟨_, .power v hx⟩

end

/-- What makes an item longer makes a chain of items longer, at its last item. -/
theorem Chain.extend {item : List Symbol → Value → Prop} {ops : List Op} {tail : List Symbol}
    (hitem : ∀ ss v, item ss v → ∃ x, item (ss ++ tail) x) {ss : List Symbol} {v : Value}
    (h : Chain item ops ss v) : ∃ x, Chain item ops (ss ++ tail) x := by
  cases h with
  | one h =>
    obtain ⟨x, hx⟩ := hitem _ _ h
    exact ⟨x, .one hx⟩
  | more op hl hop hr =>
    obtain ⟨x, hx⟩ := hitem _ _ hr
    exact ⟨_, by simpa using Chain.more op hl hop hx⟩

/-- One more operator and term make a sum longer: at its last power, its last product or its end. -/
theorem SumPhrase.extend {ss : List Symbol} {v : Value} (h : SumPhrase ss v) (op : Infix)
    (x : Term) : ∃ w, SumPhrase (ss ++ .sign op :: x.symbols) w := by
  obtain ⟨u, hu⟩ := x.unary
  obtain ⟨op, ho⟩ := op
  have hproduct : op ∈ [Op.mul, .div, .mod] →
      ∃ w, SumPhrase (ss ++ .sign ⟨op, ho⟩ :: x.symbols) w :=
    fun hm => Chain.extend (fun _ _ hp => ⟨_, Chain.more ⟨op, ho⟩ hp hm hu⟩) h
  have hsum : op ∈ [Op.add, .sub] →
      ∃ w, SumPhrase (ss ++ .sign ⟨op, ho⟩ :: x.symbols) w :=
    fun hm => ⟨_, Chain.more ⟨op, ho⟩ h hm (.one hu)⟩
  cases op with
  | none | fact => simp [Op.isInfix] at ho
  | add | sub => exact hsum (by decide)
  | mul | div | mod => exact hproduct (by decide)
  | pow => exact Chain.extend (fun _ _ => Chain.extend (fun _ _ => hu.extend)) h

theorem sequence_append (first : Term) (rest : List (Infix × Term)) (op : Infix) (x : Term) :
    sequence first (rest ++ [(op, x)]) = sequence first rest ++ .sign op :: x.symbols := by
  induction rest generalizing first with
  | nil => rfl
  | cons p rest ih => simp [sequence, ih]

/-- The grammar gives every sequence of terms a tree. -/
theorem sequence_phrase (first : Term) (rest : List (Infix × Term)) :
    ∃ v, SumPhrase (sequence first rest) v := by
  induction rest using List.reverseRecOn with
  | nil =>
    obtain ⟨v, h⟩ := first.unary
    exact ⟨v, .one (.one h)⟩
  | append_singleton rest p ih =>
    obtain ⟨v, h⟩ := ih
    rw [sequence_append]
    exact h.extend p.1 p.2

/-- On sequences of terms the grammar and the spine give one and the same tree. -/
theorem sumPhrase_iff (first : Term) (rest : List (Infix × Term)) (v : Value) :
    SumPhrase (sequence first rest) v ↔ assembleFrom [] (sequence first rest) = some v := by
  obtain ⟨w, hw⟩ := sequence_phrase first rest
  constructor
  · exact SumPhrase.assemble
  · intro h
    have he : w = v := Option.some.inj (hw.assemble.symm.trans h)
    exact he ▸ hw

/-- A property that a minus and the operators keep. -/
structure Kept (P : Value → Prop) : Prop where
  minus : ∀ v, P v → P (.binary .mul (.int (-1)) v)
  binary : ∀ op l r, op.isInfix = true → P l → P r → P (.binary op l r)

mutual

theorem UnaryPhrase.holds {P : Value → Prop} (hk : Kept P) {ss : List Symbol} {v : Value} :
    UnaryPhrase ss v → (∀ x, .operand x ∈ ss → P x) → P v
  | .minus h, hs => hk.minus _ (h.holds hk fun x hx => hs x (List.mem_cons_of_mem _ hx))
  | .power h, hs => h.holds hk hs

theorem PowerPhrase.holds {P : Value → Prop} (hk : Kept P) {ss : List Symbol} {v : Value} :
    PowerPhrase ss v → (∀ x, .operand x ∈ ss → P x) → P v
  | .operand v, hs => hs v (List.mem_singleton.mpr rfl)
  | .power v h, hs => hk.binary _ _ _ rfl (hs v List.mem_cons_self)
    (h.holds hk fun x hx => hs x (List.mem_cons_of_mem _ (List.mem_cons_of_mem _ hx)))

end

theorem Chain.holds {P : Value → Prop} (hk : Kept P) {item : List Symbol → Value → Prop}
    {ops : List Op} (hitem : ∀ ss v, item ss v → (∀ x, .operand x ∈ ss → P x) → P v)
    {ss : List Symbol} {v : Value} (h : Chain item ops ss v)
    (hs : ∀ x, .operand x ∈ ss → P x) : P v := by
  induction h with
  | one h => exact hitem _ _ h hs
  | more op _ _ hr ih =>
    apply hk.binary _ _ _ op.2
    · exact ih fun x hx => hs x (List.mem_append_left _ hx)
    · exact hitem _ _ hr fun x hx => hs x (List.mem_append_right _ (List.mem_cons_of_mem _ hx))

/-- What holds of all operands, and is kept, holds of the tree. -/
theorem SumPhrase.holds {P : Value → Prop} (hk : Kept P) {ss : List Symbol} {v : Value}
    (h : SumPhrase ss v) (hs : ∀ x, .operand x ∈ ss → P x) : P v :=
  Chain.holds hk (fun _ _ => Chain.holds hk fun _ _ => UnaryPhrase.holds hk) h hs

end Grammar

namespace Cursor

open Grammar

/-- Only operators that stand between operands are read. -/
theorem operator?_isInfix {ch : Char} {op : Op} (h : operator? ch = some op) :
    op.isInfix = true := by
  unfold operator? at h
  split at h <;> cases h <;> rfl

theorem binaryOp_isInfix {t : Terminators} {c d : Cursor} {op : Op}
    (h : binaryOp t c = .ok (some op, d)) : op.isInfix = true := by
  unfold binaryOp at h
  dsimp only at h
  repeat' split at h
  all_goals cases h
  all_goals first | rfl | exact operator?_isInfix ‹_›

/-- The symbols of an expression as its reader comes to them: minus signs, operands and the
operators after them, up to the end of the expression. -/
inductive Scanned (r : Reading) (t : Terminators) : Nat → Cursor → List Symbol → Cursor → Prop
  | sign {fuel c d e ss} : c.fill.accept? '-' = some d → Scanned r t fuel d ss e →
      Scanned r t (fuel + 1) c (minus :: ss) e
  | last {fuel c d e v} : c.fill.atEnd = false → c.fill.accept? '-' = none →
      primary r fuel t c.fill = .ok (some v, d) → binaryOp t d = .ok (none, e) →
      Scanned r t (fuel + 1) c [.operand v] e
  | more {fuel c d d' e v ss} (op : Infix) : c.fill.atEnd = false → c.fill.accept? '-' = none →
      primary r fuel t c.fill = .ok (some v, d) → binaryOp t d = .ok (some op.1, d') →
      Scanned r t fuel d' ss e → Scanned r t (fuel + 1) c (.operand v :: .sign op :: ss) e

theorem atEnd_of_accept? {c d : Cursor} {ch : Char} (h : c.accept? ch = some d) :
    c.atEnd = false := by
  unfold accept? peek at h
  unfold atEnd
  cases hr : c.rest with
  | nil => simp [hr] at h
  | cons _ _ => rfl

/-- What is scanned is a sequence of terms. -/
theorem Scanned.sequence {r : Reading} {t : Terminators} {fuel : Nat} {c d : Cursor}
    {ss : List Symbol} (h : Scanned r t fuel c ss d) : ∃ first rest, ss = sequence first rest := by
  induction h with
  | sign _ _ ih =>
    obtain ⟨⟨n, v⟩, rest, rfl⟩ := ih
    refine ⟨⟨n + 1, v⟩, rest, ?_⟩
    cases rest <;> rfl
  | @last _ _ _ _ v => exact ⟨⟨0, v⟩, [], rfl⟩
  | @more _ _ _ _ _ v _ op _ _ _ _ _ ih =>
    obtain ⟨next, rest, rfl⟩ := ih
    exact ⟨⟨0, v⟩, (op, next) :: rest, rfl⟩

/-- An expression is read as what its symbols grow into on the spine that was there before. -/
theorem exprFrom_eq_ok_iff {r : Reading} {t : Terminators} {fuel : Nat} {s : Spine} {c d : Cursor}
    {v : Value} : exprFrom r fuel t s c = .ok (some v, d) ↔
      ∃ ss, Scanned r t fuel c ss d ∧ assembleFrom s ss = some v := by
  induction fuel generalizing s c with
  | zero =>
    constructor
    · intro h
      simp [exprFrom] at h
    · rintro ⟨ss, h, -⟩
      cases h
  | succ fuel ih =>
    constructor
    · intro h
      unfold exprFrom at h
      cases hend : c.fill.atEnd with
      | true =>
        simp only [hend] at h
        split at h
        · split at h <;> cases h
        · contradiction
      | false =>
        simp only [hend, Bool.false_eq_true, ↓reduceIte] at h
        cases hminus : c.fill.accept? '-' with
        | some e =>
          simp only [hminus] at h
          obtain ⟨ss, hs, ha⟩ := ih.mp h
          exact ⟨_, .sign hminus hs, by simpa [assembleFrom, minus] using ha⟩
        | none =>
          simp only [hminus] at h
          obtain ⟨⟨w, e⟩, hp, h⟩ := bind_eq_ok_iff.mp h
          cases w with
          | none =>
            simp only at h
            split at h <;> cases h
          | some w =>
            obtain ⟨⟨op, e'⟩, hb, h⟩ := bind_eq_ok_iff.mp h
            cases op with
            | none =>
              cases h
              exact ⟨_, .last hend hminus hp hb, rfl⟩
            | some op =>
              obtain ⟨ss, hs, ha⟩ := ih.mp h
              exact ⟨_, .more ⟨op, binaryOp_isInfix hb⟩ hend hminus hp hb hs, ha⟩
    · rintro ⟨ss, h, ha⟩
      unfold exprFrom
      cases h with
      | sign hminus hs =>
        simp only [atEnd_of_accept? hminus, hminus, Bool.false_eq_true, ↓reduceIte]
        exact ih.mpr ⟨_, hs, by simpa [assembleFrom, minus] using ha⟩
      | last hend hminus hp hb =>
        cases Option.some.inj ha
        simp [hend, hminus, hp, hb]
      | more op hend hminus hp hb hs =>
        simp only [hend, hminus, hp, hb, ok_bind, Bool.false_eq_true, ↓reduceIte]
        exact ih.mpr ⟨_, hs, ha⟩

/-- Terms with operators between them have exactly one tree in the grammar, and it is the one that
the spine grows into. What a text is read as is the tree that the grammar gives for its terms. -/
theorem spine_builds_grammar_tree :
    (∀ first rest, ∃ v, assembleFrom [] (sequence first rest) = some v ∧
      ∀ w, SumPhrase (sequence first rest) w ↔ w = v) ∧
    ∀ r fuel t c d v, exprFrom r fuel t [] c = .ok (some v, d) ↔
      ∃ first rest, Scanned r t fuel c (sequence first rest) d ∧
        SumPhrase (sequence first rest) v := by
  constructor
  · intro first rest
    obtain ⟨v, hv⟩ := sequence_phrase first rest
    refine ⟨v, hv.assemble, fun w => ?_⟩
    rw [sumPhrase_iff, hv.assemble]
    exact ⟨fun h => (Option.some.inj h).symm, fun h => congrArg some h.symm⟩
  · intro r fuel t c d v
    rw [exprFrom_eq_ok_iff]
    constructor
    · rintro ⟨ss, hs, ha⟩
      obtain ⟨first, rest, rfl⟩ := hs.sequence
      exact ⟨first, rest, hs, (sumPhrase_iff first rest v).mpr ha⟩
    · rintro ⟨first, rest, hs, hv⟩
      exact ⟨_, hs, hv.assemble⟩

end Cursor

end Reckon
