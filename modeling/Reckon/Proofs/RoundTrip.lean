import Reckon.Proofs.Spelling

namespace Reckon

namespace Piece

def chars : Piece → List Char
  | .text s => s.toList
  | _ => []

/-- The characters of pieces, one after another. -/
def spell (ps : List Piece) : List Char := ps.flatMap chars

@[simp] theorem spell_nil : spell [] = [] := rfl

@[simp] theorem spell_text (s : String) (ps : List Piece) :
    spell (.text s :: ps) = s.toList ++ spell ps := rfl

def isText : Piece → Bool
  | .text _ => true
  | _ => false

theorem joinFrom_eq_ok {ps : List Piece} (h : ∀ q ∈ ps, q.isText = true) (written : String) :
    joinFrom written ps = .ok (written ++ String.ofList (spell ps)) := by
  induction ps generalizing written with
  | nil => simp [joinFrom]
  | cons q ps ih =>
    have hq := h q (by simp)
    cases q with
    | text s =>
      simp only [joinFrom, ih fun q hq => h q (by simp [hq]), spell_text, String.ofList_append,
        String.ofList_toList, String.append_assoc]
    | noOperand | noSign | noForm => cases hq

end Piece

namespace Grammar

/-- Phrases whose tree may stand where a level is asked for; above the powers there are single
operands. -/
def Phrase (level : Nat) (ss : List Symbol) (v : Value) : Prop :=
  if 15 < level then ss = [.operand v]
  else if 5 < level then PowerPhrase ss v
  else if 1 < level then ProductPhrase ss v
  else SumPhrase ss v

theorem Phrase.operand (level : Nat) (v : Value) : Phrase level [.operand v] v := by
  unfold Phrase
  split
  · rfl
  · split
    · exact .operand v
    · split
      · exact .one (.power (.operand v))
      · exact .one (.one (.power (.operand v)))

/-- What may stand at a level may stand at a lower one. -/
theorem Phrase.mono {m n : Nat} {ss : List Symbol} {v : Value} (h : Phrase n ss v) (hm : m ≤ n) :
    Phrase m ss v := by
  by_cases hn : 15 < n
  · simp only [Phrase, hn, ↓reduceIte] at h
    exact h ▸ Phrase.operand m v
  · have hm15 : ¬15 < m := by omega
    by_cases hn5 : 5 < n
    · simp only [Phrase, hn, hn5, ↓reduceIte] at h
      simp only [Phrase, hm15, ↓reduceIte]
      split
      · exact h
      · split
        · exact .one (.power h)
        · exact .one (.one (.power h))
    · have hm5 : ¬5 < m := by omega
      simp only [Phrase, hn, hn5, hm15, hm5, ↓reduceIte] at h ⊢
      by_cases hm1 : 1 < m
      · have hn1 : 1 < n := by omega
        simpa only [hm1, hn1, ↓reduceIte] using h
      · simp only [hm1, ↓reduceIte]
        split at h
        · exact .one h
        · exact h

/-- The level that the operand of an operator has without brackets. -/
def operandLevel (op : Op) (right : Bool) : Nat :=
  if right = op.strength.right then op.strength.level else op.strength.level + 1

/-- An operator between phrases of the levels it asks for makes a phrase of its own level. -/
theorem Phrase.binary (op : Infix) {ls rs : List Symbol} {l r : Value}
    (hl : Phrase (operandLevel op.1 false) ls l) (hr : Phrase (operandLevel op.1 true) rs r) :
    Phrase op.1.strength.level (ls ++ .sign op :: rs) (.binary op.1 l r) := by
  obtain ⟨op, ho⟩ := op
  cases op with
  | none | fact => simp [Op.isInfix] at ho
  | add | sub => exact Chain.more ⟨_, ho⟩ hl (by simp) hr
  | mul | div | mod => exact Chain.more ⟨_, ho⟩ hl (by simp) (.power hr)
  | pow =>
    obtain rfl : ls = [.operand l] := hl
    exact .power l (.power hr)

theorem Phrase.minus {ss : List Symbol} {v : Value} (h : Phrase (operandLevel .mul true) ss v) :
    Phrase 5 (minus :: ss) (.binary .mul (.int (-1)) v) :=
  .one (.minus (.power h))

end Grammar

namespace Value

/-- The level of the grammar that a tree belongs to. -/
def level : Value → Nat
  | .binary op _ _ => op.strength.level
  | _ => 20

def isFunc : Value → Bool
  | .func _ _ => true
  | _ => false

/-- Trees that are written without brackets when they are called or subscripted. -/
def isCarrier : Value → Bool
  | .var _ | .call _ _ _ | .vector _ => true
  | _ => false

/-- What is written without brackets has the level that the operator asks for. -/
theorem level_of_noBrackets {v : Value} {op : Op} {right : Bool} (hop : op.isInfix = true)
    (h : v.needsBrackets op right = false) : Grammar.operandLevel op right ≤ v.level := by
  have hle : Grammar.operandLevel op right ≤ 20 := by
    revert hop
    cases op <;> cases right <;> decide
  cases v with
  | binary inner l r =>
    simp only [needsBrackets] at h
    simp only [level, Grammar.operandLevel]
    split at h
    · next he =>
      simp only [bne_eq_false_iff_eq] at h
      simp [h, he]
    · next hne =>
      simp only [decide_eq_false_iff_not] at h
      split <;> omega
  | _ => exact hle

end Value

namespace Cursor

open Grammar Piece

/-- The characters that end an expression inside brackets. -/
def closers : List Char := [',', ')', '>', ']']

/-- Only the known characters end the expression. -/
def Proper (t : Terminators) : Prop := ∀ ch, t.stopAt ch = true → ch ∈ closers

/-- Text that ends an expression or goes on with an operator after a blank: no call, subscript or
factorial sign comes first. -/
inductive Apart : List Char → Prop
  | nil : Apart []
  | closer {ch s} : ch ∈ closers → Apart (ch :: s)
  | operator {ch op s} : operator? ch = some op → Apart (' ' :: ch :: s)

/-- How the reader goes on after an operand: the expression ends, or an operator and more of its
terms follow. -/
inductive Onward (t : Terminators) (k : Nat) : List Char → List Symbol → List Char → Prop
  | atEnd : k = 0 → Onward t k [] [] []
  | stop {ch s} : t.stopAt ch = true → Onward t k (ch :: s) [] (ch :: s)
  | more {ch s ss s'} (op : Infix) : operator? ch = some op.1 →
      (∀ p, ∃ q, Reads {} (.terms t) (before p s k) (.symbols ss) (before q s' k)) →
      Onward t k (' ' :: ch :: s) (.sign op :: ss) s'

/-- What other meanings an operator does not have. -/
theorem operator?_clear {ch : Char} {op : Op} (h : operator? ch = some op) :
    startsBlank [ch] = false ∧ ch ∉ closers ∧ ch ≠ '(' ∧ ch ≠ '[' ∧ ch ≠ '!' := by
  unfold operator? at h
  split at h <;> cases h
  all_goals decide

theorem delimits_operator {ch : Char} {op : Op} (h : operator? ch = some op) (s : List Char) :
    Token.delimits (ch :: s) = true := by
  unfold operator? at h
  split at h <;> cases h
  all_goals rfl

theorem closers_clear (ch : Char) (h : ch ∈ closers) : startsBlank [ch] = false ∧ ch ≠ '(' ∧
    ch ≠ '[' ∧ ch ≠ '!' ∧ Token.delimits [ch] = true ∧ Token.opens ch = false := by
  simp only [closers, List.mem_cons, List.not_mem_nil, or_false] at h
  rcases h with rfl | rfl | rfl | rfl
  all_goals decide

variable {t : Terminators} {p s s' : List Char} {k : Nat} {tail : List Symbol} {ch : Char}

theorem Onward.apart (ht : Proper t) (h : Onward t k s tail s') : Apart s := by
  cases h with
  | atEnd => exact .nil
  | stop hs => exact .closer (ht _ hs)
  | more op ho => exact .operator ho

theorem Apart.delimits (h : Apart s) : Token.delimits s = true := by
  cases h with
  | nil => rfl
  | closer hc => exact (closers_clear _ hc).2.2.2.2.1
  | operator => rfl

/-- What the reader comes to after blanks. -/
theorem Apart.skipBlanks (h : Apart s) (p : List Char) (k : Nat) :
    ∃ q u, (before p s k).skipBlanks = before q u k ∧ startsBlank u = false ∧
      u.head? ≠ some '(' ∧ u.head? ≠ some '[' ∧ u.head? ≠ some '!' := by
  cases h with
  | nil => exact ⟨p, [], rfl, by simp [startsBlank]⟩
  | @closer ch s hc =>
    obtain ⟨hb, hclear⟩ := closers_clear ch hc
    exact ⟨p, ch :: s, skipBlanks_before hb, hb, by simp [hclear.1, hclear.2.1, hclear.2.2.1]⟩
  | @operator ch op s ho =>
    obtain ⟨hb, -, hclear⟩ := operator?_clear ho
    refine ⟨' ' :: p, ch :: s, ?_, hb, by simp [hclear]⟩
    rw [skipBlanks_before_blank (by decide)]
    exact skipBlanks_before hb

theorem skipBangsFrom_apart (h : Apart s) (count : Nat) (p : List Char) :
    skipBangsFrom false count p s = (count, skipFrom false p s) := by
  cases h with
  | nil => rfl
  | @closer ch s hc =>
    obtain ⟨hb, -, -, hbang, -⟩ := closers_clear ch hc
    simp only [startsBlank, Bool.or_eq_false_iff, beq_eq_false_iff_ne] at hb
    simp [skipBangsFrom, skipFrom, hb, hbang]
  | @operator ch op s ho =>
    obtain ⟨hb, -, -, -, hbang⟩ := operator?_clear ho
    simp only [startsBlank, Bool.or_eq_false_iff, beq_eq_false_iff_ne] at hb
    have hspace : Text.isBlank ' ' = true := by decide
    simp [skipBangsFrom, skipFrom, hb, hbang, hspace]

theorem skipBangsFrom_replicate (h : Apart s) (n count : Nat) (p : List Char) :
    ∃ q, skipBangsFrom false count p (List.replicate n '!' ++ s) =
      (count + n, skipFrom false q s) := by
  induction n generalizing count p with
  | zero => exact ⟨p, skipBangsFrom_apart h count p⟩
  | succ n ih =>
    obtain ⟨q, hq⟩ := ih (count + 1) ('!' :: p)
    have hbang : Text.isBlank '!' = false := by decide
    refine ⟨q, ?_⟩
    simp only [List.replicate_succ, List.cons_append, skipBangsFrom, hbang, hq]
    simp [Nat.add_comm n, Nat.add_assoc]

/-- Factorial signs before such a text are counted. -/
theorem factorials_before (h : Apart s) (n : Nat) (v : Value) (p : List Char) (k : Nat) :
    ∃ q, factorials v (before p (List.replicate n '!' ++ s) k) =
      (n.repeat (Value.unary .fact) v, (before q s k).skipBlanks) := by
  obtain ⟨q, hq⟩ := skipBangsFrom_replicate h n 0 p
  refine ⟨q, ?_⟩
  simp [factorials, skipBangs, before, hq, skipBlanks]

/-- An atom with the calls and subscripts after it, in text without special syntax. -/
def Based (c : Cursor) (v : Value) (d : Cursor) : Prop :=
  ∃ u e, Reads {} .atom c (.value u) e ∧
    if takesPostfix u then Reads {} (.postfixes u) e (.value v) d else v = u ∧ d = e

theorem Reads.atom_opens {c d : Cursor} {v : Value} (h : Reads {} .atom c (.value v) d) :
    ∃ ch, c.peek = some ch ∧ Token.opens ch = true := by
  cases h with
  | number hp hd => exact ⟨_, hp, by rcases hd with hd | hd <;> simp [Token.opens, hd]⟩
  | bracketed hp | vector hp => exact ⟨_, hp, by decide⟩
  | special _ _ _ _ hs => cases hs
  | @name _ _ ch _ hp _ _ _ _ hn =>
    obtain ⟨⟨word, n⟩, hw, -⟩ := Option.map_eq_some_iff.mp hn
    obtain ⟨rest, hr⟩ := List.head?_eq_some_iff.mp hp
    rw [hr] at hw
    exact ⟨ch, hp, by simp [Token.opens, Token.beginsName_of_name? hw]⟩

/-- A primary that is no function is such an atom with factorial signs. -/
theorem Based.primary {c d : Cursor} {v : Value} (h : Based c v d) (ht : Proper t) :
    Reads {} (.primary t) c (.value (factorials v d).1) (factorials v d).2 := by
  obtain ⟨u, e, ha, hd⟩ := h
  obtain ⟨ch, hp, ho⟩ := ha.atom_opens
  have hstop : c.peek.any t.stopAt = false := by
    cases hs : t.stopAt ch with
    | false => simp [hp, hs]
    | true =>
      simp [(closers_clear ch (ht ch hs)).2.2.2.2.2] at ho
  have hbar : c.peek ≠ some '|' := by
    rw [hp]
    rintro ⟨rfl⟩
    exact absurd ho (by decide)
  split at hd
  · next hu => exact .followed hstop hbar ha hu hd
  · next hu =>
    obtain ⟨rfl, rfl⟩ := hd
    exact .plain hstop hbar ha (by simpa using hu)

theorem binaryOp_operator (ht : Proper t) {op : Op} (h : operator? ch = some op) (p s : List Char)
    (k : Nat) : binaryOp t (before p (ch :: s) k) = .ok (some op, before (ch :: p) s k) := by
  obtain ⟨hb, hc, -⟩ := operator?_clear h
  have hb : startsBlank (ch :: s) = false := hb
  have hs : t.stopAt ch = false := by
    cases hs : t.stopAt ch with
    | false => rfl
    | true => exact absurd (ht ch hs) hc
  simp [binaryOp, skipBlanks_before hb, fill_before, hs, h]

/-- The operator after an operand, or the end of the expression there. -/
theorem binaryOp_before (ht : Proper t) (h : Onward t k s tail s') (p : List Char) :
    (tail = [] ∧ s' = s ∧ (before p s k).skipBlanks = before p s k ∧
      binaryOp t (before p s k) = .ok (none, before p s k)) ∨
    ∃ ch u op ss q, s = ' ' :: ch :: u ∧ tail = .sign op :: ss ∧
      binaryOp t (before p s k).skipBlanks = .ok (some op.1, before (ch :: ' ' :: p) u k) ∧
      Reads {} (.terms t) (before (ch :: ' ' :: p) u k) (.symbols ss) (before q s' k) := by
  cases h with
  | atEnd hk =>
    subst hk
    exact .inl ⟨rfl, rfl, rfl, rfl⟩
  | @stop ch s hs =>
    have hb : startsBlank (ch :: s) = false := (closers_clear ch (ht ch hs)).1
    refine .inl ⟨rfl, rfl, skipBlanks_before hb, ?_⟩
    simp [binaryOp, skipBlanks_before hb, fill_before, hs]
  | @more ch s ss s' op ho hr =>
    have hb : startsBlank (ch :: s) = false := (operator?_clear ho).1
    obtain ⟨q, hq⟩ := hr (ch :: ' ' :: p)
    refine .inr ⟨ch, s, op, ss, q, rfl, rfl, ?_, hq⟩
    rw [skipBlanks_before_blank (by decide), skipBlanks_before hb]
    exact binaryOp_operator ht ho _ s k

/-- An operand begins with no blank and no minus sign. -/
theorem Based.start {d : Cursor} {v : Value} (h : Based (before p s k) v d) :
    (before p s k).fill = before p s k ∧ (before p s k).atEnd = false ∧
      (before p s k).accept? '-' = none := by
  obtain ⟨u, e, ha, -⟩ := h
  obtain ⟨ch, hp, hch⟩ := ha.atom_opens
  obtain ⟨rest, rfl⟩ := List.head?_eq_some_iff.mp hp
  refine ⟨skipBlanks_before (startsBlank_of_opens hch), rfl, accept?_before_ne ?_⟩
  rintro ⟨rfl⟩
  exact absurd hch (by decide)

/-- An operand and what comes after it are the terms of an expression. -/
theorem Based.terms {d : Cursor} {v w : Value} {q : List Char} (h : Based (before p s k) v d)
    (hd : factorials v d = (w, (before q s' k).skipBlanks)) (ht : Proper t)
    {s'' : List Char} (ho : Onward t k s' tail s'') :
    ∃ q', Reads {} (.terms t) (before p s k) (.symbols (.operand w :: tail)) (before q' s'' k) := by
  obtain ⟨hfill, hend, hminus⟩ := h.start
  have hprimary := h.primary ht
  rw [hd] at hprimary
  rcases binaryOp_before ht ho q with
    ⟨rfl, rfl, hskip, hb⟩ | ⟨ch', u', op, ss, q', rfl, rfl, hb, hr⟩
  · rw [hskip] at hprimary
    exact ⟨q, .last (by rw [hfill, hend]) (by rw [hfill, hminus])
      (by rw [hfill]; exact hprimary) hb⟩
  · exact ⟨q', .more op (by rw [hfill, hend]) (by rw [hfill, hminus])
      (by rw [hfill]; exact hprimary) hb hr⟩

theorem factorials_operator {op : Op} (h : operator? ch = some op) (v : Value) (p s : List Char)
    (k : Nat) : factorials v (before p (ch :: s) k) = (v, before p (ch :: s) k) := by
  obtain ⟨hb, -, -, -, hbang⟩ := operator?_clear h
  simp only [startsBlank, Bool.or_eq_false_iff, beq_eq_false_iff_ne] at hb
  simp [factorials, skipBangs, before, skipBangsFrom, hb, hbang, Nat.repeat]

/-- An operand with an operator right after it. -/
theorem Based.more {v : Value} {q u : List Char} {op : Infix} (ht : Proper t)
    (h : Based (before p s k) v (before q (ch :: u) k)) (hch : operator? ch = some op.1)
    {ss : List Symbol} (hr : ∀ q, ∃ q', Reads {} (.terms t) (before q u k) (.symbols ss)
      (before q' s' k)) :
    ∃ q', Reads {} (.terms t) (before p s k) (.symbols (.operand v :: .sign op :: ss))
      (before q' s' k) := by
  obtain ⟨hfill, hend, hminus⟩ := h.start
  have hprimary := h.primary ht
  rw [factorials_operator hch] at hprimary
  obtain ⟨q', hq'⟩ := hr (ch :: q)
  exact ⟨q', .more op (by rw [hfill, hend]) (by rw [hfill, hminus])
    (by rw [hfill]; exact hprimary) (binaryOp_operator ht hch q u k) hq'⟩

/-- Blanks before terms do not matter. -/
theorem Reads.terms_blank {r : Reading} {c d e : Cursor} {ss : List Symbol}
    (h : Reads r (.terms t) d (.symbols ss) e) (hc : c.fill = d.fill) :
    Reads r (.terms t) c (.symbols ss) e := by
  cases h with
  | sign ha hs => exact .sign (hc ▸ ha) hs
  | last hend ha hp hb => exact .last (hc ▸ hend) (hc ▸ ha) (hc ▸ hp) hb
  | more op hend ha hp hb hs => exact .more op (hc ▸ hend) (hc ▸ ha) (hc ▸ hp) hb hs

theorem Reads.list_blank {r : Reading} {close : Char} {c d e : Cursor} {vs : List Value}
    (h : Reads r (.list close false) d (.values vs) e) (hc : c.fill = d.fill) :
    Reads r (.list close false) c (.values vs) e := by
  cases h with
  | final hs hv hp => exact .final (hs.terms_blank hc) hv hp
  | next hs hv hp hl => exact .next (hs.terms_blank hc) hv hp hl

theorem factorials_skipBlanks (h : Apart s) (n : Nat) (v : Value) (p : List Char) (k : Nat) :
    ∃ q, factorials v (before p (List.replicate n '!' ++ s) k).skipBlanks =
      (n.repeat (Value.unary .fact) v, (before q s k).skipBlanks) := by
  cases n with
  | zero =>
    obtain ⟨q, u, hu, hb, -, -, hbang⟩ := h.skipBlanks p k
    refine ⟨p, ?_⟩
    simp only [List.replicate_zero, List.nil_append, hu, factorials]
    cases u with
    | nil => rfl
    | cons ch u =>
      simp only [startsBlank, Bool.or_eq_false_iff, beq_eq_false_iff_ne] at hb
      have hbang : ch ≠ '!' := by simpa using hbang
      simp [skipBangs, before, skipBangsFrom, hb, hbang, Nat.repeat]
  | succ n =>
    have hb : startsBlank (List.replicate (n + 1) '!' ++ s) = false := rfl
    rw [skipBlanks_before hb]
    exact factorials_before h (n + 1) v p k

/-- A way to write `v` after which calls and subscripts are read as those of `v`. -/
def Carries (v : Value) (f : List Piece → List Piece) : Prop :=
  ∀ ps k p w (P : Cursor → Prop), Token.delimits (spell ps) = true →
    (∀ q, ∃ d, Reads {} (.postfixes v) (before q (spell ps) k) (.value w) d ∧ P d) →
    ∃ d, Based (before p (spell (f ps)) k) w d ∧ P d

def bangs (n : Nat) : List Piece := List.replicate n (.text "!")

theorem spell_bangs (n : Nat) (ps : List Piece) :
    spell (bangs n ++ ps) = List.replicate n '!' ++ spell ps := by
  induction n with
  | zero => rfl
  | succ n ih =>
    change '!' :: spell (bangs n ++ ps) = _
    rw [ih]
    rfl

theorem delimits_bangs (h : Apart s) (n : Nat) :
    Token.delimits (List.replicate n '!' ++ s) = true := by
  cases n with
  | zero => exact h.delimits
  | succ n => rfl

/-- A way to write `v` after which factorial signs are read as those of `v`. -/
def Primes (v : Value) (f : List Piece → List Piece) : Prop :=
  ∀ n ps k p, Apart (spell ps) → ∃ u d q, Based (before p (spell (f (bangs n ++ ps))) k) u d ∧
    factorials u d = (n.repeat (Value.unary .fact) v, (before q (spell ps) k).skipBlanks)

theorem Carries.primes {v : Value} {f : List Piece → List Piece} (h : Carries v f) :
    Primes v f := by
  intro n ps k p hs
  have hdone : ∀ q, ∃ d, Reads {} (.postfixes v) (before q (spell (bangs n ++ ps)) k) (.value v) d ∧
      ∃ q', factorials v d =
        (n.repeat (Value.unary .fact) v, (before q' (spell ps) k).skipBlanks) := by
    intro q
    rw [spell_bangs]
    refine ⟨_, .done ?_ ?_, factorials_skipBlanks hs n v q k⟩
    all_goals
      cases n with
      | zero =>
        obtain ⟨q', u, hu, -, hcall, hsub, -⟩ := hs.skipBlanks q k
        simp [hu, hcall, hsub]
      | succ n =>
        rw [skipBlanks_before rfl]
        simp [List.replicate_succ]
  obtain ⟨d, hd, q', hq'⟩ := h (bangs n ++ ps) k p v _
    (by rw [spell_bangs]; exact delimits_bangs hs n) hdone
  exact ⟨v, d, q', hd, hq'⟩

/-- Terms that are read from a way to write `v`, whatever follows. -/
def Spells (f : List Piece → List Piece) (ss : List Symbol) : Prop :=
  ∀ t, Proper t → ∀ ps k p tail s', Onward t k (spell ps) tail s' →
    ∃ q, Reads {} (.terms t) (before p (spell (f ps)) k) (.symbols (ss ++ tail)) (before q s' k)

theorem Primes.spells {v : Value} {f : List Piece → List Piece} (h : Primes v f) :
    Spells f [.operand v] := by
  intro t ht ps k p tail s' ho
  obtain ⟨u, d, q, hb, hd⟩ := h 0 ps k p (ho.apart ht)
  exact hb.terms hd ht ho

/-- The text of a tree is read back as the tree: as terms up to where the expression ends, as one
operand with the factorial signs after it, and as what calls and subscripts after it apply to.
After a function nothing else can stand. -/
structure ReadsBack (style : Style) (v : Value) : Prop where
  terms : ∃ ss, Phrase v.level ss v ∧ ∀ t, Proper t → ∀ ps k p tail s',
    Onward t k (spell ps) tail s' → (v.isFunc = true → tail = []) →
    ∃ q, Reads {} (.terms t) (before p (spell (v.pieces style ps)) k) (.symbols (ss ++ tail))
      (before q s' k)
  primes : v.needsBrackets .fact false = false → Primes v (v.pieces style)
  carries : v.isCarrier = true → Carries v (v.pieces style)

/-- The text of `v` is read as the tree `w`: as terms up to where the expression ends. -/
def ReadsAs (style : Style) (v w : Value) : Prop :=
  ∃ ss, SumPhrase ss w ∧ ∀ t, Proper t → ∀ ps k p s', Onward t k (spell ps) [] s' →
    ∃ q, Reads {} (.terms t) (before p (spell (v.pieces style ps)) k) (.symbols ss) (before q s' k)

section

variable {style : Style} {v : Value}

theorem ReadsBack.readsAs (h : ReadsBack style v) : ReadsAs style v v := by
  obtain ⟨ss, hph, hr⟩ := h.terms
  refine ⟨ss, hph.mono (Nat.zero_le _), fun t ht ps k p s' ho => ?_⟩
  obtain ⟨q, hq⟩ := hr t ht ps k p [] s' ho fun _ => rfl
  rw [List.append_nil] at hq
  exact ⟨q, hq⟩

theorem ReadsBack.of_primes (hf : v.isCarrier = true → Carries v (v.pieces style))
    (hp : Primes v (v.pieces style)) : ReadsBack style v where
  terms := ⟨[.operand v], .operand _ v,
    fun t ht ps k p tail s' ho _ => hp.spells t ht ps k p tail s' ho⟩
  primes := fun _ => hp
  carries := hf

theorem ReadsBack.of_carries (hc : Carries v (v.pieces style)) : ReadsBack style v :=
  .of_primes (fun _ => hc) hc.primes

/-- A tree before a bracket that closes it. -/
theorem ReadsBack.group (h : ReadsBack style v) {close : String} {ch : Char}
    (hs : close.toList = [ch]) (hc : ch ∈ closers) (ps : List Piece) (k : Nat) (p : List Char) :
    ∃ q, Reads {} (.group ch) (before p (spell (v.pieces style (.text close :: ps))) (k + 1))
      (.value v) (before q (spell ps) k) := by
  obtain ⟨ss, hph, hr⟩ := h.terms
  have hproper : Proper ⟨none, some ch⟩ := by
    intro c hc'
    have : ch = c := by simpa [Terminators.stopAt] using hc'
    exact this ▸ hc
  have ho : Onward ⟨none, some ch⟩ (k + 1) (spell (.text close :: ps)) [] (ch :: spell ps) := by
    simp only [spell_text, hs]
    exact .stop (by simp [Terminators.stopAt])
  obtain ⟨q, hq⟩ := hr _ hproper (.text close :: ps) (k + 1) p [] _ ho (fun _ => rfl)
  refine ⟨ch :: q, ?_⟩
  rw [List.append_nil] at hq
  exact .group hq (hph.mono (Nat.zero_le _)) accept?_before

/-- Brackets make a tree something to call, to subscript and to take factorials of. -/
theorem ReadsBack.bracketed (h : ReadsBack style v) (hv : takesPostfix v = true) :
    Carries v (fun ps => .text "(" :: v.pieces style (.text ")" :: ps)) := by
  intro ps k p w P _ hw
  obtain ⟨q, hq⟩ := @ReadsBack.group style v h ")" ')' rfl (by decide) ps k ('(' :: p)
  obtain ⟨d, hd, hP⟩ := hw q
  refine ⟨d, ⟨v, before q (spell ps) k, .bracketed rfl hq, ?_⟩, hP⟩
  rw [if_pos hv]
  exact hd

theorem asOperand_eq (hv : Readable v) (op : Op) (right : Bool) (f : List Piece → List Piece) :
    v.asOperand op right f = if v.needsBrackets op right
      then fun ps => .text "(" :: f (.text ")" :: ps) else f := by
  have hne : v ≠ .missing := by
    rintro rfl
    cases hv
  funext ps
  cases v with
  | missing => exact absurd rfl hne
  | _ =>
    simp only [Value.asOperand]
    split <;> rfl

/-- Of what is read only operators and functions are ever put in brackets as operands. -/
theorem takesPostfix_of_needsBrackets {op : Op} {right : Bool} (hv : Readable v)
    (hn : ∀ x, v ≠ .real x) (hb : v.needsBrackets op right = true) : takesPostfix v = true := by
  cases hv with
  | @int n h =>
    have hneg : ¬n < 0 := Int64.not_lt.mpr h
    simp [Value.needsBrackets, hneg] at hb
  | real x => exact absurd rfl (hn x)
  | _ => rfl

/-- A tree as an operand, in brackets or not. -/
theorem ReadsBack.operand (h : ReadsBack style v) (hv : Readable v) (hn : ∀ x, v ≠ .real x)
    {op : Op} (hop : op.isInfix = true) (right : Bool) :
    ∃ ss, Phrase (operandLevel op right) ss v ∧
      Spells (v.asOperand op right (v.pieces style)) ss := by
  rw [asOperand_eq hv]
  split
  · next hb =>
    exact ⟨_, .operand _ v, (h.bracketed (takesPostfix_of_needsBrackets hv hn hb)).primes.spells⟩
  · next hb =>
    have hb : v.needsBrackets op right = false := by simpa using hb
    obtain ⟨ss, hph, hr⟩ := h.terms
    refine ⟨ss, hph.mono (Value.level_of_noBrackets hop hb), ?_⟩
    intro t ht ps k p tail s' ho
    refine hr t ht ps k p tail s' ho fun hf => ?_
    cases v with
    | func => simp [Value.needsBrackets] at hb
    | _ => cases hf

theorem repeat_succ (n : Nat) (f : Value → Value) (x : Value) :
    (n + 1).repeat f x = n.repeat f (f x) := by
  induction n with
  | zero => rfl
  | succ n ih => exact congrArg f ih

theorem ReadsBack.factorial (h : ReadsBack style v) (hv : Readable v) (hn : ∀ x, v ≠ .real x) :
    ReadsBack style (.unary .fact v) := by
  have hp : Primes v (v.asOperand .fact false (v.pieces style)) := by
    rw [asOperand_eq hv]
    split
    · next hb => exact (h.bracketed (takesPostfix_of_needsBrackets hv hn hb)).primes
    · next hb => exact h.primes (by simpa using hb)
  refine .of_primes (fun hc => nomatch hc) ?_
  intro n ps k p hs
  obtain ⟨u, d, q, hb, hd⟩ := hp (n + 1) ps k p hs
  rw [repeat_succ] at hd
  exact ⟨u, d, q, hb, hd⟩

theorem sign_operator (style : Style) {op : Op} (hop : op.isInfix = true) :
    ∃ s ch, style.sign op = .text s ∧ s.toList = [ch] ∧ operator? ch = some op := by
  cases op with
  | none | fact => cases hop
  | add | sub | mod | pow => exact ⟨_, _, rfl, rfl, rfl⟩
  | mul | div =>
    cases style
    all_goals exact ⟨_, _, rfl, rfl, rfl⟩

theorem Spells.onward {f : List Piece → List Piece} {ss : List Symbol} (h : Spells f ss)
    (op : Infix) {sign : String} (hs : sign.toList = [ch]) (hch : operator? ch = some op.1)
    (ht : Proper t) {ps : List Piece} (ho : Onward t k (spell ps) tail s') :
    Onward t k (spell (.text " " :: .text sign :: .text " " :: f ps)) (.sign op :: (ss ++ tail))
      s' := by
  rw [spell_text, spell_text, spell_text, hs]
  refine .more op hch fun p => ?_
  obtain ⟨q, hq⟩ := h t ht ps k (' ' :: p) tail s' ho
  exact ⟨q, hq.terms_blank fill_before_blank⟩

theorem isMinus_eq_false {op : Op} (hv : Readable v) : Value.isMinus op v = false := by
  unfold Value.isMinus
  split
  · next n =>
    cases hv with
    | int h =>
      have hne : n ≠ -1 := by
        rintro rfl
        exact absurd h (by decide)
      simpa using hne
  · rfl

theorem needsBrackets_fact {op : Op} {l r : Value} (hop : op.isInfix = true) :
    (Value.binary op l r).needsBrackets .fact false = true := by
  revert hop
  cases op <;> simp [Value.needsBrackets, Op.strength, Op.isInfix]

theorem ReadsBack.binary {op : Op} {l r : Value} (hop : op.isInfix = true)
    (hl : Readable l) (hr : Readable r) (hln : ∀ x, l ≠ .real x) (hrn : ∀ x, r ≠ .real x)
    (hlb : ReadsBack style l) (hrb : ReadsBack style r) : ReadsBack style (.binary op l r) where
  terms := by
    obtain ⟨ls, hlp, hls⟩ := hlb.operand hl hln hop false
    obtain ⟨rs, hrp, hrs⟩ := hrb.operand hr hrn hop true
    obtain ⟨sign, ch, hsign, hs, hch⟩ := sign_operator style hop
    refine ⟨_, Phrase.binary ⟨op, hop⟩ hlp hrp, ?_⟩
    intro t ht ps k p tail s' ho _
    obtain ⟨q, hq⟩ := hls t ht _ k p _ s' (hrs.onward ⟨op, hop⟩ hs hch ht ho)
    refine ⟨q, ?_⟩
    simpa [Value.pieces, isMinus_eq_false hl, hsign] using hq
  primes := fun hb => nomatch (needsBrackets_fact hop).symm.trans hb
  carries := fun hc => nomatch hc

theorem ReadsBack.minus (h : ReadsBack style v) (hv : Readable v) (hn : ∀ x, v ≠ .real x) :
    ReadsBack style (.binary .mul (.int (-1)) v) where
  terms := by
    obtain ⟨ss, hph, hs⟩ := h.operand hv hn (rfl : Op.mul.isInfix = true) true
    refine ⟨_, Phrase.minus hph, ?_⟩
    intro t ht ps k p tail s' ho _
    obtain ⟨q, hq⟩ := hs t ht ps k ('-' :: p) tail s' ho
    have hfill : ∀ s, (before p ('-' :: s) k).fill = before p ('-' :: s) k :=
      fun s => fill_before_clear rfl
    refine ⟨q, .sign ?_ hq⟩
    exact (congrArg (accept? '-') (hfill _)).trans accept?_before
  primes := fun hb => nomatch (needsBrackets_fact rfl).symm.trans hb
  carries := fun hc => nomatch hc

theorem ReadsBack.func {params : List String} (hn : ∀ a ∈ params, Token.isName a = true)
    (h : ReadsBack style v) : ReadsBack style (.func params v) where
  terms := by
    obtain ⟨ss, hph, hr⟩ := h.terms
    refine ⟨_, .operand _ _, ?_⟩
    intro t ht ps k p tail s' ho hf
    obtain rfl := hf rfl
    obtain ⟨q, hq⟩ := @closureParams_before ('|' :: p) (' ' :: spell (v.pieces style ps)) (k + 1)
      params hn
    obtain ⟨q', hq'⟩ := hr t ht ps k (' ' :: q) [] s' ho fun _ => rfl
    rw [List.append_nil] at hq'
    have hclosure := Reads.closure hq (hq'.terms_blank fill_before_blank) (hph.mono (Nat.zero_le _))
    have hstop : t.stopAt '|' = false := by
      cases hs : t.stopAt '|' with
      | false => rfl
      | true => exact absurd (ht _ hs) (by decide)
    have hfill : ∀ s, (before p ('|' :: s) k).fill = before p ('|' :: s) k :=
      fun s => fill_before_clear rfl
    rcases binaryOp_before ht ho q' with ⟨-, rfl, -, hb⟩ | ⟨_, _, _, _, _, -, htail, -⟩
    · refine ⟨q', .last ?_ ?_ ?_ hb⟩
      · exact congrArg atEnd (hfill _)
      · exact (congrArg (accept? '-') (hfill _)).trans (accept?_before_ne (by simp))
      · refine (hfill _).symm ▸ .closed ?_ rfl hclosure
        exact hstop
    · cases htail
  primes := fun hb => nomatch hb
  carries := fun hc => nomatch hc

theorem textOfInt_digit {n : Int64} (hn : 0 ≤ n) :
    ∃ ch ds, (Number.textOfInt n).toList = ch :: ds ∧ ch.isDigit = true := by
  have hneg : ¬n < 0 := Int64.not_lt.mpr hn
  have hne : Decimal.digits n.toInt.natAbs ≠ [] := Nat.toDigits_ne_nil
  obtain ⟨ch, ds, hds⟩ := List.exists_cons_of_ne_nil hne
  refine ⟨ch, ds, by simp [Number.textOfInt, hneg, hds], ?_⟩
  have hmem : ch ∈ Nat.toDigits 10 n.toInt.natAbs := by
    change ch ∈ Decimal.digits n.toInt.natAbs
    simp [hds]
  exact Nat.isDigit_of_mem_toDigits (by decide) (by decide) hmem

theorem based_int {n : Int64} (hn : 0 ≤ n) (hs : Token.delimits s = true) (p : List Char)
    (k : Nat) :
    Based (before p ((Number.textOfInt n).toList ++ s) k) (.number (.int n))
      (before ((Number.textOfInt n).toList.reverse ++ p) s k) := by
  obtain ⟨ch, ds, hds, hch⟩ := textOfInt_digit hn
  have hpeek : (before p ((Number.textOfInt n).toList ++ s) k).peek = some ch := by simp [hds]
  exact ⟨_, _, .number hpeek (.inl hch) (number_before hn hs), by simp [takesPostfix]⟩

theorem ReadsBack.int {n : Int64} (hn : 0 ≤ n) : ReadsBack style (.number (.int n)) := by
  refine .of_primes (fun hc => nomatch hc) ?_
  intro m ps k p hs
  obtain ⟨q, hq⟩ := factorials_before hs m (.number (.int n))
    ((Number.textOfInt n).toList.reverse ++ p) k
  simp only [Value.pieces, Style.number, spell_text, spell_bangs]
  exact ⟨_, _, q, based_int hn (delimits_bangs hs m) p k, hq⟩

/-- A name begins like no number, group or vector. -/
theorem startsName_clear (h : Token.startsName ch = true) :
    ¬(ch.isDigit = true ∨ ch = '.') ∧ ch ≠ '(' ∧ ch ≠ '<' := by
  have hdigit : ch.isDigit = false := by
    simp only [Token.startsName, Char.isAlpha, Char.isUpper, Char.isLower, Bool.or_eq_true,
      Bool.and_eq_true, decide_eq_true_eq, ge_iff_le, UInt32.le_iff_toNat_le] at h
    rcases h with rfl | h
    · decide
    · simp only [Char.isDigit, ge_iff_le, Bool.and_eq_false_iff, decide_eq_false_iff_not,
        UInt32.le_iff_toNat_le]
      simp at h ⊢
      omega
  refine ⟨?_, ?_, ?_⟩
  · rintro (hd | rfl)
    · simp [hd] at hdigit
    · exact absurd h (by decide)
  · rintro rfl
    exact absurd h (by decide)
  · rintro rfl
    exact absurd h (by decide)

theorem styled_head (style : Style) {name : String} (hn : Token.isName name = true) :
    ∃ ch s, (style.name name).toList = ch :: s ∧ ¬(ch.isDigit = true ∨ ch = '.') ∧ ch ≠ '(' ∧
      ch ≠ '<' := by
  unfold Style.name
  split
  · next glyph word hf =>
    have hglyph : ∀ g ∈ glyphs, ¬(g.1.isDigit = true ∨ g.1 = '.') ∧ g.1 ≠ '(' ∧ g.1 ≠ '<' := by
      decide
    exact ⟨glyph, [], by simp, hglyph _ (List.mem_of_find?_eq_some hf)⟩
  · unfold Token.isName at hn
    split at hn
    · cases hn
    · next ch s hs => exact ⟨ch, s, hs, startsName_clear (Bool.and_eq_true_iff.mp hn).1⟩

theorem ReadsBack.var {name : String} (hn : Token.isName name = true) :
    ReadsBack style (.var name) := by
  refine .of_carries ?_
  intro ps k p w P hs hw
  obtain ⟨ch, u, hu, hdigit, hgroup, hvector⟩ := styled_head style hn
  have hname := @name?_before p (spell ps) k style name hn hs
  have hpeek : (before p ((style.name name).toList ++ spell ps) k).peek = some ch := by simp [hu]
  obtain ⟨d, hd, hP⟩ := hw ((style.name name).toList.reverse ++ p)
  simp only [Value.pieces, spell_text]
  exact ⟨d, ⟨_, _, .name hpeek hdigit hgroup hvector rfl hname, hd⟩, hP⟩

/-- Texts with commas between them before the bracket that closes them. -/
theorem reads_list {close : String} (hs : close.toList = [ch]) (hc : ch ∈ closers) (hne : ch ≠ ',')
    {vs ws : List Value} (h : List.Forall₂ (ReadsAs style) vs ws) (hvs : vs ≠ []) (first : Bool)
    (ps : List Piece) (k : Nat) (p : List Char) :
    ∃ q, Reads {} (.list ch first)
      (before p (spell (Value.piecesAll style vs (.text close :: ps))) (k + 1)) (.values ws)
      (before q (spell ps) k) := by
  have hproper : Proper ⟨some ',', some ch⟩ := by
    intro c hc'
    rcases Bool.or_eq_true_iff.mp hc' with hc' | hc'
    · have : ',' = c := by simpa using hc'
      exact this ▸ by decide
    · have : ch = c := by simpa using hc'
      exact this ▸ hc
  induction h generalizing first p with
  | nil => exact absurd rfl hvs
  | @cons v w vs ws hv hrest ih =>
    obtain ⟨ss, hph, hr⟩ := hv
    cases hrest with
    | nil =>
      have ho : Onward ⟨some ',', some ch⟩ (k + 1) (spell (.text close :: ps)) []
          (ch :: spell ps) := by
        rw [spell_text, hs]
        exact .stop (by simp [Terminators.stopAt])
      obtain ⟨q, hq⟩ := hr _ hproper _ (k + 1) p _ ho
      exact ⟨ch :: q, .final hq hph rfl⟩
    | @cons v' w' vs ws hv' hrest =>
      have ho : Onward ⟨some ',', some ch⟩ (k + 1)
          (spell (.text ", " :: Value.piecesAll style (v' :: vs) (.text close :: ps))) []
          (',' :: ' ' :: spell (Value.piecesAll style (v' :: vs) (.text close :: ps))) := by
        change Onward _ _ (',' :: ' ' :: spell _) _ _
        exact .stop (by simp [Terminators.stopAt])
      obtain ⟨q, hq⟩ := hr _ hproper _ (k + 1) p _ ho
      obtain ⟨q', hq'⟩ := ih (by simp) false (' ' :: ',' :: q)
      refine ⟨q', .next hq hph ?_ (hq'.list_blank fill_before_blank)⟩
      simpa using hne.symm

theorem carries_vector {vs ws : List Value} (h : List.Forall₂ (ReadsAs style) vs ws)
    (hl : 2 ≤ vs.length) : Carries (.vector ws) ((Value.vector vs).pieces style) := by
  intro ps k p w P _ hw
  have hne : vs ≠ [] := by
    rintro rfl
    cases hl
  obtain ⟨q, hq⟩ := @reads_list '>' style ">" rfl (by decide) (by decide) vs ws h hne true ps k
    ('<' :: p)
  obtain ⟨d, hd, hP⟩ := hw q
  exact ⟨d, ⟨.vector ws, before q (spell ps) k, .vector rfl hq (h.length_eq ▸ hl), hd⟩, hP⟩

theorem forall₂_readsAs {vs : List Value} (h : ∀ v ∈ vs, ReadsBack style v) :
    List.Forall₂ (ReadsAs style) vs vs := List.forall₂_same.mpr fun v hv => (h v hv).readsAs

theorem ReadsBack.vector {vs : List Value} (hl : 2 ≤ vs.length) (h : ∀ v ∈ vs, ReadsBack style v) :
    ReadsBack style (.vector vs) := .of_carries (carries_vector (forall₂_readsAs h) hl)

theorem ReadsBack.call {f : Value} {args : List Value} (hf : Readable f)
    (ht : takesPostfix f = true) (hfb : ReadsBack style f) (h : ∀ v ∈ args, ReadsBack style v) :
    ReadsBack style (.call f args false) := by
  have hcallee : Carries f (f.asCallee (f.pieces style)) := by
    cases f with
    | var | call => exact hfb.carries rfl
    | missing | builtin => cases hf
    | _ => exact hfb.bracketed ht
  refine .of_carries ?_
  intro ps k p w P _ hw
  have harg : ∀ q, ∃ q', Reads {} (.list ')' true)
      (before q (spell (Value.piecesAll style args (.text ")" :: ps))) (k + 1)) (.values args)
      (before q' (spell ps) k) := by
    intro q
    cases args with
    | nil => exact ⟨')' :: q, .empty rfl (by decide)⟩
    | cons v vs =>
      exact reads_list rfl (by decide) (by decide) (forall₂_readsAs h) (by simp) true ps k q
  have hpost : ∀ q, ∃ d, Reads {} (.postfixes f)
      (before q (spell (.text "(" :: Value.piecesAll style args (.text ")" :: ps))) k)
      (.value w) d ∧ P d := by
    intro q
    obtain ⟨q', hq'⟩ := harg ('(' :: q)
    obtain ⟨d, hd, hP⟩ := hw q'
    exact ⟨d, .call rfl hq' hd, hP⟩
  have hb := hcallee _ k p w P rfl hpost
  simpa [Value.pieces] using hb

theorem ReadsBack.subscript {base index : Value} (hb : Readable base)
    (ht : takesPostfix base = true) (hn : ∀ x, base ≠ .unary .fact x)
    (hbb : ReadsBack style base) (hib : ReadsBack style index) :
    ReadsBack style (.subscript base index) := by
  have hbase : Carries base (base.asOperand .fact false (base.pieces style)) := by
    rw [asOperand_eq hb]
    split
    · exact hbb.bracketed ht
    · next hbr =>
      cases hb with
      | int | real => cases ht
      | factorial => exact absurd rfl (hn _)
      | minus => exact absurd (needsBrackets_fact rfl) hbr
      | binary hop => exact absurd (needsBrackets_fact hop) hbr
      | func => exact absurd rfl hbr
      | _ => exact hbb.carries rfl
  refine .of_carries ?_
  intro ps k p w P _ hw
  have hpost : ∀ q, ∃ d, Reads {} (.postfixes base)
      (before q (spell (.text "[" :: index.pieces style (.text "]" :: ps))) k) (.value w) d ∧
        P d := by
    intro q
    obtain ⟨q', hq'⟩ := @ReadsBack.group style index hib "]" ']' rfl (by decide) ps k ('[' :: q)
    obtain ⟨d, hd, hP⟩ := hw q'
    exact ⟨d, .subscript rfl hq' hd, hP⟩
  exact hbase _ k p w P rfl hpost

end

end Cursor

end Reckon
