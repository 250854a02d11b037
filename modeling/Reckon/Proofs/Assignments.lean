import Reckon.Proofs.Brackets

/-!
Assignments with an operation. An operator before the `=` stands for the operation with the variable
on the left and the whole text after the `=`, as if that stood in brackets. Main statement:
`brackets_and_in_place`.
-/

namespace Reckon

/-- Whether a text is a name as it is written, be it a word or a glyph. -/
def Token.Writes (s : List Char) (name : String) : Prop := name? s = some (name, s.length)

instance (s : List Char) (name : String) : Decidable (Token.Writes s name) :=
  inferInstanceAs (Decidable (_ = _))

namespace Token

variable {s : List Char} {name : String} (h : Writes s name)
include h

/-- A name is written as a glyph or as a word. -/
theorem Writes.forms : (∃ g ∈ glyphs, s = [g.1]) ∨
    ∃ ch t, s = ch :: t ∧ startsName ch = true ∧ ∀ b ∈ t, continuesName b = true := by
  cases s with
  | nil => cases h
  | cons ch s =>
    simp only [Writes, name?, List.length_cons] at h
    split at h
    · next word hg =>
      have hempty : s = [] := by
        simp only [Option.some.injEq, Prod.mk.injEq] at h
        exact List.eq_nil_of_length_eq_zero (Nat.succ.inj h.2).symm
      obtain ⟨g, hfind, -⟩ := Option.map_eq_some_iff.mp hg
      have hch : g.1 = ch := by simpa using List.find?_some hfind
      exact .inl ⟨g, List.mem_of_find?_eq_some hfind, by rw [hch, hempty]⟩
    · split at h
      · next hstart =>
        have hword : (s.takeWhile continuesName).length = s.length := by
          simpa using (congrArg (·.map Prod.snd) h)
        have hall : s.takeWhile continuesName = s :=
          (List.takeWhile_prefix continuesName).eq_of_length hword
        exact .inr ⟨ch, s, rfl, hstart, List.takeWhile_eq_self_iff.mp hall⟩
      · cases h

theorem Writes.chars : ∀ ch ∈ s, ch ≠ '=' ∧ ch ≠ '#' := by
  have hglyph : ∀ g ∈ glyphs, g.1 ≠ '=' ∧ g.1 ≠ '#' := by decide
  have hclear : ∀ b, continuesName b = true → b ≠ '=' ∧ b ≠ '#' := by
    intro b hb
    refine ⟨?_, ?_⟩
    all_goals
      rintro rfl
      exact absurd hb (by decide)
  rcases h.forms with ⟨g, hg, rfl⟩ | ⟨ch, t, rfl, hstart, ht⟩
  · exact List.forall_mem_singleton.mpr (hglyph g hg)
  · exact List.forall_mem_cons.mpr
      ⟨hclear ch (by simp [continuesName, hstart]), fun b hb => hclear b (ht b hb)⟩

/-- A name begins like no number, group or vector. -/
theorem Writes.start : ∃ ch t, s = ch :: t ∧ opens ch = true ∧ ¬(ch.isDigit = true ∨ ch = '.') ∧
    ch ≠ '(' ∧ ch ≠ '<' := by
  have hglyph : ∀ g ∈ glyphs, ¬(g.1.isDigit = true ∨ g.1 = '.') ∧ g.1 ≠ '(' ∧ g.1 ≠ '<' := by
    decide
  rcases h.forms with ⟨g, hg, rfl⟩ | ⟨ch, t, rfl, hstart, -⟩
  · exact ⟨g.1, [], rfl, by simp [opens, beginsName_of_name? h], hglyph g hg⟩
  · exact ⟨ch, t, rfl, by simp [opens, beginsName_of_name? h], Cursor.startsName_clear hstart⟩

end Token

namespace Cursor

open Grammar

variable {s t p : List Char} {name : String} (h : Token.Writes s name)
include h

theorem name?_before_writes (ht : Token.Apart t) :
    (before p (s ++ t) 0).name? = some (name, before (s.reverse ++ p) t 0) := by
  have hfind : Token.name? (s ++ t) = some (name, s.length) := (Token.name?_apart ht s).trans h
  simp [Cursor.name?, hfind, advanceBy_before]

theorem skipBlanks_before_writes :
    (before p (s ++ t) 0).skipBlanks = before p (s ++ t) 0 := by
  obtain ⟨ch, u, rfl, hopens, -⟩ := h.start
  exact skipBlanks_before (startsBlank_of_opens hopens)

/-- A name is read as a variable before a blank and an operator. -/
theorem based_writes {ch : Char} {op : Op} (hop : operator? ch = some op) (u : List Char) :
    Based (before p (s ++ ' ' :: ch :: u) 0) (.var name)
      (before (' ' :: (s.reverse ++ p)) (ch :: u) 0) := by
  have hname := name?_before_writes (p := p) h (t := ' ' :: ch :: u) (.inr ⟨' ', _, rfl, by decide⟩)
  obtain ⟨hblank, -, hgroup, hindex, -⟩ := operator?_clear hop
  have hskip : (before (s.reverse ++ p) (' ' :: ch :: u) 0).skipBlanks =
      before (' ' :: (s.reverse ++ p)) (ch :: u) 0 := by
    rw [skipBlanks_before_blank (by decide)]
    exact skipBlanks_before hblank
  have hdone : Reads {} (.postfixes (.var name)) (before (s.reverse ++ p) (' ' :: ch :: u) 0)
      (.value (.var name)) (before (s.reverse ++ p) (' ' :: ch :: u) 0).skipBlanks :=
    .done (by simp [hskip, hgroup]) (by simp [hskip, hindex])
  rw [hskip] at hdone
  obtain ⟨b, w, rfl, -, hdigit, hb, hv⟩ := h.start
  exact ⟨_, _, .name rfl hdigit hb hv rfl hname, hdone⟩

theorem target_assign : (atStart (s ++ [' ']) []).target = .ok (.assign name) := by
  have hname := name?_before_writes (p := []) h (t := [' ']) (.inr ⟨' ', _, rfl, by decide⟩)
  change (before [] (s ++ [' ']) 0).target = _
  unfold target
  simp only [skipBlanks_before_writes h, hname]
  rfl

theorem target_operator {ch : Char} {op : Op} (hop : operator? ch = some op) :
    (atStart (s ++ [' ', ch]) []).target = .ok (.inPlace name op) := by
  have hname := name?_before_writes (p := []) h (t := [' ', ch]) (.inr ⟨' ', _, rfl, by decide⟩)
  obtain ⟨hblank, -, hgroup, -⟩ := operator?_clear hop
  have hskip : ∀ q, (before q [' ', ch] 0).skipBlanks = before (' ' :: q) [ch] 0 := by
    intro q
    rw [skipBlanks_before_blank (by decide)]
    exact skipBlanks_before hblank
  change (before [] (s ++ [' ', ch]) 0).target = _
  unfold target
  simp only [skipBlanks_before_writes h, hname, hskip, peek_before, List.head?_cons]
  unfold operator? at hop
  split at hop <;> cases hop
  all_goals rfl

end Cursor

theorem operator?_notSign {ch : Char} {op : Op} (h : Cursor.operator? ch = some op) :
    ch ≠ '=' ∧ ch ≠ '#' := by
  refine ⟨?_, ?_⟩
  · rintro rfl
    cases h
  · rintro rfl
    cases h

open Cursor Grammar

/-- What is assigned to a name is the expression after the first `=`. -/
theorem Reading.statement_of_writes {src name : String} {s rest back : List Char} {v : Value}
    {target : Statement.Target} {ss : List Symbol} {d : Cursor} (h : Token.Writes s name)
    (hrest : ∀ ch ∈ rest, ch ≠ '=' ∧ ch ≠ '#')
    (ht : (atStart (s ++ rest) []).target = .ok target)
    (hread : Reads {} (.terms {}) (before ('=' :: (s ++ rest).reverse) back 0) (.symbols ss) d)
    (hv : SumPhrase ss v) (hused : d.used = 0) (hsrc : src.toList = s ++ rest ++ '=' :: back) :
    Reading.statement {} src = .ok ⟨.ofTarget v target, 0⟩ := by
  have hfront : ∀ ch ∈ s ++ rest, ch ≠ '=' ∧ ch ≠ '#' := List.forall_mem_append.mpr ⟨h.chars, hrest⟩
  have hstart : (atStart src.toList []).skipBlanks = before [] src.toList 0 := by
    rw [hsrc, List.append_assoc]
    exact skipBlanks_before_writes h
  have hbegins : src.toList.isEmpty = false ∧ src.toList.head? ≠ some '~' := by
    obtain ⟨ch, u, rfl, hopens, -⟩ := h.start
    rw [hsrc]
    refine ⟨rfl, ?_⟩
    rintro ⟨rfl⟩
    exact absurd hopens (by decide)
  have hsplit : splitAssignment src.toList = some (s ++ rest, back) := by
    rw [hsrc]
    exact splitAssignment_append (fun hc => (hfront _ hc).1 rfl) (fun hc => (hfront _ hc).2 rfl)
  rw [← hused]
  refine statement_eq_ok_iff.mpr (.assignment ?_ ?_ hsplit ht (expr_eq_ok_iff.mpr ⟨ss, hread, hv⟩))
  · rw [hstart]
    exact hbegins.1
  · rw [hstart]
    exact accept?_before_ne hbegins.2

section

variable {x name src : String} {o : Char} {op : Op} {v : Value} {n : Nat}
  (hx : Token.Writes x.toList name) (ho : operator? o = some op)
  (h : Reading.parse {} src = .ok ⟨v, n⟩)
include hx ho h

/-- An operation in place takes all of the text after the `=` as its right operand. -/
theorem Reading.statement_in_place :
    Reading.statement {} (x ++ " " ++ String.singleton o ++ "= " ++ src) =
      .ok ⟨.assign name (.binary op (.var name) v), 0⟩ := by
  obtain ⟨ss, e, hread, hv, -⟩ := Reading.parse_eq_ok_iff.mp h
  obtain ⟨d, hd, hused⟩ := Reads.anywhere hread (' ' :: '=' :: (x.toList ++ [' ', o]).reverse)
  have hrest : ∀ ch ∈ [' ', o], ch ≠ '=' ∧ ch ≠ '#' := by
    simpa using operator?_notSign ho
  exact Reading.statement_of_writes hx hrest (target_operator hx ho)
    (hd.terms_blank fill_before_blank) hv hused (by simp)

/-- With the text in brackets the operation is written out. -/
theorem Reading.statement_written_out :
    Reading.statement {} (x ++ " = " ++ x ++ " " ++ String.singleton o ++ " (" ++ src ++ "\n)") =
      .ok ⟨.assign name (.binary op (.var name) v), 0⟩ := by
  obtain ⟨ss, e, hread, hv, -⟩ := Reading.parse_eq_ok_iff.mp h
  have hproper : Proper {} := fun ch hstop => by simp [Terminators.stopAt] at hstop
  have hinfix : op.isInfix = true := operator?_isInfix ho
  let sign : Infix := ⟨op, hinfix⟩
  have hsign : operator? o = some sign.1 := ho
  obtain ⟨q, hterms⟩ := (based_writes hx ho _).more hproper hsign fun q => by
    obtain ⟨q', hbracketed⟩ := Reads.bracketed_terms hread hv (' ' :: q)
    exact ⟨q', hbracketed.terms_blank fill_before_blank⟩
  have hphrase := Phrase.binary ⟨op, hinfix⟩ (.operand _ (.var name)) (.operand _ v)
  exact Reading.statement_of_writes hx (by simp) (target_assign hx)
    (hterms.terms_blank fill_before_blank) (hphrase.mono (Nat.zero_le _)) rfl (by simp)

end

/-- A text that is read as an expression is read as the same in brackets. After an operation in
place it stands for the right operand, as it does in brackets where the operation is written
out. -/
theorem brackets_and_in_place {src : String} {v : Value} {n : Nat}
    (h : Reading.parse {} src = .ok ⟨v, n⟩) :
    Reading.parse {} ("(" ++ src ++ "\n)") = .ok ⟨v, 0⟩ ∧
    ∀ x name o op, Token.Writes x.toList name → operator? o = some op →
      Reading.statement {} (x ++ " " ++ String.singleton o ++ "= " ++ src) =
        .ok ⟨.assign name (.binary op (.var name) v), 0⟩ ∧
      Reading.statement {} (x ++ " = " ++ x ++ " " ++ String.singleton o ++ " (" ++ src ++ "\n)") =
        .ok ⟨.assign name (.binary op (.var name) v), 0⟩ :=
  ⟨Reading.parse_bracketed h, fun _ _ _ _ hx ho =>
    ⟨Reading.statement_in_place hx ho h, Reading.statement_written_out hx ho h⟩⟩

theorem division_by_sum_in_place :
    let v : Value := .binary .add (.var "y") (.func ["x"] (.var "x"))
    let quotient : Value := .binary .div (.var "pi") v
    Reading.parse {} "y + |x| x # f" = .ok ⟨v, 0⟩ ∧ Token.Writes "π".toList "pi" ∧
      operator? '÷' = some .div ∧
      Reading.parse {} "(y + |x| x # f\n)" = .ok ⟨v, 0⟩ ∧
      Reading.statement {} "π ÷= y + |x| x # f" = .ok ⟨.assign "pi" quotient, 0⟩ ∧
      Reading.statement {} "π = π ÷ (y + |x| x # f\n)" = .ok ⟨.assign "pi" quotient, 0⟩ := by
  intro v quotient
  have hparse : Reading.parse {} "y + |x| x # f" = .ok ⟨v, 0⟩ := by cbv
  have hname : Token.Writes "π".toList "pi" := by decide
  have hop : operator? '÷' = some .div := rfl
  have hrule := brackets_and_in_place hparse
  have hstatements := hrule.2 "π" "pi" '÷' .div hname hop
  exact ⟨hparse, hname, hop, hrule.1, hstatements.1, hstatements.2⟩

end Reckon
