import Reckon.Proofs.Coercion
import Reckon.Proofs.Faithful

namespace Reckon

open Piece

namespace Value

/-- The tree that the digits of a word are read as, with a minus sign if it is negative. -/
def signed (n : Int64) : Value := if n < 0 then .binary .mul (.int (-1)) (.int (-n)) else .int n

mutual

/-- The tree that the text of a result is read as. -/
def literal : Value → Value
  | .number (.int n) => signed n
  | .number (.frac f) => .binary .div (signed f.num) (.int f.den)
  | .vector elems => .vector (literals elems)
  | v => v

def literals : List Value → List Value
  | [] => []
  | v :: vs => literal v :: literals vs

end

theorem literals_eq_map (vs : List Value) : literals vs = vs.map literal := by
  induction vs with
  | nil => rfl
  | cons v vs ih => simp [literals, ih]

/-- Results without reals that text can give: the least word has no text that is read as a word,
fractions are in lowest terms, and vectors have two elements at least. -/
inductive Canonical : Value → Prop
  | int {n : Int64} : n ≠ Int64.minValue → Canonical (.number (.int n))
  | frac {f : Fraction} : f.num ≠ Int64.minValue → 1 < f.den →
      Int.gcd f.num.toInt f.den.toInt = 1 → Canonical (.number (.frac f))
  | vector {elems : List Value} : 2 ≤ elems.length → (∀ v ∈ elems, Canonical v) →
      Canonical (.vector elems)

theorem Canonical.written {v : Value} (h : v.Canonical) (style : Style) :
    Written (v.pieces style) := by
  induction h with
  | @int n => exact .text (Token.isInk_textOfInt n)
  | @frac f =>
    obtain ⟨s, ch, hs, hch, ho⟩ := Cursor.sign_operator style (rfl : Op.div.isInfix = true)
    have hsign : (if style = .pretty then "÷" else "/") = s := Piece.text.inj hs
    refine .text ?_
    simp only [Style.number, hsign, String.toList_append, hch, List.forall_mem_append]
    exact ⟨⟨Token.isInk_textOfInt f.num, by simp [Token.isInk, ho]⟩, Token.isInk_textOfInt f.den⟩
  | vector _ _ ih =>
    exact (Written.mark "<" (by decide)).comp ((Written.all ih).comp (.mark ">" (by decide)))

end Value

namespace Number

/-- The text of a negative word is that of its opposite after a minus sign. -/
theorem toList_textOfInt_neg {n : Int64} (h : n < 0) (hmin : n ≠ Int64.minValue) :
    (textOfInt n).toList = '-' :: (textOfInt (-n)).toList := by
  have hneg : ¬-n < 0 := Int64.not_lt.mpr (Word.neg_nonneg_of_neg h hmin)
  have habs : (-n).toInt.natAbs = n.toInt.natAbs := by
    have hmag := Word.natAbs_magnitude n
    rwa [Word.magnitude, if_pos h] at hmag
  rw [textOfInt, textOfInt, if_pos h, if_neg hneg, habs]
  simp

end Number

namespace Cursor

open Grammar

variable {style : Style}

theorem readsAs_signed {n : Int64} (hn : n ≠ Int64.minValue) :
    ReadsAs style (.number (.int n)) (.signed n) := by
  unfold Value.signed
  split
  · next h =>
    have hpos := Word.neg_nonneg_of_neg h hn
    have hback : ReadsBack style (.binary .mul (.int (-1)) (.number (.int (-n)))) :=
      (ReadsBack.int hpos).minus (.int hpos) (by simp [Value.real])
    obtain ⟨ss, hph, hr⟩ := hback.readsAs
    refine ⟨ss, hph, fun t ht ps k p s' ho => ?_⟩
    have hspell : spell ((Value.number (.int n)).pieces style ps) =
        spell ((Value.binary .mul (.int (-1)) (.number (.int (-n)))).pieces style ps) := by
      have hminus : Value.isMinus .mul (.int (-1)) = true := rfl
      simp [Value.pieces, hminus, Value.asOperand, Value.needsBrackets, Style.number,
        Number.toList_textOfInt_neg h hn]
    rw [hspell]
    exact hr t ht ps k p s' ho
  · next h => exact (ReadsBack.int (Int64.not_lt.mp h)).readsAs

/-- The text of a fraction is read as a quotient; a minus sign belongs to the numerator. -/
theorem readsAs_quotient {f : Fraction} (hn : f.num ≠ Int64.minValue) (hd : 0 ≤ f.den) :
    ReadsAs style (.number (.frac f)) (.binary .div (.signed f.num) (.int f.den)) := by
  obtain ⟨sign, ch, hsign, hchars, ho⟩ := sign_operator style (rfl : Op.div.isInfix = true)
  have hsign : (if style = .pretty then "÷" else "/") = sign := Piece.text.inj hsign
  have hden : ReadsBack style (.number (.int f.den)) := .int hd
  obtain ⟨ss, hph, hr⟩ := hden.terms
  have hspell : ∀ ps, spell ((Value.number (.frac f)).pieces style ps) =
      (Number.textOfInt f.num).toList ++ ch :: ((Number.textOfInt f.den).toList ++ spell ps) := by
    intro ps
    simp [Value.pieces, Style.number, hsign, hchars]
  have hquotient : ∀ n, 0 ≤ n → ∀ t, Proper t → ∀ ps k p s', Onward t k (spell ps) [] s' →
      ∃ q, Reads {} (.terms t) (before p ((Number.textOfInt n).toList ++
        ch :: ((Number.textOfInt f.den).toList ++ spell ps)) k)
        (.symbols (.operand (.int n) :: .sign ⟨.div, rfl⟩ :: ss)) (before q s' k) := by
    intro n hn t ht ps k p s' hs
    refine (based_int hn (delimits_operator ho _) p k).more ht ho fun q => ?_
    obtain ⟨q', hq'⟩ := hr t ht ps k q [] s' hs fun _ => rfl
    rw [List.append_nil] at hq'
    exact ⟨q', hq'⟩
  have hlevel : operandLevel .div true ≤ 20 := by decide
  have hright : Phrase (operandLevel .div true) ss (.int f.den) := hph.mono hlevel
  unfold Value.signed
  split
  · next hneg =>
    have hleft := Phrase.minus (Phrase.operand (operandLevel .mul true) (.int (-f.num)))
    refine ⟨_, (Phrase.binary ⟨.div, rfl⟩ hleft hright).mono (Nat.zero_le _), ?_⟩
    intro t ht ps k p s' hs
    obtain ⟨q, hq⟩ := hquotient (-f.num) (Word.neg_nonneg_of_neg hneg hn) t ht ps k ('-' :: p) s' hs
    have hfill : ∀ s, (before p ('-' :: s) k).fill = before p ('-' :: s) k :=
      fun s => fill_before_clear rfl
    rw [hspell, Number.toList_textOfInt_neg hneg hn]
    exact ⟨q, .sign ((congrArg (accept? '-') (hfill _)).trans accept?_before) hq⟩
  · next hpos =>
    have hleft := Phrase.operand (operandLevel .div false) (.int f.num)
    refine ⟨_, (Phrase.binary ⟨.div, rfl⟩ hleft hright).mono (Nat.zero_le _), ?_⟩
    intro t ht ps k p s' hs
    rw [hspell]
    exact hquotient f.num (Int64.not_lt.mp hpos) t ht ps k p s' hs

end Cursor

/-- The text of a canonical result is read as its literal. -/
theorem Value.Canonical.readsAs {v : Value} (h : v.Canonical) (style : Style) :
    Cursor.ReadsAs style v v.literal := by
  induction h with
  | int hn => exact Cursor.readsAs_signed hn
  | frac hn hd _ =>
    exact Cursor.readsAs_quotient hn (Int64.le_of_lt (Int64.lt_trans (by decide) hd))
  | @vector elems hl _ ih =>
    have hall : List.Forall₂ (Cursor.ReadsAs style) elems (elems.map literal) :=
      List.forall₂_map_right_iff.mpr (List.forall₂_same.mpr ih)
    rw [literal, literals_eq_map]
    refine ⟨_, .one (.one (.power (.operand _))), fun t ht ps k p s' hs => ?_⟩
    exact (Cursor.carries_vector hall hl).primes.spells t ht ps k p [] s' hs

section

variable (host : Host) (c : Context)

theorem coerce_number (x : Number) (fuel : Nat) :
    (evaluator host (fuel + 1)).coerce c (.number x) = .ok (.number x) := rfl

/-- A number is settled. -/
theorem coerce_of_evaluate_number {v : Value} {x : Number} {fuel : Nat}
    (h : evaluator host (fuel + 1) .evaluate c v = .ok (.number x)) :
    (evaluator host (fuel + 1)).coerce c v = .ok (.number x) := by
  rw [Recur.coerce, h, ok_bind]
  rfl

/-- An operation on coerced numbers. -/
theorem evaluate_binary {op : Op} {l r : Value} {x y z : Number} {fuel : Nat}
    (hl : (evaluator host fuel).coerce c l = .ok (.number x))
    (hr : (evaluator host fuel).coerce c r = .ok (.number y))
    (hz : x.combine c.precision op y = .number z) :
    evaluator host (fuel + 1) .evaluate c (.binary op l r) = .ok (.number z) := by
  simp only [evaluator, Recur.evalStep, hl, hr, ok_bind, Recur.arith, Value.arith,
    Value.broadcast, Value.scalarOp, hz]
  rfl

theorem coerce_binary {op : Op} {l r : Value} {x y z : Number} {fuel : Nat}
    (hl : (evaluator host fuel).coerce c l = .ok (.number x))
    (hr : (evaluator host fuel).coerce c r = .ok (.number y))
    (hz : x.combine c.precision op y = .number z) :
    (evaluator host (fuel + 1)).coerce c (.binary op l r) = .ok (.number z) :=
  coerce_of_evaluate_number host c (evaluate_binary host c hl hr hz)

theorem coerce_signed (n : Int64) (fuel : Nat) :
    (evaluator host (fuel + 2)).coerce c (.signed n) = .ok (.int n) := by
  unfold Value.signed
  split
  · have hz : Number.combine c.precision .mul (.int (-1)) (.int (-n)) = .number (.int n) := by
      simp [Number.combine, Number.integerOp, Int64.neg_mul]
    exact coerce_binary host c (coerce_number host c _ fuel) (coerce_number host c _ fuel) hz
  · exact coerce_number host c _ (fuel + 1)

/-- The literal of a canonical result comes to the result. -/
theorem Value.Canonical.coerce_literal {v : Value} (h : v.Canonical) {fuel : Nat}
    (hfuel : sizeOf v + 2 ≤ fuel) : (evaluator host fuel).coerce c v.literal = .ok v := by
  induction h generalizing fuel with
  | @int n =>
    obtain ⟨k, rfl⟩ : ∃ k, fuel = k + 2 := ⟨fuel - 2, by omega⟩
    exact coerce_signed host c n k
  | @frac f hn hd hg =>
    obtain ⟨k, rfl⟩ : ∃ k, fuel = k + 3 := ⟨fuel - 3, by simp at hfuel; omega⟩
    exact coerce_binary host c (coerce_signed host c f.num k) (coerce_number host c _ (k + 1))
      (Number.integerOp_div hn hd hg)
  | @vector elems _ _ ih =>
    obtain ⟨k, rfl⟩ : ∃ k, fuel = k + 1 := ⟨fuel - 1, by omega⟩
    have hall : (elems.map literal).mapM ((evaluator host k).coerce c) = .ok elems := by
      refine mapM_map_eq fun v hv => ih v hv ?_
      have hlt := List.sizeOf_lt_of_mem hv
      simp only [Value.vector.sizeOf_spec] at hfuel
      omega
    have heval : evaluator host (k + 1) .evaluate c (.vector (elems.map literal)) =
        .ok (.vector elems) := by
      simp [evaluator, Recur.evalStep, hall]
    rw [literal, literals_eq_map, Recur.coerce, heval, ok_bind]
    rfl

end

/-- The text of a canonical result, in either style, is read as an expression that comes to the
result again in every context. -/
theorem result_restored {v : Value} (h : v.Canonical) (style : Style) :
    ∃ text, v.render style = .ok text ∧ Reading.parse {} text = .ok ⟨v.literal, 0⟩ ∧
      ∃ N, ∀ host c fuel, N ≤ fuel → (Engine.mk host fuel).coerce c v.literal = .ok v := by
  refine ⟨_, (h.written style).render, ?_, sizeOf v + 2, fun host c _ => h.coerce_literal host c⟩
  obtain ⟨ss, hph, hr⟩ := h.readsAs style
  obtain ⟨q, hq⟩ := hr {} (fun ch hc => nomatch hc) [] 0 [] [] (.atEnd rfl)
  refine Reading.parse_eq_ok_iff.mpr ⟨ss, .before q [] 0, ?_, hph, rfl⟩
  rw [String.toList_ofList]
  exact hq

theorem nested_vector_restored :
    let v : Value := .vector [.frac (-3) 4, .vector [.int (-2), .int 7]]
    v.Canonical ∧ ∃ text, v.render .pretty = .ok text ∧
      Reading.parse {} text = .ok ⟨v.literal, 0⟩ ∧
      ∃ N, ∀ host c fuel, N ≤ fuel → (Engine.mk host fuel).coerce c v.literal = .ok v := by
  intro v
  have hv : v.Canonical := by
    have hfrac : (Value.frac (-3) 4).Canonical := .frac (by decide) (by decide) (by decide)
    have hinner : (Value.vector [.int (-2), .int 7]).Canonical :=
      .vector (by decide) (by simpa using ⟨.int (by decide), .int (by decide)⟩)
    exact .vector (by decide) (by simpa using ⟨hfrac, hinner⟩)
  exact ⟨hv, result_restored hv .pretty⟩

end Reckon
