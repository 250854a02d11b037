import Reckon.Proofs.RoundTrip
import Reckon.Proofs.Neighbours

namespace Reckon

namespace Value

mutual

/-- An expression and all expressions in it. -/
def parts : Value → List Value
  | .binary op l r => .binary op l r :: (parts l ++ parts r)
  | .unary op x => .unary op x :: parts x
  | .call callee args synthesized =>
    .call callee args synthesized :: (parts callee ++ partsAll args)
  | .vector elems => .vector elems :: partsAll elems
  | .func params body => .func params body :: parts body
  | v => [v]

def partsAll : List Value → List Value
  | [] => []
  | v :: vs => parts v ++ partsAll vs

end

theorem mem_parts_self (v : Value) : v ∈ v.parts := by
  cases v <;> simp [parts]

theorem mem_partsAll {w : Value} {vs : List Value} :
    w ∈ partsAll vs ↔ ∃ v ∈ vs, w ∈ v.parts := by
  induction vs with
  | nil => simp [partsAll]
  | cons v vs ih => simp [partsAll, ih]

end Value

/-- Neither a real nor a subscript of a factorial. -/
def Value.Reparsable (v : Value) : Prop :=
  (∀ x, v ≠ .real x) ∧ ∀ base index, v ≠ .subscript (.unary .fact base) index

theorem Readable.readsBack {v : Value} (h : Readable v) (hf : ∀ w ∈ v.parts, w.Reparsable)
    (style : Style) : Cursor.ReadsBack style v := by
  induction h with
  | int hn => exact .int hn
  | real x => exact absurd rfl ((hf _ (Value.mem_parts_self _)).1 x)
  | @minus v hv ih =>
    have hsub : ∀ w ∈ v.parts, w.Reparsable := fun w hw => hf w (by simp [Value.parts, hw])
    exact (ih hsub).minus hv (hsub v v.mem_parts_self).1
  | @binary op l r hop hl hr ihl ihr =>
    have hsubl : ∀ w ∈ l.parts, w.Reparsable := fun w hw => hf w (by simp [Value.parts, hw])
    have hsubr : ∀ w ∈ r.parts, w.Reparsable := fun w hw => hf w (by simp [Value.parts, hw])
    exact .binary hop hl hr (hsubl l l.mem_parts_self).1 (hsubr r r.mem_parts_self).1
      (ihl hsubl) (ihr hsubr)
  | @factorial v hv ih =>
    have hsub : ∀ w ∈ v.parts, w.Reparsable := fun w hw => hf w (by simp [Value.parts, hw])
    exact (ih hsub).factorial hv (hsub v v.mem_parts_self).1
  | call hc ht _ ihc iha =>
    refine .call hc ht (ihc fun w hw => hf w (by simp [Value.parts, hw])) fun a ha => ?_
    exact iha a ha fun w hw => hf w (by simp [Value.parts, Value.mem_partsAll.mpr ⟨_, ha, hw⟩])
  | @subscript base index hb ht _ ihb ihi =>
    have hn : ∀ x, base ≠ .unary .fact x := by
      rintro x rfl
      exact (hf _ (Value.mem_parts_self _)).2 x index rfl
    refine .subscript hb ht hn (ihb fun w hw => hf w ?_) (ihi fun w hw => hf w ?_)
    all_goals simp [Value.subscript, Value.parts, Value.partsAll, hw]
  | var hn => exact .var hn
  | vector hl _ ih =>
    exact .vector hl fun a ha => ih a ha fun w hw =>
      hf w (by simp [Value.parts, Value.mem_partsAll.mpr ⟨_, ha, hw⟩])
  | func hn _ ih => exact .func hn (ih fun w hw => hf w (by simp [Value.parts, hw]))

open Piece

namespace Token

/-- The characters that the texts of trees are made of: those of names and numbers, operators,
brackets, commas and blanks. -/
def isInk (ch : Char) : Bool :=
  beginsName ch || ch.isDigit || (Cursor.operator? ch).isSome ||
    [' ', '!', ',', '.', '|', '(', ')', '[', ']', '<', '>'].contains ch

theorem isInk_of_continuesName {ch : Char} (h : continuesName ch = true) : isInk ch = true := by
  rcases Bool.or_eq_true_iff.mp h with h | h <;> simp [isInk, beginsName, h]

theorem isInk_styled (style : Style) {name : String} (hn : isName name = true) :
    ∀ ch ∈ (style.name name).toList, isInk ch = true := by
  have hglyph : ∀ g ∈ glyphs, isInk g.1 = true := by decide
  unfold Style.name
  split
  · next hf => simpa using hglyph _ (List.mem_of_find?_eq_some hf)
  · exact fun ch hc => isInk_of_continuesName (continuesName_of_isName hn ch hc)

theorem isInk_textOfInt (n : Int64) : ∀ ch ∈ (Number.textOfInt n).toList, isInk ch = true := by
  intro ch hc
  rcases textOfInt_chars n ch hc with rfl | h
  · decide
  · exact isInk_of_continuesName (continuesName_of_isDigit ch h)

open Decimal

theorem isInk_digits (n : Nat) : ∀ ch ∈ digits n, isInk ch = true := fun ch hc =>
  isInk_of_continuesName
    (continuesName_of_isDigit ch (Nat.isDigit_of_mem_toDigits (by decide) (by decide) hc))

theorem isInk_zeros (n : Nat) : ∀ ch ∈ zeros n, isInk ch = true := by
  intro ch hc
  rw [List.eq_of_mem_replicate hc]
  rfl

theorem isInk_plain {ds : List Char} (h : ∀ ch ∈ ds, isInk ch = true) (k : Int) :
    ∀ ch ∈ plain ds k, isInk ch = true := by
  unfold plain
  split
  · exact List.forall_mem_append.mpr
      ⟨List.forall_mem_cons.mpr ⟨rfl, List.forall_mem_cons.mpr ⟨rfl, isInk_zeros _⟩⟩, h⟩
  · split
    · exact List.forall_mem_append.mpr ⟨h, isInk_zeros _⟩
    · exact List.forall_mem_append.mpr ⟨fun ch hc => h ch (List.mem_of_mem_take hc),
        List.forall_mem_cons.mpr ⟨rfl, fun ch hc => h ch (List.mem_of_mem_drop hc)⟩⟩

theorem isInk_scientific (width : Nat) {ds : List Char} (h : ∀ ch ∈ ds, isInk ch = true) (k : Int) :
    ∀ ch ∈ scientific width ds k, isInk ch = true := by
  have hpoint : ∀ ch ∈ if 1 < ds.length then '.' :: ds.drop 1 else [], isInk ch = true := by
    split
    · exact List.forall_mem_cons.mpr ⟨rfl, fun ch hc => h ch (List.mem_of_mem_drop hc)⟩
    · simp
  have hsign : isInk (if k < 0 then '-' else '+') = true := by
    split <;> rfl
  have hfront : ∀ ch ∈ ds.take 1, isInk ch = true := fun ch hc => h ch (List.mem_of_mem_take hc)
  refine List.forall_mem_append.mpr ⟨List.forall_mem_append.mpr
    ⟨List.forall_mem_append.mpr ⟨hfront, hpoint⟩, ?_⟩, isInk_digits _⟩
  exact List.forall_mem_cons.mpr ⟨rfl, List.forall_mem_cons.mpr ⟨hsign, isInk_zeros _⟩⟩

theorem isInk_formatReal (x : Float) : ∀ ch ∈ (formatReal x).toList, isInk ch = true := by
  unfold formatReal Format.write
  split
  · split
    · simp [isInk, beginsName, startsName]
    · split <;> simp [isInk, beginsName, startsName, Cursor.operator?]
  · next negative m e _ =>
    have hbody : ∀ d k, ∀ ch ∈ if k < shownReal.leastPlain ∨ shownReal.significant ≤ k
        then scientific shownReal.exponentDigits (dropZeros (digits d)) k
        else plain (dropZeros (digits d)) k, isInk ch = true := by
      intro d k
      have hdigits : ∀ ch ∈ dropZeros (digits d), isInk ch = true := fun ch hc =>
        isInk_digits d ch
          (List.mem_reverse.mp ((List.dropWhile_subset _) (List.mem_reverse.mp hc)))
      split
      · exact isInk_scientific _ hdigits k
      · exact isInk_plain hdigits k
    rw [String.toList_ofList]
    dsimp only
    split
    · refine List.forall_mem_cons.mpr ⟨rfl, ?_⟩
      split
      · simp [isInk]
      · exact hbody _ _
    · split
      · simp [isInk]
      · exact hbody _ _

theorem isInk_params {params : List String} (hn : ∀ a ∈ params, isName a = true) :
    ∀ ch ∈ (", ".intercalate params).toList, isInk ch = true := by
  intro ch hc
  rcases params_chars hn ch hc with h | rfl | rfl
  · exact isInk_of_continuesName h
  · decide
  · decide

/-- The texts that stand between and around the parts of a tree. -/
def marks : List String := ["-", " ", "!", "[", "]", "(", ")", ", ", "<", ">", "|", "| "]

theorem isInk_marks : ∀ s ∈ marks, ∀ ch ∈ s.toList, isInk ch = true := by
  simp [marks, isInk, Cursor.operator?]

end Token

/-- Text without a comment sign. -/
def Piece.Plain : Piece → Prop
  | .text s => '#' ∉ s.toList
  | _ => False

namespace Value

/-- A way to write a value keeps the text plain and puts itself before it. -/
structure Writes (f : List Piece → List Piece) : Prop where
  plain : ∀ ps, (∀ q ∈ ps, q.Plain) → ∀ q ∈ f ps, q.Plain
  before : ∀ ps, spell ps <:+ spell (f ps)

/-- A way to write a value that puts texts of such characters before what follows. -/
def Written (f : List Piece → List Piece) : Prop :=
  ∃ texts : List String, (∀ s ∈ texts, ∀ ch ∈ s.toList, Token.isInk ch = true) ∧
    ∀ ps, f ps = texts.map .text ++ ps

theorem Written.writes {f : List Piece → List Piece} (h : Written f) : Writes f := by
  obtain ⟨texts, hink, hf⟩ := h
  refine ⟨fun ps hps q hq => ?_, fun ps => ?_⟩
  · rw [hf] at hq
    rcases List.mem_append.mp hq with hq | hq
    · obtain ⟨s, hs, rfl⟩ := List.mem_map.mp hq
      exact fun hc => absurd (hink s hs _ hc) (by decide)
    · exact hps q hq
  · rw [hf, spell, spell, List.flatMap_append]
    exact List.suffix_append _ _

/-- What is written by itself holds no other characters. -/
theorem Written.isInk {f : List Piece → List Piece} (h : Written f) :
    ∀ ch ∈ spell (f []), Token.isInk ch = true := by
  obtain ⟨texts, hink, hf⟩ := h
  intro ch hc
  rw [hf, List.append_nil] at hc
  obtain ⟨q, hq, hc⟩ := List.mem_flatMap.mp hc
  obtain ⟨s, hs, rfl⟩ := List.mem_map.mp hq
  exact hink s hs ch hc

theorem Written.render {style : Style} {v : Value} (h : Written (v.pieces style)) :
    v.render style = .ok (String.ofList (spell (v.pieces style []))) := by
  refine (joinFrom_eq_ok (fun q hq => ?_) "").trans (by simp)
  have hplain := h.writes.plain [] (by simp) q hq
  cases q with
  | text => rfl
  | _ => exact hplain.elim

theorem Written.comp {f g : List Piece → List Piece} (hf : Written f) (hg : Written g) :
    Written (fun ps => f (g ps)) := by
  obtain ⟨texts, hink, hf⟩ := hf
  obtain ⟨texts', hink', hg⟩ := hg
  refine ⟨texts ++ texts', List.forall_mem_append.mpr ⟨hink, hink'⟩, fun ps => ?_⟩
  simp only [hf, hg, List.map_append, List.append_assoc]

theorem Written.text {s : String} (hs : ∀ ch ∈ s.toList, Token.isInk ch = true) :
    Written (fun ps => .text s :: ps) :=
  ⟨[s], by simpa using hs, fun _ => rfl⟩

theorem Written.mark (s : String) (hs : s ∈ Token.marks) : Written (fun ps => .text s :: ps) :=
  .text (Token.isInk_marks s hs)

theorem Written.id : Written (fun ps => ps) := ⟨[], by simp, fun _ => rfl⟩

theorem Written.brackets {f : List Piece → List Piece} (hf : Written f) :
    Written (fun ps => .text "(" :: f (.text ")" :: ps)) :=
  (Written.mark _ (by decide)).comp (hf.comp (Written.mark _ (by decide)))

theorem Written.asOperand {v : Value} (hv : Readable v) {f : List Piece → List Piece}
    (hf : Written f) (op : Op) (right : Bool) : Written (v.asOperand op right f) := by
  rw [Cursor.asOperand_eq hv]
  split
  · exact hf.brackets
  · exact hf

theorem Written.asCallee {v : Value} (hv : Readable v) {f : List Piece → List Piece}
    (hf : Written f) : Written (v.asCallee f) := by
  cases v with
  | missing => cases hv
  | var | builtin | call => exact hf
  | _ => exact hf.brackets

theorem Written.all {style : Style} {vs : List Value} (h : ∀ v ∈ vs, Written (v.pieces style)) :
    Written (piecesAll style vs) := by
  induction vs with
  | nil => exact .id
  | cons v vs ih =>
    have hv := h v (by simp)
    cases vs with
    | nil => exact hv
    | cons w vs =>
      have hcomma : Written (fun ps => .text ", " :: piecesAll style (w :: vs) ps) :=
        (Written.mark _ (by decide)).comp (ih fun u hu => h u (List.mem_cons_of_mem v hu))
      exact hv.comp hcomma

end Value

theorem Value.pieces_binary {style : Style} {op : Op} {l r : Value} {sign : String}
    (hl : Readable l) (hs : style.sign op = .text sign) :
    (Value.binary op l r).pieces style = fun ps =>
      l.asOperand op false (l.pieces style)
        (.text " " :: .text sign :: .text " " :: r.asOperand op true (r.pieces style) ps) := by
  funext ps
  simp [Value.pieces, Cursor.isMinus_eq_false hl, hs]

theorem Value.pieces_call {style : Style} {f : Value} {args : List Value} :
    (Value.call f args false).pieces style = fun ps =>
      f.asCallee (f.pieces style) (.text "(" :: Value.piecesAll style args (.text ")" :: ps)) := by
  funext ps
  simp [Value.pieces]

/-- The left operand and the operator before the right one. -/
theorem Value.Written.left {style : Style} {op : Op} {l : Value} (hl : Readable l)
    (hw : Value.Written (l.pieces style)) (hop : op.isInfix = true) {sign : String}
    (hs : style.sign op = .text sign) : Value.Written (fun ps =>
      l.asOperand op false (l.pieces style) (.text " " :: .text sign :: .text " " :: ps)) := by
  obtain ⟨s, ch, hs', hch, ho⟩ := Cursor.sign_operator style hop
  have hink : ∀ c ∈ sign.toList, Token.isInk c = true := by
    cases hs.symm.trans hs'
    rw [hch]
    simp [Token.isInk, ho]
  have hblank : Value.Written (fun ps => .text " " :: ps) := .mark _ (by decide)
  exact (hw.asOperand hl op false).comp
    (hblank.comp ((Value.Written.text hink).comp hblank))

theorem Readable.written {v : Value} (h : Readable v) (style : Style) :
    Value.Written (v.pieces style) := by
  induction h with
  | @int n => exact .text (Token.isInk_textOfInt n)
  | real x => exact .text (Token.isInk_formatReal x)
  | minus hv ih => exact (Value.Written.mark "-" (by decide)).comp (ih.asOperand hv .mul true)
  | @binary op l r hop hl hr ihl ihr =>
    obtain ⟨sign, -, hsign, -⟩ := Cursor.sign_operator style hop
    rw [Value.pieces_binary hl hsign]
    exact (ihl.left hl hop hsign).comp (ihr.asOperand hr op true)
  | factorial hv ih =>
    exact (ih.asOperand hv .fact false).comp (Value.Written.mark "!" (by decide))
  | call hf _ _ ihf iha =>
    rw [Value.pieces_call]
    exact (ihf.asCallee hf).comp ((Value.Written.mark "(" (by decide)).comp
      ((Value.Written.all iha).comp (Value.Written.mark ")" (by decide))))
  | subscript hb _ _ ihb ihi =>
    exact (ihb.asOperand hb .fact false).comp
      ((Value.Written.mark "[" (by decide)).comp (ihi.comp (Value.Written.mark "]" (by decide))))
  | var hn => exact .text (Token.isInk_styled style hn)
  | vector _ _ ih =>
    exact (Value.Written.mark "<" (by decide)).comp
      ((Value.Written.all ih).comp (Value.Written.mark ">" (by decide)))
  | func hn _ ih =>
    have hparams := Value.Written.text (Token.isInk_params hn)
    exact (Value.Written.mark "|" (by decide)).comp
      (hparams.comp ((Value.Written.mark "| " (by decide)).comp ih))

namespace Value

/-- A way to write a value in which a factorial sign stands before the bracket of a subscript. -/
def Joins (f : List Piece → List Piece) : Prop := ∀ ps, ['!', '['] <:+: spell (f ps)

theorem Joins.inside {f g : List Piece → List Piece} (hf : Joins f) : Joins (fun ps => f (g ps)) :=
  fun ps => hf (g ps)

theorem Joins.after {f g : List Piece → List Piece} (hg : Joins g) (hf : Written f) :
    Joins (fun ps => f (g ps)) := fun ps => (hg ps).trans (hf.writes.before (g ps)).isInfix

theorem Joins.brackets {f : List Piece → List Piece} (hf : Joins f) :
    Joins (fun ps => .text "(" :: f (.text ")" :: ps)) :=
  Joins.after (f := fun ps => .text "(" :: ps) hf.inside (.mark _ (by decide))

theorem Joins.asOperand {v : Value} (hv : Readable v) {f : List Piece → List Piece} (hf : Joins f)
    (op : Op) (right : Bool) : Joins (v.asOperand op right f) := by
  rw [Cursor.asOperand_eq hv]
  split
  · exact hf.brackets
  · exact hf

theorem Joins.asCallee {v : Value} (hv : Readable v) {f : List Piece → List Piece} (hf : Joins f) :
    Joins (v.asCallee f) := by
  cases v with
  | missing => cases hv
  | var | builtin | call => exact hf
  | _ => exact hf.brackets

theorem Joins.all {style : Style} {vs : List Value} (hw : ∀ v ∈ vs, Written (v.pieces style))
    {v : Value} (hv : v ∈ vs) (hj : Joins (v.pieces style)) : Joins (piecesAll style vs) := by
  induction vs with
  | nil => cases hv
  | cons u vs ih =>
    cases vs with
    | nil => exact List.mem_singleton.mp hv ▸ hj
    | cons w vs =>
      rcases List.mem_cons.mp hv with rfl | hv
      · exact hj.inside
      · have hrest := ih (fun x hx => hw x (List.mem_cons_of_mem u hx)) hv
        have hcomma : Written (fun ps => u.pieces style (.text ", " :: ps)) :=
          (hw u (by simp)).comp (.mark _ (by decide))
        exact hrest.after hcomma

end Value

/-- The text of a tree in which a factorial is subscripted shows it. -/
theorem Readable.joins {style : Style} {v : Value} (h : Readable v) {b i : Value}
    (hm : .subscript (.unary .fact b) i ∈ v.parts) : Value.Joins (v.pieces style) := by
  induction h with
  | int | var | real => simp [Value.parts, Value.subscript] at hm
  | minus hv ih =>
    have hin := ih (by simpa [Value.parts, Value.subscript, Value.int] using hm)
    have hsign : Value.Written (fun ps => .text "-" :: ps) := .mark _ (by decide)
    exact (hin.asOperand hv .mul true).after hsign
  | @binary op l r hop hl hr ihl ihr =>
    obtain ⟨sign, -, hsign, -⟩ := Cursor.sign_operator style hop
    rw [Value.pieces_binary hl hsign]
    simp only [Value.parts, Value.subscript, List.mem_cons, List.mem_append, reduceCtorEq,
      false_or] at hm
    rcases hm with hm | hm
    · exact ((ihl hm).asOperand hl op false).inside
    · exact ((ihr hm).asOperand hr op true).after ((hl.written style).left hl hop hsign)
  | factorial hv ih =>
    have hin := ih (by simpa [Value.parts, Value.subscript] using hm)
    exact (hin.asOperand hv .fact false).inside
  | @call f args hf _ ha ihf iha =>
    rw [Value.pieces_call]
    simp only [Value.parts, Value.subscript, List.mem_cons, List.mem_append, Value.call.injEq,
      Bool.true_eq_false, and_false, false_or] at hm
    rcases hm with hm | hm
    · exact ((ihf hm).asCallee hf).inside
    · obtain ⟨a, hma, hm⟩ := Value.mem_partsAll.mp hm
      have hin : Value.Joins (Value.piecesAll style args) :=
        .all (fun u hu => (ha u hu).written style) hma (iha a hma hm)
      have hopen : Value.Written (fun ps => f.asCallee (f.pieces style) (.text "(" :: ps)) :=
        ((hf.written style).asCallee hf).comp (.mark _ (by decide))
      exact Value.Joins.after (g := fun ps => Value.piecesAll style args (.text ")" :: ps))
        hin.inside hopen
  | @subscript base index hb _ hi ihb ihi =>
    have hcases : base = .unary .fact b ∨ .subscript (.unary .fact b) i ∈ base.parts ∨
        .subscript (.unary .fact b) i ∈ index.parts := by
      simp only [Value.subscript, Value.parts, Value.partsAll, List.mem_cons, List.mem_append,
        Value.call.injEq, List.cons.injEq, List.not_mem_nil, or_false, reduceCtorEq, false_or] at hm
      rcases hm with hm | hm | hm
      · exact .inl hm.2.1.1.symm
      · exact .inr (.inl hm)
      · exact .inr (.inr hm)
    have hopen : Value.Written (fun ps =>
        base.asOperand .fact false (base.pieces style) (.text "[" :: ps)) :=
      ((hb.written style).asOperand hb .fact false).comp (.mark _ (by decide))
    rcases hcases with rfl | hm | hm
    · cases hb with
      | factorial hx =>
        intro ps
        have hbefore := ((hx.written style).asOperand hx .fact false).writes.before
          (.text "!" :: .text "[" :: index.pieces style (.text "]" :: ps))
        exact List.IsInfix.trans ⟨[], _, rfl⟩ hbefore.isInfix
    · exact ((ihb hm).asOperand hb .fact false).inside
    · exact Value.Joins.after (g := fun ps => index.pieces style (.text "]" :: ps))
        (ihi hm).inside hopen
  | @vector elems _ he ih =>
    simp only [Value.parts, Value.subscript, List.mem_cons, reduceCtorEq, false_or] at hm
    obtain ⟨a, hma, hm⟩ := Value.mem_partsAll.mp hm
    have hin : Value.Joins (Value.piecesAll style elems) :=
      .all (fun u hu => (he u hu).written style) hma (ih a hma hm)
    have hopen : Value.Written (fun ps => .text "<" :: ps) := .mark _ (by decide)
    exact Value.Joins.after (g := fun ps => Value.piecesAll style elems (.text ">" :: ps))
      hin.inside hopen
  | @func params body hn _ ih =>
    have hin := ih (by simpa [Value.parts, Value.subscript] using hm)
    have hopen : Value.Written (fun ps =>
        .text "|" :: .text (", ".intercalate params) :: .text "| " :: ps) :=
      (Value.Written.mark _ (by decide)).comp
        ((Value.Written.text (Token.isInk_params hn)).comp (.mark _ (by decide)))
    exact hin.after hopen

/-- A tree that text is read as comes out as text. -/
theorem Readable.render {v : Value} (hv : Readable v) (style : Style) :
    v.render style = .ok (String.ofList (spell (v.pieces style []))) := (hv.written style).render

/-- The text of a tree without reals and subscripted factorials is read as the tree, wherever it
stands last. -/
theorem Readable.reads_last {v : Value} (hv : Readable v) (hf : ∀ w ∈ v.parts, w.Reparsable)
    (style : Style) (p : List Char) :
    ∃ ss q, Cursor.Reads {} (.terms {}) (.before p (spell (v.pieces style [])) 0)
      (.symbols ss) (.before q [] 0) ∧ Grammar.SumPhrase ss v := by
  obtain ⟨ss, hph, hread⟩ := (hv.readsBack hf style).terms
  obtain ⟨q, hq⟩ := hread {} (fun ch hc => nomatch hc) [] 0 p [] [] (.atEnd rfl) fun _ => rfl
  rw [List.append_nil] at hq
  exact ⟨ss, q, hq, hph.mono (Nat.zero_le _)⟩

/-- The text of a tree that was read is read back as the same tree, in either style, exactly if no
factorial is subscripted in it. -/
theorem Reading.reparse_iff {src : String} {v : Value} {n : Nat}
    (h : Reading.parse {} src = .ok ⟨v, n⟩) (hr : ∀ x, .real x ∉ v.parts) (style : Style) :
    ∃ s, v.render style = .ok s ∧ (Reading.parse {} s = .ok ⟨v, 0⟩ ↔
      ∀ base index, .subscript (.unary .fact base) index ∉ v.parts) := by
  have hv := Reading.parse_readable rfl h
  have hreal : ∀ w ∈ v.parts, ∀ x, w ≠ .real x := fun w hw x he => hr x (he ▸ hw)
  have hplain := (hv.written style).writes.plain [] (by simp)
  have hrender := hv.render style
  refine ⟨_, hrender, ?_, ?_⟩
  · intro hparse base index hm
    refine Reading.parse_apart ?_ hparse ?_
    · rw [String.toList_ofList]
      intro hc
      obtain ⟨q, hq, hc⟩ := List.mem_flatMap.mp hc
      cases q with
      | text s => exact hplain _ hq hc
      | _ => exact hplain _ hq
    · rw [String.toList_ofList]
      exact hv.joins hm []
  · intro hs
    have hparts : ∀ w ∈ v.parts, w.Reparsable := fun w hw =>
      ⟨hreal w hw, fun b i he => hs b i (he ▸ hw)⟩
    obtain ⟨ss, q, hq, hph⟩ := hv.reads_last hparts style []
    refine Reading.parse_eq_ok_iff.mpr ⟨ss, .before q [] 0, ?_, hph, rfl⟩
    rw [String.toList_ofList]
    exact hq

theorem Reading.reparse_negated_factorial :
    Reading.parse {} "-f(x)!" = .ok ⟨.binary .mul (.int (-1))
      (.unary .fact (.call (.var "f") [.var "x"] false)), 0⟩ ∧
    ∃ s, (Value.binary .mul (.int (-1)) (.unary .fact (.call (.var "f") [.var "x"] false))).render
      .pretty = .ok s ∧
      (Reading.parse {} s = .ok ⟨.binary .mul (.int (-1))
        (.unary .fact (.call (.var "f") [.var "x"] false)), 0⟩ ↔
      ∀ base index, .subscript (.unary .fact base) index ∉
        (Value.binary .mul (.int (-1))
          (.unary .fact (.call (.var "f") [.var "x"] false))).parts) := by
  have hparse : Reading.parse {} "-f(x)!" = .ok ⟨.binary .mul (.int (-1))
      (.unary .fact (.call (.var "f") [.var "x"] false)), 0⟩ := by cbv
  exact ⟨hparse, Reading.reparse_iff hparse
    (by simp [Value.parts, Value.partsAll, Value.int, Value.real]) .pretty⟩

/-- A subscript of a factorial loses its brackets, and the text is refused. -/
theorem Reading.reparse_subscripted_factorial :
    Reading.parse {} "(x!)[y]" =
      .ok ⟨.subscript (.unary .fact (.var "x")) (.var "y"), 0⟩ ∧
    (∀ style, (Value.subscript (.unary .fact (.var "x")) (.var "y")).render style = .ok "x![y]") ∧
    Reading.parse {} "x![y]" = .error ⟨.error ⟨.unexpected '[', 3⟩, 0⟩ := by
  refine ⟨by cbv, fun style => ?_, by cbv⟩
  cases style <;> cbv

end Reckon
