import Reckon.Proofs.Faithful
import Reckon.Proofs.Statements

namespace Reckon

/-- How a text is read as a statement: as a deletion, an expression, or what is assigned or
defined. -/
inductive Reading.States (r : Reading) (src : String) : Statement → Nat → Prop
  | deletion {c s} : (Cursor.atStart src.toList []).skipBlanks.accept? '~' = some c →
      c.deletion = .ok s → States r src s 0
  | expression {v n} : (Cursor.atStart src.toList []).skipBlanks.atEnd = false →
      (Cursor.atStart src.toList []).skipBlanks.accept? '~' = none →
      splitAssignment src.toList = none → r.parse src = .ok ⟨v, n⟩ → States r src (.expr v) n
  | assignment {front back target v d} : (Cursor.atStart src.toList []).skipBlanks.atEnd = false →
      (Cursor.atStart src.toList []).skipBlanks.accept? '~' = none →
      splitAssignment src.toList = some (front, back) →
      (Cursor.atStart front []).target = .ok target →
      Cursor.expr r ⟨'=' :: front.reverse, back, 0, r.lines.map String.toList, 0⟩ =
        .ok (some v, d) →
      States r src (.ofTarget v target) d.used

theorem Reading.statement_eq_ok_iff {r : Reading} {src : String} {s : Statement} {n : Nat} :
    r.statement src = .ok ⟨s, n⟩ ↔ r.States src s n := by
  constructor
  · intro h
    unfold statement at h
    dsimp only at h
    cases hend : (Cursor.atStart src.toList []).skipBlanks.atEnd with
    | true => simp [hend] at h
    | false =>
      simp only [hend, Bool.false_eq_true, ↓reduceIte] at h
      cases htilde : (Cursor.atStart src.toList []).skipBlanks.accept? '~' with
      | some c =>
        simp only [htilde] at h
        cases hd : c.deletion with
        | error e => simp [hd] at h
        | ok s' =>
          simp only [hd] at h
          cases h
          exact .deletion htilde hd
      | none =>
        simp only [htilde] at h
        cases hsplit : splitAssignment src.toList with
        | none =>
          simp only [hsplit] at h
          obtain ⟨⟨v, m⟩, hv, h⟩ := bind_eq_ok_iff.mp h
          cases h
          exact .expression hend htilde hsplit hv
        | some p =>
          simp only [hsplit] at h
          cases ht : (Cursor.atStart p.1 []).target with
          | error e => simp [ht] at h
          | ok target =>
            simp only [ht] at h
            obtain ⟨⟨v, d⟩, he, h⟩ := bind_eq_ok_iff.mp h
            cases v with
            | none => cases h
            | some v =>
              cases h
              exact .assignment hend htilde hsplit ht he
  · intro h
    cases h with
    | deletion htilde hd =>
      simp [statement, Cursor.atEnd_of_accept? htilde, htilde, hd]
    | expression hend htilde hsplit hv =>
      simp [statement, hend, htilde, hsplit, hv]
    | assignment hend htilde hsplit ht he =>
      simp [statement, hend, htilde, hsplit, ht, he]

namespace Statement

/-- What is assigned, defined or deleted is a name, and so are the parameters. -/
def Named : Statement → Prop
  | .expr _ | .clear => True
  | .assign name _ | .delete name => Token.isName name = true
  | .define name params _ => ∀ a ∈ name :: params, Token.isName a = true

/-- Statements that text is read as. -/
structure Readable (s : Statement) : Prop where
  named : s.Named
  value : ∀ v, s.value? = some v → Reckon.Readable v

def Target.Named : Target → Prop
  | .assign name => Token.isName name = true
  | .inPlace name op => Token.isName name = true ∧ op.isInfix = true
  | .define name params => ∀ a ∈ name :: params, Token.isName a = true

theorem Target.Named.readable {target : Target} (h : target.Named) {v : Value}
    (hv : Reckon.Readable v) : (ofTarget v target).Readable := by
  cases target with
  | assign name =>
    refine ⟨h, ?_⟩
    rintro _ ⟨⟩
    exact hv
  | inPlace name op =>
    refine ⟨h.1, ?_⟩
    rintro _ ⟨⟩
    exact .binary h.2 (.var h.1) hv
  | define name params =>
    refine ⟨h, ?_⟩
    rintro _ ⟨⟩
    exact hv

end Statement

namespace Cursor

theorem definedParams_isName {fuel : Nat} {names ns : List String} {c d : Cursor}
    (h : definedParams fuel names c = .ok (ns, d)) (hnames : ∀ a ∈ names, Token.isName a = true) :
    ∀ a ∈ ns, Token.isName a = true := by
  induction fuel generalizing names c with
  | zero => cases h
  | succ fuel ih =>
    unfold definedParams at h
    split at h
    · cases h
    · next name e he =>
      have hall : ∀ a ∈ names ++ [name], Token.isName a = true :=
        List.forall_mem_append.mpr ⟨hnames, by simpa using name?_isName he⟩
      dsimp only at h
      split at h
      · cases h
        exact hall
      · exact ih h hall
      · cases h

theorem target_named {c : Cursor} {target : Statement.Target} (h : c.target = .ok target) :
    target.Named := by
  unfold Cursor.target at h
  dsimp only at h
  split at h
  · split at h <;> cases h
  · next name d hn =>
    have hname := name?_isName hn
    split at h
    · cases h
      exact hname
    · split at h
      · cases eq_of_ending h
        exact by simpa [Statement.Target.Named] using hname
      · obtain ⟨⟨params, e⟩, hp, h⟩ := bind_eq_ok_iff.mp h
        cases eq_of_ending h
        exact List.forall_mem_cons.mpr ⟨hname, definedParams_isName hp (by simp)⟩
    · split at h
      · next op hop =>
        cases eq_of_ending h
        exact ⟨hname, operator?_isInfix hop⟩
      · cases h

theorem deletion_readable {c : Cursor} {s : Statement} (h : c.deletion = .ok s) :
    s.Readable := by
  unfold deletion at h
  split at h
  · cases eq_of_ending h
    exact ⟨trivial, fun _ hv => nomatch hv⟩
  · dsimp only at h
    split at h
    · cases h
    · next hn =>
      cases eq_of_ending h
      exact ⟨name?_isName hn, fun _ hv => nomatch hv⟩

end Cursor

/-- Text without special syntax is read as a statement of the known form. -/
theorem Reading.States.readable {r : Reading} (hr : r.specials = []) {src : String}
    {s : Statement} {n : Nat} (h : r.States src s n) : s.Readable := by
  cases h with
  | deletion _ hd => exact Cursor.deletion_readable hd
  | expression _ _ _ hv =>
    refine ⟨trivial, ?_⟩
    rintro _ ⟨⟩
    exact parse_readable hr hv
  | assignment _ _ _ ht he =>
    obtain ⟨ss, hs, hv⟩ := Cursor.expr_eq_ok_iff.mp he
    exact (Cursor.target_named ht).readable (Cursor.readable_of_phrase hv (hs.readable hr trivial))

namespace Cursor

variable {name : String} {params : List String} {p s : List Char} {k : Nat}

theorem Reads.terms_atEnd {r : Reading} {t : Terminators} {c d : Cursor}
    {ss : List Grammar.Symbol} (h : Reads r (.terms t) c (.symbols ss) d) :
    c.fill.atEnd = false := by
  cases h with
  | sign ha => exact atEnd_of_accept? ha
  | last hend | more _ hend => exact hend

/-- A sign that does not occur is not found first. -/
theorem accept?_atStart {ch : Char} (h : ch ∉ s) :
    (atStart s []).skipBlanks.accept? ch = none := by
  refine if_neg fun hp => h ?_
  have htext : (atStart s []).skipBlanks.text = s := text_skipBlanks _
  rw [← htext]
  exact List.mem_append_right _ (List.mem_of_mem_head? hp)

/-- A text that begins with a name begins with a character of names. -/
theorem head?_of_isName (hn : Token.isName name = true) {ch : Char}
    (h : (name.toList ++ s).head? = some ch) : Token.continuesName ch = true := by
  refine Token.continuesName_of_isName hn ch ?_
  cases hl : name.toList with
  | nil => simp [Token.isName, hl] at hn
  | cons c rest =>
    rw [hl] at h
    cases h
    exact List.mem_cons_self

theorem length_le_intercalate (a : String) (as : List String) :
    as.length ≤ (", ".intercalate (a :: as)).toList.length := by
  induction as generalizing a with
  | nil => exact Nat.zero_le _
  | cons b as ih =>
    have hrest := ih b
    simp only [String.intercalate_cons_cons, String.toList_append, List.length_append,
      List.length_cons] at hrest ⊢
    have hcomma : ", ".toList.length = 2 := rfl
    omega

/-- The parameters of a definition are read back from their text. -/
theorem definedParams_before {a : String} {as names : List String} {fuel : Nat} {c : Cursor}
    (hn : ∀ b ∈ a :: as, Token.isName b = true) (hfuel : as.length < fuel)
    (hc : c.skipBlanks = before p ((", ".intercalate (a :: as)).toList ++ ')' :: s) k) :
    ∃ q, definedParams fuel names c = .ok (names ++ a :: as, before q s k) := by
  have ha : Token.isName a = true := hn a (by simp)
  induction as generalizing a names fuel c p with
  | nil =>
    obtain ⟨n, rfl⟩ := Nat.exists_eq_add_of_lt hfuel
    have hname := @name?_before_plain p (')' :: s) k a ha rfl
    have hblank : startsBlank (')' :: s) = false := rfl
    rw [String.intercalate_singleton] at hc
    refine ⟨')' :: (a.toList.reverse ++ p), ?_⟩
    simp [definedParams, hc, hname, skipBlanks_before hblank]
  | cons b as ih =>
    obtain ⟨n, rfl⟩ := Nat.exists_eq_add_of_lt hfuel
    have hb : Token.isName b = true := hn b (by simp)
    obtain ⟨t, ht⟩ := intercalate_head b as (')' :: s)
    obtain ⟨hstart, -, -⟩ := @starts_of_isName t b hb
    have htext : (", ".intercalate (a :: b :: as)).toList ++ ')' :: s =
        a.toList ++ ',' :: ' ' :: ((", ".intercalate (b :: as)).toList ++ ')' :: s) := by
      simp [String.intercalate_cons_cons]
    have hname := @name?_before_plain p (',' :: ' ' :: ((", ".intercalate (b :: as)).toList ++
      ')' :: s)) k a ha rfl
    have hskip : ∀ q, (before q (' ' :: ((", ".intercalate (b :: as)).toList ++ ')' :: s))
        k).skipBlanks = before (' ' :: q) ((", ".intercalate (b :: as)).toList ++ ')' :: s) k := by
      intro q
      rw [skipBlanks_before_blank (by decide), skipBlanks_before (ht ▸ hstart)]
    obtain ⟨q, hq⟩ := @ih _ b (names ++ [a]) (as.length + n + 1) _
      (fun d hd => hn d (List.mem_cons_of_mem a hd)) (by omega)
      (hskip (',' :: (a.toList.reverse ++ p))) hb
    have hcomma : ∀ u : List Char, startsBlank (',' :: u) = false := fun _ => rfl
    have hclose : ∀ q u, (before q (',' :: u) k).accept? ')' = none :=
      fun q u => accept?_before_ne (by simp)
    refine ⟨q, ?_⟩
    rw [htext] at hc
    have hlength : (b :: as).length + n + 1 = as.length + n + 1 + 1 := by simp; omega
    rw [hlength, definedParams]
    simp only [hc, hname, skipBlanks_before (hcomma _), hclose, accept?_before, hq]
    simp

theorem target_name (hn : Token.isName name = true) :
    (atStart (name.toList ++ [' ']) []).target = .ok (.assign name) := by
  obtain ⟨hstart, -, -⟩ := @starts_of_isName [' '] name hn
  have hname := @name?_before_plain [] [' '] 0 name hn rfl
  change (before [] (name.toList ++ [' ']) 0).target = _
  unfold Cursor.target
  simp only [skipBlanks_before hstart, hname]
  rfl

theorem target_definition (hn : ∀ a ∈ name :: params, Token.isName a = true) :
    (atStart (name.toList ++ '(' :: ((", ".intercalate params).toList ++ [')', ' '])) []).target =
      .ok (.define name params) := by
  have hname := @name?_before_plain [] ('(' :: ((", ".intercalate params).toList ++ [')', ' '])) 0
    name (hn name (by simp)) rfl
  have hopen : ∀ u : List Char, startsBlank ('(' :: u) = false := fun _ => rfl
  change (before [] (name.toList ++ '(' :: ((", ".intercalate params).toList ++ [')', ' ']))
    0).target = _
  unfold Cursor.target
  simp only [skipBlanks_before (starts_of_isName (hn name (by simp))).1, hname,
    skipBlanks_before (hopen _), peek_before, List.head?_cons, advance_before]
  cases params with
  | nil => rfl
  | cons a as =>
    have ha : Token.isName a = true := hn a (by simp)
    obtain ⟨t, ht⟩ := intercalate_head a as [')', ' ']
    have hstart : startsBlank ((", ".intercalate (a :: as)).toList ++ [')', ' ']) = false :=
      ht ▸ (starts_of_isName ha).1
    have hclose : ((", ".intercalate (a :: as)).toList ++ [')', ' ']).head? ≠ some ')' := by
      intro hh
      rw [ht] at hh
      exact absurd (head?_of_isName ha hh) (by decide)
    have hfuel : as.length < ((", ".intercalate (a :: as)).toList ++ [')', ' ']).length + 1 := by
      have hlength := length_le_intercalate a as
      rw [List.length_append]
      omega
    obtain ⟨q, hq⟩ := @definedParams_before _ [' '] 0 a as [] _
      (before ('(' :: (name.toList.reverse ++ [])) _ 0)
      (fun b hb => hn b (List.mem_cons_of_mem name hb)) hfuel (skipBlanks_before hstart)
    rw [skipBlanks_before hstart, accept?_before_ne hclose]
    simp only [rest_before, hq, ok_bind]
    rfl

theorem deletion_name (hn : Token.isName name = true) :
    (before p name.toList k).deletion = .ok (.delete name) := by
  obtain ⟨hstart, -, -⟩ := @starts_of_isName [] name hn
  have hname := @name?_before_plain p [] k name hn rfl
  rw [List.append_nil] at hstart hname
  unfold deletion
  split
  · next he =>
    have htilde : (name.toList ++ []).head? = some '~' := by simpa using congrArg List.head? he
    exact absurd (head?_of_isName hn htilde) (by decide)
  · simp only [skipBlanks_before hstart, hname]
    rfl

end Cursor

open Piece

theorem splitAssignment_eq_none {s : List Char} (h : '=' ∉ s) : splitAssignment s = none := by
  have hall : s.takeWhile (· != '=') = s := by
    rw [List.takeWhile_eq_self_iff]
    exact fun ch hc => bne_iff_ne.mpr (ne_of_mem_of_not_mem hc h)
  simp [splitAssignment, hall]

/-- The first `=` divides a text. -/
theorem splitAssignment_append {front back : List Char} (he : '=' ∉ front) (hc : '#' ∉ front) :
    splitAssignment (front ++ '=' :: back) = some (front, back) := by
  have hfront : (front ++ '=' :: back).takeWhile (· != '=') = front := by
    rw [List.takeWhile_append_of_pos]
    · simp
    · exact fun ch hch => bne_iff_ne.mpr (ne_of_mem_of_not_mem hch he)
  simp [splitAssignment, hfront, hc]

/-- What is assigned is read back from its text, whatever it is assigned to. -/
theorem Reading.statement_of_target {src name : String} {rest : List Char}
    {target : Statement.Target} {v : Value} (hn : Token.isName name = true)
    (hrest : ∀ ch ∈ rest, Token.isInk ch = true)
    (ht : (Cursor.atStart (name.toList ++ rest) []).target = .ok target) (hv : Readable v)
    (hf : ∀ w ∈ v.parts, w.Reparsable)
    (hsrc : src.toList = (name.toList ++ rest) ++ '=' :: ' ' :: spell (v.pieces .plain [])) :
    Reading.statement {} src = .ok ⟨.ofTarget v target, 0⟩ := by
  have hfront : ∀ ch ∈ name.toList ++ rest, Token.isInk ch = true :=
    List.forall_mem_append.mpr ⟨Token.isInk_styled .plain hn, hrest⟩
  have hink : ∀ ch ∈ spell (v.pieces .plain []), Token.isInk ch = true :=
    (hv.written .plain).isInk
  have hend : (Cursor.atStart src.toList []).skipBlanks.atEnd = false := by
    rw [hsrc, List.append_assoc]
    obtain ⟨hstart, hempty, -⟩ := Cursor.starts_of_isName hn
    change (Cursor.before [] _ 0).skipBlanks.atEnd = false
    rw [Cursor.skipBlanks_before hstart]
    exact hempty
  have htilde : '~' ∉ src.toList := by
    rw [hsrc, List.mem_append, List.mem_cons, List.mem_cons]
    rintro (hc | hc | hc | hc)
    · exact absurd (hfront _ hc) (by decide)
    · cases hc
    · cases hc
    · exact absurd (hink _ hc) (by decide)
  have hsplit : splitAssignment src.toList =
      some (name.toList ++ rest, ' ' :: spell (v.pieces .plain [])) := by
    rw [hsrc]
    exact splitAssignment_append (fun hc => absurd (hfront _ hc) (by decide))
      (fun hc => absurd (hfront _ hc) (by decide))
  obtain ⟨ss, q, hq, hph⟩ := hv.reads_last hf .plain (' ' :: '=' :: (name.toList ++ rest).reverse)
  have hread := hq.terms_blank Cursor.fill_before_blank
  exact statement_eq_ok_iff.mpr (.assignment hend (Cursor.accept?_atStart htilde) hsplit ht
    (Cursor.expr_eq_ok_iff.mpr ⟨ss, hread, hph⟩))

/-- A text that is read as an expression is a statement, unless it is divided or announces a
deletion. -/
theorem Reading.statement_of_expr {v : Value} (hv : Readable v) (hf : ∀ w ∈ v.parts, w.Reparsable) :
    Reading.statement {} (String.ofList (spell (v.pieces .plain []))) = .ok ⟨.expr v, 0⟩ := by
  have hink : ∀ ch ∈ (String.ofList (spell (v.pieces .plain []))).toList,
      Token.isInk ch = true := by
    rw [String.toList_ofList]
    exact (hv.written .plain).isInk
  obtain ⟨ss, q, hq, hph⟩ := hv.reads_last hf .plain []
  rw [← String.toList_ofList (l := spell (v.pieces .plain []))] at hq
  refine statement_eq_ok_iff.mpr (.expression hq.terms_atEnd ?_ ?_ ?_)
  · exact Cursor.accept?_atStart fun hc => absurd (hink _ hc) (by decide)
  · exact splitAssignment_eq_none fun hc => absurd (hink _ hc) (by decide)
  · exact parse_eq_ok_iff.mpr ⟨ss, _, hq, hph, rfl⟩

/-- A statement is read back from its text if its expression is. -/
theorem Statement.Readable.restated {s : Statement} (hs : s.Readable)
    (hf : ∀ v, s.value? = some v → ∀ w ∈ v.parts, w.Reparsable) :
    ∃ text, s.render = .ok text ∧ Reading.statement {} text = .ok ⟨s, 0⟩ := by
  have hrender : ∀ v, s.value? = some v →
      v.render .plain = .ok (String.ofList (spell (v.pieces .plain []))) :=
    fun v hv => (hs.value v hv).render .plain
  cases s with
  | expr v =>
    exact ⟨_, hrender v rfl, Reading.statement_of_expr (hs.value v rfl) (hf v rfl)⟩
  | assign name v =>
    refine ⟨name ++ " = " ++ String.ofList (spell (v.pieces .plain [])), ?_, ?_⟩
    · simp [render, hrender v rfl]
    · refine Reading.statement_of_target hs.named ?_ (Cursor.target_name hs.named) (hs.value v rfl)
        (hf v rfl) ?_
      · simp [Token.isInk]
      · simp
  | define name params v =>
    refine ⟨name ++ "(" ++ ", ".intercalate params ++ ") = " ++
      String.ofList (spell (v.pieces .plain [])), ?_, ?_⟩
    · simp [render, hrender v rfl]
    · refine Reading.statement_of_target (hs.named name (by simp)) ?_
        (Cursor.target_definition hs.named) (hs.value v rfl) (hf v rfl) ?_
      · have hparams := Token.isInk_params fun a ha => hs.named a (List.mem_cons_of_mem name ha)
        exact List.forall_mem_cons.mpr
          ⟨by decide, List.forall_mem_append.mpr ⟨hparams, by simp [Token.isInk]⟩⟩
      · simp
  | delete name =>
    refine ⟨"~" ++ name, rfl, Reading.statement_eq_ok_iff.mpr ?_⟩
    refine .deletion (c := .before ['~'] name.toList 0) ?_ (Cursor.deletion_name hs.named)
    rw [String.toList_append]
    exact (congrArg (Cursor.accept? '~') (Cursor.skipBlanks_before rfl)).trans Cursor.accept?_before
  | clear => exact ⟨"~~~", rfl, by cbv⟩

/-- The text of a statement that was read is read back as the same statement, if the expression in
it has no real and no subscript of a factorial. -/
theorem Reading.restatement {src : String} {s : Statement} {n : Nat}
    (h : Reading.statement {} src = .ok ⟨s, n⟩)
    (hs : ∀ v, s.value? = some v → (∀ x, .real x ∉ v.parts) ∧
      ∀ base index, .subscript (.unary .fact base) index ∉ v.parts) :
    ∃ text, s.render = .ok text ∧ Reading.statement {} text = .ok ⟨s, 0⟩ := by
  refine Statement.Readable.restated ((statement_eq_ok_iff.mp h).readable rfl) ?_
  intro v hv w hw
  obtain ⟨hreal, hsub⟩ := hs v hv
  exact ⟨fun x he => hreal x (he ▸ hw), fun b i he => hsub b i (he ▸ hw)⟩

theorem Reading.restatement_of_product :
    Reading.statement {} "v *= x + y" = .ok ⟨.assign "v"
      (.binary .mul (.var "v") (.binary .add (.var "x") (.var "y"))), 0⟩ ∧
    ∃ text, (Statement.assign "v"
        (.binary .mul (.var "v") (.binary .add (.var "x") (.var "y")))).render = .ok text ∧
      Reading.statement {} text = .ok ⟨.assign "v"
        (.binary .mul (.var "v") (.binary .add (.var "x") (.var "y"))), 0⟩ := by
  have hstatement : Reading.statement {} "v *= x + y" = .ok ⟨.assign "v"
      (.binary .mul (.var "v") (.binary .add (.var "x") (.var "y"))), 0⟩ := by
    have hsplit : splitAssignment "v *= x + y".toList =
      some ("v *".toList, " x + y".toList) := by cbv
    unfold Reading.statement
    rw [hsplit]
    cbv
  refine ⟨hstatement, Reading.restatement hstatement ?_⟩
  rintro v ⟨⟩
  simp [Value.parts, Value.real, Value.subscript]

end Reckon
