import Reckon.Proofs.Rules

namespace Reckon

/-- A letter or underscore, then letters, underscores and digits. -/
def Token.isName (s : String) : Bool :=
  match s.toList with
  | [] => false
  | ch :: rest => startsName ch && rest.all continuesName

/-- Trees that text is read as: integers have no sign, products with -1 stand for minus signs, and
whatever is called or subscripted is no plain number. -/
inductive Readable : Value → Prop
  | int {n : Int64} : 0 ≤ n → Readable (.number (.int n))
  | real (x : Float) : Readable (.number (.real x))
  | minus {v} : Readable v → Readable (.binary .mul (.int (-1)) v)
  | binary {op l r} : op.isInfix = true → Readable l → Readable r → Readable (.binary op l r)
  | factorial {v} : Readable v → Readable (.unary .fact v)
  | call {f args} : Readable f → Cursor.takesPostfix f = true → (∀ v ∈ args, Readable v) →
      Readable (.call f args false)
  | subscript {base index} : Readable base → Cursor.takesPostfix base = true → Readable index →
      Readable (.subscript base index)
  | var {name} : Token.isName name = true → Readable (.var name)
  | vector {elems} : 2 ≤ elems.length → (∀ v ∈ elems, Readable v) → Readable (.vector elems)
  | func {params body} : (∀ p ∈ params, Token.isName p = true) → Readable body →
      Readable (.func params body)

namespace Token

theorem glyphs_isName : ∀ p ∈ glyphs, isName p.2 = true := by decide +kernel

theorem isName_of_name? {s : List Char} {name : String} {n : Nat}
    (h : name? s = some (name, n)) : isName name = true := by
  cases s with
  | nil => cases h
  | cons ch rest =>
    simp only [name?] at h
    split at h
    · next word hg =>
      cases h
      obtain ⟨⟨g, w⟩, hf, rfl⟩ := Option.map_eq_some_iff.mp hg
      exact glyphs_isName _ (List.mem_of_find?_eq_some hf)
    · split at h
      · next hs =>
        cases h
        simp [isName, hs]
      · cases h

theorem nonneg_of_integer? {s : List Char} {i : Int64} {n : Nat} (h : integer? s = some (i, n)) :
    0 ≤ i := by
  unfold integer? at h
  dsimp only at h
  split at h
  · cases h
  · next hb =>
    cases h
    have hlt : Decimal.value (s.takeWhile Char.isDigit) < 2 ^ 63 := by
      simpa [wordBound] using fun hn => hb (Or.inr hn)
    rw [Int64.le_iff_toInt_le, Int64.toInt_ofNat_of_lt hlt]
    exact Int.natCast_nonneg _

end Token

namespace Cursor

theorem name?_isName {c d : Cursor} {name : String} (h : c.name? = some (name, d)) :
    Token.isName name = true := by
  obtain ⟨⟨word, n⟩, hn, he⟩ := Option.map_eq_some_iff.mp h
  cases he
  exact Token.isName_of_name? hn

theorem number_readable {c d : Cursor} {x : Number} (h : c.number = .ok (x, d)) :
    Readable (.number x) := by
  unfold number at h
  split at h
  · next hn =>
    cases h
    unfold Token.number? at hn
    split at hn
    · next hi _ =>
      split at hn <;> cases hn
      · exact .real _
      · exact .int (Token.nonneg_of_integer? hi)
    · cases hn
      exact .real _
    · next hi _ =>
      cases hn
      exact .int (Token.nonneg_of_integer? hi)
    · cases hn
  · cases h

theorem params_isName {fuel : Nat} {names ns : List String} {c d : Cursor}
    (h : params fuel names c = .ok (ns, d)) (hnames : ∀ p ∈ names, Token.isName p = true) :
    ∀ p ∈ ns, Token.isName p = true := by
  induction fuel generalizing names c with
  | zero => cases h
  | succ fuel ih =>
    unfold params at h
    split at h
    · cases h
    · next name e he =>
      have hall : ∀ p ∈ names ++ [name], Token.isName p = true := by
        intro p hp
        rcases List.mem_append.mp hp with hp | hp
        · exact hnames p hp
        · rw [List.mem_singleton.mp hp]
          exact name?_isName he
      dsimp only at h
      split at h
      · cases h
      · split at h
        · cases h
          exact hall
        · split at h
          · cases h
          · split at h
            · cases h
            · exact ih h hall

theorem closureParams_isName {fuel : Nat} {ns : List String} {c d : Cursor}
    (h : closureParams fuel c = .ok (ns, d)) : ∀ p ∈ ns, Token.isName p = true := by
  unfold closureParams at h
  dsimp only at h
  split at h
  · cases h
  · split at h
    · cases h
      simp
    · exact params_isName h (by simp)

/-- What holds of the numbers and names that are read, and is kept by all that trees are made with
in text without special syntax. -/
structure KeptByReading (P : Value → Prop) : Prop extends Grammar.Kept P where
  number : ∀ c d x, Cursor.number c = .ok (x, d) → P (.number x)
  var : ∀ name, Token.isName name = true → P (.var name)
  factorial : ∀ v, P v → P (.unary .fact v)
  call : ∀ f args, P f → takesPostfix f = true → (∀ v ∈ args, P v) → P (.call f args false)
  subscript : ∀ base index, P base → takesPostfix base = true → P index →
    P (.subscript base index)
  vector : ∀ elems, 2 ≤ elems.length → (∀ v ∈ elems, P v) → P (.vector elems)
  func : ∀ params body, (∀ p ∈ params, Token.isName p = true) → P body → P (.func params body)

theorem keptByReading_readable : KeptByReading Readable where
  minus _ := .minus
  binary _ _ _ := .binary
  number _ _ _ := number_readable
  var _ := .var
  factorial _ := .factorial
  call _ _ := .call
  subscript _ _ := .subscript
  vector _ := .vector
  func _ _ := .func

/-- What a part is told to go on from has the property, and is no plain number. -/
def Part.BaseHas (P : Value → Prop) : Part → Prop
  | .postfixes v => P v ∧ takesPostfix v = true
  | _ => True

def Found.All (P : Value → Prop) : Found → Prop
  | .symbols ss => ∀ x, .operand x ∈ ss → P x
  | .value v => P v
  | .values vs => ∀ v ∈ vs, P v

section

variable {P : Value → Prop} (hP : KeptByReading P)
include hP

theorem KeptByReading.factorials {v : Value} (h : P v) (c : Cursor) : P (factorials v c).1 := by
  change P (c.skipBangs.1.repeat (Value.unary .fact) v)
  induction c.skipBangs.1 with
  | zero => exact h
  | succ n ih => exact hP.factorial _ ih

open Grammar in
theorem KeptByReading.phrase {ss : List Symbol} {v : Value} (h : SumPhrase ss v)
    (hs : (Found.symbols ss).All P) : P v :=
  h.holds hP.toKept hs

/-- What reading keeps holds of all that is read without special syntax. -/
theorem Reads.holds {r : Reading} (hr : r.specials = []) {p : Part} {c d : Cursor} {found : Found}
    (h : Reads r p c found d) : p.BaseHas P → found.All P := by
  induction h with
  | sign _ _ ih =>
    intro _ x hx
    exact ih trivial x (by simpa [Grammar.minus] using hx)
  | last _ _ _ _ ih =>
    intro _ x hx
    cases List.mem_singleton.mp hx
    exact ih trivial
  | more op _ _ _ _ _ ih ih' =>
    intro _ x hx
    rcases List.mem_cons.mp hx with he | hx
    · cases he
      exact ih trivial
    · exact ih' trivial x (by simpa using hx)
  | closed _ _ _ ih => exact fun _ => ih trivial
  | plain _ _ _ _ ih => exact fun _ => hP.factorials (ih trivial) _
  | followed _ _ _ ht _ ih ih' => exact fun _ => hP.factorials (ih' ⟨ih trivial, ht⟩) _
  | number _ _ hn => exact fun _ => hP.number _ _ _ hn
  | bracketed _ _ ih => exact fun _ => ih trivial
  | vector _ _ hl ih => exact fun _ => hP.vector _ hl (ih trivial)
  | special _ _ _ _ hs => simp [Reading.special?, hr] at hs
  | name _ _ _ _ _ hn => exact fun _ => hP.var _ (name?_isName hn)
  | group _ hv _ ih => exact fun _ => hP.phrase hv (ih trivial)
  | empty => exact fun _ v hv => nomatch hv
  | final _ hv _ ih =>
    intro _ w hw
    cases List.mem_singleton.mp hw
    exact hP.phrase hv (ih trivial)
  | next _ hv _ _ ih ih' =>
    intro _ w hw
    rcases List.mem_cons.mp hw with rfl | hw
    · exact hP.phrase hv (ih trivial)
    · exact ih' trivial w hw
  | closure hn _ hv ih =>
    intro _
    exact hP.func _ _ (closureParams_isName (hn _ (Nat.lt_succ_self _))) (hP.phrase hv (ih trivial))
  | call _ _ _ ih ih' => exact fun hf => ih' ⟨hP.call _ _ hf.1 hf.2 (ih trivial), rfl⟩
  | subscript _ _ _ ih ih' => exact fun hf => ih' ⟨hP.subscript _ _ hf.1 hf.2 (ih trivial), rfl⟩
  | done => exact fun hf => hf.1

end

open Grammar in
theorem readable_of_phrase {ss : List Symbol} {v : Value} (h : SumPhrase ss v)
    (hs : (Found.symbols ss).All Readable) : Readable v :=
  keptByReading_readable.phrase h hs

theorem Reads.readable {r : Reading} (hr : r.specials = []) {p : Part} {c d : Cursor}
    {found : Found} (h : Reads r p c found d) : p.BaseHas Readable → found.All Readable :=
  h.holds keptByReading_readable hr

end Cursor

/-- What reading keeps holds of the tree of a text without special syntax. -/
theorem Reading.parse_holds {P : Value → Prop} (hP : Cursor.KeptByReading P) {r : Reading}
    (hr : r.specials = []) {src : String} {v : Value} {n : Nat} (h : r.parse src = .ok ⟨v, n⟩) :
    P v := by
  obtain ⟨ss, d, hs, hv, -⟩ := Reading.parse_eq_ok_iff.mp h
  exact hP.phrase hv (hs.holds hP hr trivial)

/-- Text without special syntax is read as a tree of the known form. -/
theorem Reading.parse_readable {r : Reading} (hr : r.specials = []) {src : String} {v : Value}
    {n : Nat} (h : r.parse src = .ok ⟨v, n⟩) : Readable v :=
  Reading.parse_holds Cursor.keptByReading_readable hr h

end Reckon
