import Reckon.Proofs.Restored

namespace Reckon

/-- Numbers and vectors of these, at any depth. -/
inductive Numeric : Value → Prop
  | number (x : Number) : Numeric (.number x)
  | vector {elems} : (∀ v ∈ elems, Numeric v) → Numeric (.vector elems)

namespace Value

/-- What an operation on values gives, if it gives something, is numeric. -/
def GivesNumeric (x : ValueAnswer) : Prop := ∀ v, x = .ok (.ok v) → Numeric v

/-- The same for each of several operations. -/
def EachGivesNumeric (xs : Except Fault (List (Except Cause Value))) : Prop :=
  ∀ zs, xs = .ok zs → ∀ z ∈ zs, ∀ v, z = .ok v → Numeric v

theorem EachGivesNumeric.cons {x : ValueAnswer} {xs : Except Fault (List (Except Cause Value))}
    (hx : GivesNumeric x) (hxs : EachGivesNumeric xs) :
    EachGivesNumeric (do
      let z ← x
      let zs ← xs
      return z :: zs) := by
  intro zs hzs
  obtain ⟨z, hz, hzs⟩ := bind_eq_ok_iff.mp hzs
  obtain ⟨zs', hzs', hzs⟩ := bind_eq_ok_iff.mp hzs
  cases hzs
  exact List.forall_mem_cons.mpr ⟨fun v hv => hx v (hv ▸ hz), hxs zs' hzs'⟩

theorem EachGivesNumeric.ofElements {xs : Except Fault (List (Except Cause Value))}
    (h : EachGivesNumeric xs) : GivesNumeric (do return ofElements (← xs)) := by
  intro v hv
  obtain ⟨zs, hzs, hv⟩ := bind_eq_ok_iff.mp hv
  have hv : (zs.mapM id).map Value.vector = .ok v := Except.ok.inj hv
  cases hvs : zs.mapM id with
  | error c =>
    rw [hvs] at hv
    cases hv
  | ok vs =>
    rw [hvs] at hv
    cases hv
    exact .vector (forall_of_mapM hvs (h zs hzs))

theorem scalarOp_givesNumeric (p : Precision) (op : Op) (a b : Value) :
    GivesNumeric (scalarOp p op a b) := by
  intro v hv
  unfold scalarOp at hv
  split at hv
  · obtain ⟨z, -, hz⟩ := bind_eq_ok_iff.mp hv
    cases z with
    | error c => cases hz
    | ok z =>
      cases hz
      exact .number z
  · cases hv
  · cases hv

theorem broadcast_givesNumeric (p : Precision) (op : Op) (a b : Value) :
    GivesNumeric (broadcast p op a b) := by
  refine (broadcast.mutual_induct op (fun b => GivesNumeric (broadcast p op a b))
    (fun bs => EachGivesNumeric (broadcastAll p op a bs)) ?_ ?_ ?_ ?_ ?_).1 b
  · intro bs hm v hv
    simp [broadcast, hm] at hv
  · intro bs hm ih
    simp only [broadcast, hm, ↓reduceIte]
    exact ih.ofElements
  · intro b hb
    rw [broadcast]
    · exact scalarOp_givesNumeric p op a b
    · exact hb
  · intro zs hzs
    cases hzs
    simp
  · intro b bs ihb ihbs
    exact EachGivesNumeric.cons ihb ihbs

/-- Whatever the operands are, an operation that succeeds gives numbers or vectors of them. -/
theorem arith_givesNumeric (p : Precision) (op : Op) (a b : Value) :
    GivesNumeric (a.arith p op b) := by
  refine (arith.mutual_induct op (fun a b => GivesNumeric (a.arith p op b))
    (fun as b => EachGivesNumeric (arithAll p op as b))
    (fun as bs => EachGivesNumeric (arithZip p op as bs)) ?_ ?_ ?_ ?_ ?_ ?_ ?_ ?_ ?_).1 a b
  · intro as b hm v hv
    simp [arith, hm] at hv
  · intro as hm bs hl ih
    simp only [arith, hm, hl, ↓reduceIte]
    exact ih.ofElements
  · intro as hm bs hl v hv
    simp [arith, hm, hl] at hv
  · intro as hm b hb ih
    rw [arith, if_neg hm]
    · exact ih.ofElements
    · exact hb
  · intro a b ha
    rw [arith]
    · exact broadcast_givesNumeric p op a b
    · exact ha
  · intro b zs hzs
    cases hzs
    simp
  · intro a as b iha ihas
    exact EachGivesNumeric.cons iha ihas
  · intro a as b bs iha ihas
    exact EachGivesNumeric.cons iha ihas
  · intro as bs hne zs hzs
    rw [arithZip] at hzs
    · cases hzs
      simp
    · exact hne

theorem unaryOp_givesNumeric (op : Op) (a : Value) : GivesNumeric (a.unaryOp op) := by
  intro v hv
  unfold unaryOp at hv
  split at hv
  · cases hv
  · split at hv
    · split at hv
      · cases hv
      · split at hv <;> cases hv
        exact .number _
    · cases hv

end Value

theorem Recur.numeric_of_ofAnswer {x : ValueAnswer} (hx : Value.GivesNumeric x) {v : Value}
    (h : Recur.ofAnswer x = .ok v) : Numeric v := by
  unfold Recur.ofAnswer at h
  split at h
  · cases h
    exact hx v rfl
  · cases h
  · cases h

/-- What two evaluations may differ in. -/
structure Leeway where
  /-- The stops of the first evaluation after which nothing is said of the second. -/
  left : Stop → Prop := fun _ => False
  /-- The stops of the second evaluation with which nothing is said of the first. -/
  right : Stop → Prop := fun _ => False
  /-- The stops that count as the same. -/
  alike : Stop → Stop → Prop := Eq
  refl : ∀ s, alike s s := by exact fun _ => rfl

namespace Leeway

/-- No leeway at all. -/
def exact : Leeway := {}

/-- Two computations come to the same, with values in the relation `R`. -/
inductive Pairs (l : Leeway) {α β : Type} (R : α → β → Prop) :
    Except Stop α → Except Stop β → Prop
  | value {a b} : R a b → Pairs l R (.ok a) (.ok b)
  | stops {s t} : l.alike s t → Pairs l R (.error s) (.error t)
  | left {s y} : l.left s → Pairs l R (.error s) y
  | right {x t} : l.right t → Pairs l R x (.error t)

/-- Equal values that satisfy `Q`. -/
def Both {α : Type} (Q : α → Prop) (a b : α) : Prop := a = b ∧ Q a

namespace Pairs

variable {l : Leeway} {α β γ δ : Type} {R : α → β → Prop} {R' : γ → δ → Prop}
  {x : Except Stop α} {y : Except Stop β}

theorem bind {f : α → Except Stop γ} {g : β → Except Stop δ} (h : l.Pairs R x y)
    (hfg : ∀ a b, R a b → l.Pairs R' (f a) (g b)) : l.Pairs R' (x >>= f) (y >>= g) := by
  cases h with
  | value hab => exact hfg _ _ hab
  | stops hst => exact .stops hst
  | left hs => exact .left hs
  | right ht => exact .right ht

/-- After equal values the computations may go on alike. -/
theorem bindBoth {Q : α → Prop} {x y : Except Stop α} {f : α → Except Stop γ}
    {g : α → Except Stop δ} (h : l.Pairs (Both Q) x y)
    (hfg : ∀ a, Q a → l.Pairs R' (f a) (g a)) : l.Pairs R' (x >>= f) (y >>= g) := by
  refine h.bind ?_
  rintro a b ⟨rfl, ha⟩
  exact hfg a ha

theorem mono {R'' : α → β → Prop} (h : l.Pairs R x y) (hr : ∀ a b, R a b → R'' a b) :
    l.Pairs R'' x y := by
  cases h with
  | value hab => exact .value (hr _ _ hab)
  | stops hst => exact .stops hst
  | left hs => exact .left hs
  | right ht => exact .right ht

theorem monoBoth {Q Q' : α → Prop} {x y : Except Stop α} (h : l.Pairs (Both Q) x y)
    (hq : ∀ a, Q a → Q' a) : l.Pairs (Both Q') x y :=
  h.mono fun a _ hab => ⟨hab.1, hq a hab.2⟩

/-- What the first computation alone is known to give. -/
theorem also {P Q : α → Prop} {x y : Except Stop α} (h : l.Pairs (Both Q) x y)
    (hx : ∀ a, x = .ok a → P a) : l.Pairs (Both fun a => Q a ∧ P a) x y := by
  cases h with
  | value hab => exact .value ⟨hab.1, hab.2, hx _ rfl⟩
  | stops hst => exact .stops hst
  | left hs => exact .left hs
  | right ht => exact .right ht

theorem ok {Q : α → Prop} {a : α} (h : Q a) : l.Pairs (Both Q) (.ok a) (.ok a) := .value ⟨rfl, h⟩

theorem stop (s : Stop) : l.Pairs R (.error s) (.error s) := .stops (l.refl s)

theorem refuse (c : Cause) : l.Pairs R (Recur.refuse c) (Recur.refuse c) := .stop _

/-- One computation, beside itself. -/
theorem same {R : α → α → Prop} {x : Except Stop α} (h : ∀ a, x = .ok a → R a a) :
    l.Pairs R x x := by
  cases x with
  | ok a => exact .value (h a rfl)
  | error s => exact .stop s

/-- What holds without leeway holds with any. -/
theorem ofExact (h : exact.Pairs R x y) : l.Pairs R x y := by
  cases h with
  | value hab => exact .value hab
  | stops hst =>
    cases hst
    exact .stop _
  | left hs => cases hs
  | right ht => cases ht

/-- Without leeway but for stops of the first computation, the second gives the same unless the
first comes to such a stop. -/
theorem eq_of_not_left {escape : Stop → Prop} {Q : α → Prop} {x y : Except Stop α}
    (h : Pairs { left := escape } (Both Q) x y) (hx : ∀ s, x = .error s → ¬ escape s) : x = y := by
  cases h with
  | value hab => rw [hab.1]
  | stops hst => rw [show _ = _ from hst]
  | left hs => exact absurd hs (hx _ rfl)
  | right ht => cases ht

theorem eq {Q : α → Prop} {x y : Except Stop α} (h : exact.Pairs (Both Q) x y) : x = y :=
  eq_of_not_left h fun _ _ => id

theorem mapM {Q : γ → Prop} {f : α → Except Stop γ} {g : β → Except Stop γ} {as : List α}
    {bs : List β} (has : List.Forall₂ R as bs)
    (hfg : ∀ a b, R a b → l.Pairs (Both Q) (f a) (g b)) :
    l.Pairs (Both fun cs => ∀ c ∈ cs, Q c) (as.mapM f) (bs.mapM g) := by
  induction has with
  | nil => exact .ok (by simp)
  | cons hab _ ih =>
    simp only [List.mapM_cons]
    refine (hfg _ _ hab).bindBoth fun c hc => ?_
    refine ih.bindBoth fun cs hcs => ?_
    exact .ok (List.forall_mem_cons.mpr ⟨hc, hcs⟩)

end Pairs

end Leeway

def Value.isReference : Value → Bool
  | .var _ => true
  | _ => false

/-- What both evaluations may come to once no reference is left. -/
def Settled (Q : Value → Prop) (v : Value) : Prop := Q v ∧ v.isReference = false

/-- What two evaluations may be told to evaluate side by side, `V`, and what both may come to, `Q`:
enough for what builtins hand back to be evaluated. -/
structure Matching (V : Value → Value → Prop) (Q : Value → Prop) : Prop where
  numeric : ∀ {v}, Numeric v → Q v
  vector : ∀ {elems}, (∀ v ∈ elems, Settled Q v) → Q (.vector elems)
  elem : ∀ {elems v}, Q (.vector elems) → v ∈ elems → Q v
  again : ∀ {v}, Q v → V v v
  missing : ∀ {v w}, V v w → (v = .missing ↔ w = .missing)
  absent : V .missing .missing
  binary : ∀ {op l l' r r'}, V l l' → V r r' → V (.binary op l r) (.binary op l' r')
  elements : ∀ {vs ws}, List.Forall₂ V vs ws → V (.vector vs) (.vector ws)
  call : ∀ {f x}, Q f → Q x → V (.call f [x] false) (.call f [x] false)

/-- Two evaluators, each in a context of its own, come to the same. -/
structure Abreast (l : Leeway) (V : Value → Value → Prop) (Q : Value → Prop) (ev ev' : Recur)
    (c d : Context) : Prop where
  precision : c.precision = d.precision
  evaluate : ∀ {v w}, V v w → l.Pairs (Leeway.Both Q) (ev .evaluate c v) (ev' .evaluate d w)
  settle : ∀ {v}, Q v → l.Pairs (Leeway.Both (Settled Q)) (ev .settle c v) (ev' .settle d v)

theorem Builtin.dotFrom_congr {c d : Context} (h : c.precision = d.precision) (sum : Value)
    (as bs : List Value) : dotFrom c sum as bs = dotFrom d sum as bs := by
  induction as generalizing sum bs with
  | nil => rfl
  | cons a as ih =>
    cases bs with
    | nil => rfl
    | cons b bs =>
      simp only [dotFrom, Recur.arith, h]
      congr 1
      funext p
      congr 1
      funext sum'
      exact ih sum' bs

theorem Builtin.dotFrom_numeric {c : Context} {sum v : Value} {as bs : List Value}
    (hsum : Numeric sum) (h : dotFrom c sum as bs = .ok v) : Numeric v := by
  induction as generalizing sum bs with
  | nil =>
    cases h
    exact hsum
  | cons a as ih =>
    cases bs with
    | nil =>
      cases h
      exact hsum
    | cons b bs =>
      obtain ⟨p, -, h⟩ := bind_eq_ok_iff.mp h
      obtain ⟨sum', hs, h⟩ := bind_eq_ok_iff.mp h
      exact ih (Recur.numeric_of_ofAnswer (Value.arith_givesNumeric _ _ _ _) hs) h

theorem Builtin.elemOf_eq_ok {v i r : Value} (h : elemOf v i = .ok r) :
    ∃ elems n, v = .vector elems ∧ i = .int n ∧ 0 ≤ n ∧ elems[n.toInt.toNat]? = some r := by
  unfold elemOf at h
  split at h
  · next elems n =>
    split at h
    · cases h
    · next hneg =>
      split at h
      · next hget =>
        cases h
        exact ⟨elems, n, rfl, rfl, Int64.not_lt.mp hneg, hget⟩
      · cases h
  · cases h
  · cases h

namespace Abreast

open Leeway

variable {l : Leeway} {V : Value → Value → Prop} {Q : Value → Prop} {ev ev' : Recur}
  {c d : Context} (h : Abreast l V Q ev ev' c d)
include h

theorem coerce {v w : Value} (hv : V v w) :
    l.Pairs (Both (Settled Q)) (ev.coerce c v) (ev'.coerce d w) :=
  (h.evaluate hv).bindBoth fun _ ha => h.settle ha

section

variable {args args' : List Value} (hargs : List.Forall₂ V args args')
include hargs

theorem coerceArgs (name : String) (n : Nat) :
    l.Pairs (Both fun vs => ∀ v ∈ vs, Q v) (Builtin.coerceArgs ev c name args n)
      (Builtin.coerceArgs ev' d name args' n) := by
  unfold Builtin.coerceArgs Builtin.arity
  rw [← hargs.length_eq]
  split
  · exact .mapM hargs fun v w hv => (h.coerce hv).monoBoth fun _ ha => ha.1
  · exact .refuse _

theorem realArgs (name : String) (n : Nat) :
    l.Pairs (Both fun _ => True) (Builtin.realArgs ev c name args n)
      (Builtin.realArgs ev' d name args' n) :=
  (h.coerceArgs hargs name n).bindBoth fun _ _ => .same fun _ _ => ⟨rfl, trivial⟩

end

variable (m : Matching V Q)
include m

theorem arith (op : Op) (a b : Value) :
    l.Pairs (Both Q) (Recur.arith c op a b) (Recur.arith d op a b) := by
  unfold Recur.arith
  rw [h.precision]
  refine .same fun v hv => ⟨rfl, m.numeric ?_⟩
  exact Recur.numeric_of_ofAnswer (Value.arith_givesNumeric _ _ _ _) hv

theorem multiply (x : Value) {arg arg' : Value} (harg : V arg arg') :
    l.Pairs (Both Q) (ev.multiply c x arg) (ev'.multiply d x arg') :=
  (h.coerce harg).bindBoth fun y _ => h.arith m .mul x y

omit m in
theorem dotOf (as bs : List Value) :
    l.Pairs (Both Numeric) (Builtin.dotOf c as bs) (Builtin.dotOf d as bs) := by
  unfold Builtin.dotOf
  split
  · rw [Builtin.dotFrom_congr h.precision]
    exact .same fun v hv => ⟨rfl, Builtin.dotFrom_numeric (.number _) hv⟩
  · exact .refuse _

theorem magOf (v : List Value) :
    l.Pairs (Both Q) (Builtin.magOf ev c v) (Builtin.magOf ev' d v) := by
  refine (h.dotOf v v).bindBoth fun s hs => h.evaluate ?_
  exact m.binary (m.again (m.numeric hs)) (m.again (m.numeric (.number _)))

omit h in
theorem crossOf {as bs : List Value} (has : ∀ v ∈ as, Q v) (hbs : ∀ v ∈ bs, Q v) :
    l.Pairs V (Builtin.crossOf as bs) (Builtin.crossOf as bs) := by
  refine .same fun r hr => ?_
  unfold Builtin.crossOf at hr
  split at hr
  · next a0 a1 a2 b0 b1 b2 =>
    have hall : ∀ v ∈ [a0, a1, a2, b0, b1, b2], V v v := by
      intro v hv
      rcases List.mem_append.mp (show v ∈ [a0, a1, a2] ++ [b0, b1, b2] from hv) with hv | hv
      · exact m.again (has v hv)
      · exact m.again (hbs v hv)
    have hterm : ∀ p ∈ [a0, a1, a2, b0, b1, b2], ∀ q ∈ [a0, a1, a2, b0, b1, b2],
        ∀ r ∈ [a0, a1, a2, b0, b1, b2], ∀ s ∈ [a0, a1, a2, b0, b1, b2],
        V (.binary .sub (.binary .mul p q) (.binary .mul r s))
          (.binary .sub (.binary .mul p q) (.binary .mul r s)) := by
      intro p hp q hq r hr s hs
      exact m.binary (m.binary (hall p hp) (hall q hq)) (m.binary (hall r hr) (hall s hs))
    cases hr
    refine m.elements (.cons ?_ (.cons ?_ (.cons ?_ .nil)))
    all_goals exact hterm _ (by simp) _ (by simp) _ (by simp) _ (by simp)
  · cases hr

/-- The calls of a function that both sides share with the elements of a vector. -/
theorem mapCalls {g v v' : Value} (hg : Q g) (hv : V v v') :
    l.Pairs V
      (ev.coerce c v >>= fun w => match w with
        | .vector elems => .ok (.vector (elems.map fun x => .call g [x] false))
        | w => Recur.refuse (.mapOfOther w.kind))
      (ev'.coerce d v' >>= fun w => match w with
        | .vector elems => .ok (.vector (elems.map fun x => .call g [x] false))
        | w => Recur.refuse (.mapOfOther w.kind)) := by
  refine (h.coerce hv).bindBoth fun w hw => ?_
  cases w with
  | vector elems =>
    refine .value (m.elements ?_)
    rw [List.forall₂_map_left_iff, List.forall₂_map_right_iff, List.forall₂_same]
    exact fun x hx => m.call hg (m.elem hw.1 hx)
  | _ => exact .refuse _

theorem mapOf {f f' v v' : Value} (hf : V f f') (hv : V v v') :
    l.Pairs V (Builtin.mapOf ev c f v) (Builtin.mapOf ev' d f' v') := by
  refine (h.evaluate hf).bindBoth fun g hg => ?_
  have hcalls := h.mapCalls m hg hv
  cases g with
  | var | func | builtin => exact hcalls
  | _ => exact .refuse _

section

variable {args args' : List Value} (hargs : List.Forall₂ V args args')
include hargs

theorem vectorArgs (name : String) (n : Nat) :
    l.Pairs (Both fun ess => ∀ es ∈ ess, ∀ v ∈ es, Q v) (Builtin.vectorArgs ev c name args n)
      (Builtin.vectorArgs ev' d name args' n) := by
  refine (h.coerceArgs hargs name n).bindBoth fun vs hvs => .same fun ess hess => ⟨rfl, ?_⟩
  refine forall_of_mapM hess fun v hv es hes => ?_
  have hq := hvs v hv
  cases v with
  | vector elems =>
    cases hes
    exact fun w hw => m.elem hq hw
  | _ => cases hes

theorem real1 (name : String) (f : Float → Float) :
    l.Pairs V (Builtin.real1 ev c name args f) (Builtin.real1 ev' d name args' f) := by
  refine (h.realArgs hargs name 1).bindBoth fun xs _ => ?_
  split
  · exact .value (m.again (m.numeric (.number _)))
  · exact .refuse _

theorem real2 (name : String) (f : Float → Float → Float) :
    l.Pairs V (Builtin.real2 ev c name args f) (Builtin.real2 ev' d name args' f) := by
  refine (h.realArgs hargs name 2).bindBoth fun xs _ => ?_
  split
  · exact .value (m.again (m.numeric (.number _)))
  · exact .refuse _

theorem monadic (name : String) (f : Nat → Binary → Except Stop (Option Binary)) :
    l.Pairs V (Builtin.monadic ev c name args f) (Builtin.monadic ev' d name args' f) := by
  refine (h.realArgs hargs name 1).bindBoth fun xs _ => ?_
  split
  · dsimp only
    rw [h.precision]
    split
    · exact .refuse _
    · refine Pairs.bindBoth (Q := fun _ => True) (.same fun _ _ => ⟨rfl, trivial⟩) fun r _ => ?_
      cases r with
      | some r => exact .value (m.again (m.numeric (.number _)))
      | none => exact .refuse _
  · exact .refuse _

/-- What a builtin gives is evaluated side by side. -/
theorem run (b : Builtin) (synthesized : Bool) :
    l.Pairs V (b.run Host.none ev c args synthesized)
      (b.run Host.none ev' d args' synthesized) := by
  have hconst : ∀ f : Nat → Binary, l.Pairs V (Builtin.niladic c f) (Builtin.niladic d f) := by
    intro f
    unfold Builtin.niladic
    rw [h.precision]
    exact .value (m.again (m.numeric (.number _)))
  have hhead : ∀ {as bs : List Value}, List.Forall₂ V as bs →
      V (as.headD .missing) (bs.headD .missing) := by
    intro as bs hab
    cases hab with
    | nil => exact m.absent
    | cons hv _ => exact hv
  have hfirst : ∀ {vs : List (List Value)}, (∀ es ∈ vs, ∀ v ∈ es, Q v) →
      ∀ v ∈ vs.headD [], Q v := by
    intro vs hvs
    cases vs with
    | nil => simp
    | cons es vs => exact hvs es (by simp)
  have hsecond : ∀ {vs : List (List Value)}, (∀ es ∈ vs, ∀ v ∈ es, Q v) →
      ∀ v ∈ vs.tail.headD [], Q v :=
    fun hvs => hfirst fun es hes => hvs es (List.mem_of_mem_tail hes)
  have hgiven : ∀ {x y : Result}, l.Pairs (Both Q) x y → l.Pairs V x y := by
    intro x y hxy
    refine hxy.mono ?_
    rintro a b ⟨rfl, ha⟩
    exact m.again ha
  have harity : ∀ (name : String) (n : Nat) {x y : Result}, (args.length = n → l.Pairs V x y) →
      l.Pairs V (Builtin.arity name args n >>= fun _ => x)
        (Builtin.arity name args' n >>= fun _ => y) := by
    intro name n x y hxy
    unfold Builtin.arity
    rw [← hargs.length_eq]
    split
    · next hn => exact hxy hn
    · exact .refuse _
  cases b with
  | pi | e | phi =>
    unfold Builtin.run
    rw [h.precision]
    exact hconst _
  | sqrt =>
    exact harity "sqrt" 1 fun _ =>
      .value (m.binary (hhead hargs) (m.again (m.numeric (.number _))))
  | abs =>
    refine (h.coerceArgs hargs "abs" 1).bindBoth fun vs _ => .same fun r hr => m.again ?_
    unfold Builtin.absOf at hr
    split at hr
    all_goals cases hr
    all_goals exact m.numeric (.number _)
  | exp | ln | log =>
    unfold Builtin.run
    rw [h.precision]
    exact h.monadic m hargs _ _
  | trig t => exact h.real1 m hargs t.name t.apply
  | atan2 => exact h.real2 m hargs "atan2" Float.atan2
  | dot =>
    refine (h.vectorArgs m hargs "dot" 2).bindBoth fun vs _ => hgiven ?_
    exact (h.dotOf _ _).monoBoth fun _ hv => m.numeric hv
  | cross =>
    refine (h.vectorArgs m hargs "cross" 2).bindBoth fun vs hvs => ?_
    exact crossOf m (hfirst hvs) (hsecond hvs)
  | map =>
    refine harity "map" 2 fun _ => ?_
    cases hargs with
    | nil => exact h.mapOf m m.absent m.absent
    | cons hf hrest => exact h.mapOf m hf (hhead hrest)
  | elem =>
    refine (h.coerceArgs hargs "elem" 2).bindBoth fun vs hvs => .same fun r hr => m.again ?_
    obtain ⟨elems, n, hv, -, -, hget⟩ := Builtin.elemOf_eq_ok hr
    cases vs with
    | nil => cases hv
    | cons v vs =>
      obtain rfl : v = .vector elems := hv
      exact m.elem (hvs _ (by simp)) (List.mem_of_getElem? hget)
  | mag => exact (h.vectorArgs m hargs "mag" 1).bindBoth fun vs _ => hgiven (h.magOf m _)
  | norm =>
    refine (h.vectorArgs m hargs "norm" 1).bindBoth fun vs _ => ?_
    exact (h.magOf m _).bindBoth fun s _ => hgiven (h.arith m .div _ s)
  | host => exact .value m.absent

end

end Abreast

end Reckon
