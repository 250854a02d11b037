import Reckon.Proofs.Parallel

namespace Reckon

open Leeway

/-- Two contexts bind a name to the same global, of the form `B`. -/
def Globally (B : Value → Prop) (c d : Context) (name : String) : Prop :=
  c.global? name = d.global? name ∧ ∀ b, c.global? name = some b → B b.value

/-- In two contexts the names that results refer to are bound to the same, of the form `B`; what a
name is bound to is a possible result, and what is settled may be bound to a name. -/
structure Sees (Q B : Value → Prop) (c d : Context) : Prop where
  lookup : ∀ {name}, Q (.var name) → c.get? name = d.get? name
  bound : ∀ {name b}, Q (.var name) → c.get? name = some b → B b.value
  result : ∀ {v}, B v → Q v
  settled : ∀ {v}, Settled Q v → B v

/-- Opens a frame for a call. -/
def Context.opened (c : Context) : Except Stop Context := c.push.mapError Stop.ofCause

/-- Two calls of functions with one body open their frames, and evaluate it, side by side. -/
structure Opens (l : Leeway) (Q B : Value → Prop) (ev ev' : Recur) (c d : Context) (body : Value) :
    Prop where
  frame : l.Pairs (fun e f => e = c.calling [] ∧ f = d.calling []) c.opened d.opened
  evaluate : ∀ {bs : List Binding}, (∀ b ∈ bs, B b.value) →
    l.Pairs (Both Q) (ev .evaluate (c.calling bs) body) (ev' .evaluate (d.calling bs) body)
  sees : ∀ {bs : List Binding}, (∀ b ∈ bs, B b.value) → Sees Q B (c.calling bs) (d.calling bs)

namespace Recur

/-- What a call does once its arguments are evaluated. -/
def enter (ev : Recur) (c : Context) (params : List String) (body : Value) (vals : List Value) :
    Result := do
  let inside ← c.opened
  let bound ← vals.mapM (argument c)
  let inner := inside.withLocals (List.zipWith Binding.mk params bound)
  match ← ev .evaluate inner body with
  | .var name => resolve inner name
  | r => .ok r

theorem callFunc_eq (ev : Recur) (c : Context) (params : List String) (body : Value)
    (args : List Value) :
    ev.callFunc c params body args =
      if args.length ≠ params.length then refuse (.arity params.length args.length)
      else args.mapM (ev .evaluate c) >>= ev.enter c params body := by
  unfold callFunc
  congr 2
  funext vals
  unfold enter Context.opened
  cases c.push <;> rfl

end Recur

namespace Sees

variable {l : Leeway} {Q B : Value → Prop} {c d : Context} (s : Sees Q B c d)
include s

theorem resolve {name : String} (hq : Q (.var name)) :
    l.Pairs (Both B) (Recur.resolve c name) (Recur.resolve d name) := by
  unfold Recur.resolve
  rw [← s.lookup hq]
  cases hb : c.get? name with
  | none => exact .refuse _
  | some b =>
    obtain ⟨n, w⟩ := b
    have hw : B w := s.bound hq hb
    cases w with
    | error e => exact .stop _
    | _ => exact .ok hw

theorem argument {v : Value} (hq : Q v) :
    l.Pairs (Both B) (Recur.argument c v) (Recur.argument d v) := by
  cases v with
  | var name => exact s.resolve hq
  | _ => exact .ok (s.settled ⟨hq, rfl⟩)

end Sees

theorem Opens.enter {l : Leeway} {Q Q' B : Value → Prop} {ev ev' : Recur} {c d : Context}
    {body : Value} (o : Opens l Q' B ev ev' c d body) (s : Sees Q B c d) (params : List String)
    {vals : List Value} (hvals : ∀ v ∈ vals, Q v) :
    l.Pairs (Both B) (ev.enter c params body vals) (ev'.enter d params body vals) := by
  refine o.frame.bind ?_
  rintro _ _ ⟨rfl, rfl⟩
  have hargs : List.Forall₂ (Both Q) vals vals :=
    List.forall₂_same.mpr fun v hv => ⟨rfl, hvals v hv⟩
  refine (Pairs.mapM (Q := B) hargs ?_).bindBoth fun bound hbound => ?_
  · rintro v _ ⟨rfl, hv⟩
    exact s.argument hv
  · simp only [Context.withLocals_calling]
    have hlocals : ∀ b ∈ (List.zipWith Binding.mk params bound).reverse, B b.value := by
      intro b hb
      rw [List.mem_reverse, ← List.map_uncurry_zip_eq_zipWith] at hb
      obtain ⟨⟨p, w⟩, hpw, rfl⟩ := List.mem_map.mp hb
      exact hbound w (List.of_mem_zip hpw).2
    have hsees := o.sees hlocals
    refine (o.evaluate hlocals).bindBoth fun r hr => ?_
    cases r with
    | var name => exact hsees.resolve hr
    | _ => exact .ok (hsees.settled ⟨hr, rfl⟩)

namespace Abreast

variable {l : Leeway} {V : Value → Value → Prop} {Q Q' B : Value → Prop} {ev ev' : Recur}
  {c d : Context} (h : Abreast l V Q ev ev' c d) (m : Matching V Q)

section

include h m

theorem invoke (b : Builtin) {args args' : List Value} (hargs : List.Forall₂ V args args')
    (synthesized : Bool) :
    l.Pairs (Both Q) (ev.invoke Host.none c b args synthesized)
      (ev'.invoke Host.none d b args' synthesized) := by
  refine (h.run m hargs b synthesized).bind fun r r' hr => ?_
  split
  · rw [(m.missing hr).mp rfl]
    exact .refuse _
  · next hpresent =>
    split
    · exact absurd ((m.missing hr).mpr rfl) hpresent
    · refine (h.evaluate hr).bindBoth fun w hw => ?_
      cases w with
      | number x =>
        dsimp only
        split
        · exact .ok hw
        · exact .refuse _
      | _ => exact .ok hw

omit h m in
/-- What is done with a single argument. -/
theorem single {F G : Value → Result} {x y : Stop} (hxy : l.alike x y)
    (hFG : ∀ arg arg', V arg arg' → l.Pairs (Both Q) (F arg) (G arg')) {args args' : List Value} :
    List.Forall₂ V args args' → l.Pairs (Both Q)
      (match args with
        | [arg] => F arg
        | _ => .error x)
      (match args' with
        | [arg] => G arg
        | _ => .error y) := by
  intro hargs
  cases hargs with
  | nil => exact .stops hxy
  | cons harg hrest =>
    cases hrest with
    | nil => exact hFG _ _ harg
    | cons => exact .stops hxy

theorem callBuiltin (b : Builtin) {args args' : List Value} (hargs : List.Forall₂ V args args')
    (synthesized : Bool) :
    l.Pairs (Both Q) (ev.callBuiltin Host.none c b args synthesized)
      (ev'.callBuiltin Host.none d b args' synthesized) := by
  unfold Recur.callBuiltin
  split
  · exact h.invoke m b hargs synthesized
  · have hconst := h.invoke m b .nil synthesized
    cases hargs with
    | nil => exact hconst
    | cons harg hrest =>
      cases hrest with
      | nil => exact hconst.bindBoth fun x _ => h.multiply m x harg
      | cons => exact .refuse _

/-- Constants are computed, and other builtins stay. -/
theorem settleBuiltin {b : Builtin} (hb : Q (.builtin b)) :
    l.Pairs (Both (Settled Q))
      (if b.isFunction then .ok (.builtin b)
        else do ev .settle c (← ev.invoke Host.none c b [] false))
      (if b.isFunction then .ok (.builtin b)
        else do ev' .settle d (← ev'.invoke Host.none d b [] false)) := by
  split
  · exact .ok ⟨hb, rfl⟩
  · exact (h.invoke m b .nil false).bindBoth fun r hr => h.settle hr

theorem evalBinary (op : Op) {a a' b b' : Value} (ha : V a a') (hb : V b b') :
    l.Pairs (Both Q) (ev.evalStep Host.none c (.binary op a b))
      (ev'.evalStep Host.none d (.binary op a' b')) :=
  (h.coerce ha).bindBoth fun x _ => (h.coerce hb).bindBoth fun y _ => h.arith m op x y

theorem evalUnary (op : Op) {a a' : Value} (ha : V a a') :
    l.Pairs (Both Q) (ev.evalStep Host.none c (.unary op a))
      (ev'.evalStep Host.none d (.unary op a')) := by
  refine (h.coerce ha).bindBoth fun x _ => .same fun v hv => ⟨rfl, m.numeric ?_⟩
  exact Recur.numeric_of_ofAnswer (Value.unaryOp_givesNumeric op x) hv

theorem evalVector {elems elems' : List Value} (helems : List.Forall₂ V elems elems') :
    l.Pairs (Both Q) (ev.evalStep Host.none c (.vector elems))
      (ev'.evalStep Host.none d (.vector elems')) :=
  (Pairs.mapM helems fun _ _ => h.coerce).bindBoth fun _ hvs => .ok (m.vector hvs)

end

variable (s : Sees Q B c d)
include h m s

theorem settleStep {v : Value} (hv : Q v) :
    l.Pairs (Both (Settled Q)) (ev.settleStep Host.none c v) (ev'.settleStep Host.none d v) := by
  cases v with
  | var name =>
    simp only [Recur.settleStep, ← s.lookup hv]
    cases hb : c.get? name with
    | none => exact .refuse _
    | some b =>
      obtain ⟨n, w⟩ := b
      have hw : Q w := s.result (s.bound hv hb)
      cases w with
      | builtin b => exact h.settleBuiltin m hw
      | func => exact .ok ⟨hw, rfl⟩
      | _ => exact (h.evaluate (m.again hw)).bindBoth fun r hr => h.settle hr
  | builtin b => exact h.settleBuiltin m hv
  | _ => exact .ok ⟨hv, rfl⟩

theorem evalName {name : String} (hname : Q (.var name)) :
    l.Pairs (Both Q) (ev.evalName c name) (ev'.evalName d name) := by
  unfold Recur.evalName
  rw [← s.lookup hname]
  cases hb : c.get? name with
  | none => exact .refuse _
  | some b =>
    obtain ⟨n, w⟩ := b
    have hw : Q w := s.result (s.bound hname hb)
    cases w with
    | func | builtin => exact .ok hname
    | error e => exact .stop _
    | _ => exact h.evaluate (m.again hw)

variable (o : ∀ {params body}, Q (.func params body) → Opens l Q' B ev ev' c d body)
  {args args' : List Value} (hargs : List.Forall₂ V args args')
include o hargs

omit m in
theorem callFunc {params : List String} {body : Value} (hf : Q (.func params body)) :
    l.Pairs (Both Q) (ev.callFunc c params body args) (ev'.callFunc d params body args') := by
  rw [Recur.callFunc_eq, Recur.callFunc_eq, ← hargs.length_eq]
  split
  · exact .refuse _
  · refine (Pairs.mapM hargs fun v w => h.evaluate).bindBoth fun vals hvals => ?_
    exact ((o hf).enter s params hvals).monoBoth fun _ => s.result

/-- Calls what a name is bound to. -/
theorem applyName {name : String} {synthesized : Bool}
    (hsame : (if synthesized then c.global? name else c.get? name) =
      if synthesized then d.global? name else d.get? name)
    (hbound : ∀ b, (if synthesized then c.global? name else c.get? name) = some b → B b.value) :
    l.Pairs (Both Q) (ev.apply Host.none c (.var name) args synthesized)
      (ev'.apply Host.none d (.var name) args' synthesized) := by
  simp only [Recur.apply, ← hsame]
  cases hb : (if synthesized then c.global? name else c.get? name) with
  | none => exact .refuse _
  | some b =>
    obtain ⟨n, w⟩ := b
    have hw : Q w := s.result (hbound _ hb)
    cases w with
    | func params body => exact h.callFunc s o hargs hw
    | builtin b => exact h.callBuiltin m b hargs synthesized
    | error e => exact .stop _
    | _ =>
      refine single (l.refl _) (fun _ _ harg => ?_) hargs
      exact (h.coerce (m.again hw)).bindBoth fun x _ => h.multiply m x harg

/-- Calls an evaluated callee. -/
theorem apply {callee : Value} (hcallee : Q callee) {synthesized : Bool}
    (hglobal : synthesized = true → ∀ name, callee = .var name → Globally B c d name) :
    l.Pairs (Both Q) (ev.apply Host.none c callee args synthesized)
      (ev'.apply Host.none d callee args' synthesized) := by
  cases callee with
  | var name =>
    cases synthesized with
    | true =>
      have hg := hglobal rfl name rfl
      exact h.applyName m s o hargs hg.1 hg.2
    | false => exact h.applyName m s o hargs (s.lookup hcallee) fun _ => s.bound hcallee
  | func params body => exact h.callFunc s o hargs hcallee
  | builtin b => exact h.callBuiltin m b hargs synthesized
  | number | vector => exact single (l.refl _) (fun _ _ harg => h.multiply m _ harg) hargs
  | _ => exact .refuse _

end Abreast

/-- Numbers, functions and builtins evaluate to themselves. -/
def Value.isLiteral : Value → Bool
  | .number _ | .func _ _ | .builtin _ => true
  | _ => false

/-- Forms of trees, `P`, and of what they evaluate to, `Q`, and names, `G`, of the globals that
synthesized calls in them mean, such that evaluation comes to no other trees and names. -/
structure Forms (P Q : Value → Prop) (G : String → Prop) : Prop where
  literal : ∀ {v}, P v → v.isLiteral = true → Q v
  reference : ∀ {name}, P (.var name) → Q (.var name)
  again : ∀ {v}, Q v → P v
  numeric : ∀ {v}, Numeric v → Q v
  vector : ∀ {elems}, (∀ v ∈ elems, Settled Q v) → Q (.vector elems)
  elem : ∀ {elems v}, Q (.vector elems) → v ∈ elems → Q v
  body : ∀ {params body}, Q (.func params body) → P body
  call : ∀ {f x}, Q f → Q x → P (.call f [x] false)
  absent : P .missing
  binary : ∀ {op a b}, P (.binary op a b) ↔ P a ∧ P b
  unary : ∀ {op a}, P (.unary op a) → P a
  elements : ∀ {elems}, P (.vector elems) ↔ ∀ v ∈ elems, P v
  args : ∀ {f args synthesized}, P (.call f args synthesized) → ∀ v ∈ args, P v
  callee : ∀ {f args synthesized}, P (.call f args synthesized) →
    synthesized = false ∨ f.isReference = false → P f
  synthesized : ∀ {f args}, P (.call f args true) →
    ∀ name, (f.isReference = true → f = .var name) → G name

theorem Forms.matching {P Q : Value → Prop} {G : String → Prop} (hf : Forms P Q G) :
    Matching (Both P) Q where
  numeric := hf.numeric
  vector := hf.vector
  elem := hf.elem
  again hv := ⟨rfl, hf.again hv⟩
  missing hvw := by rw [hvw.1]
  absent := ⟨rfl, hf.absent⟩
  binary := by
    rintro op a _ b _ ⟨rfl, ha⟩ ⟨rfl, hb⟩
    exact ⟨rfl, hf.binary.mpr ⟨ha, hb⟩⟩
  elements := by
    intro vs ws h
    have heq : vs = ws := List.forall₂_eq_eq_eq ▸ h.imp fun _ _ hvw => hvw.1
    subst heq
    exact ⟨rfl, hf.elements.mpr fun v hv => (List.forall₂_same.mp h v hv).2⟩
  call hg hx := ⟨rfl, hf.call hg hx⟩

/-- Contexts in the relation `C` are alike to trees of the form `P`: lookups and the opening of
frames come to the same, and calls lead from such contexts to such contexts. -/
structure Lockstep (l : Leeway) (P Q B : Value → Prop) (G : String → Prop)
    (C : Context → Context → Prop) : Prop where
  forms : Forms P Q G
  precision : ∀ {c d}, C c d → c.precision = d.precision
  sees : ∀ {c d}, C c d → Sees Q B c d
  globally : ∀ {c d name}, C c d → G name → Globally B c d name
  frame : ∀ {c d}, C c d →
    l.Pairs (fun e f => e = c.calling [] ∧ f = d.calling []) c.opened d.opened
  calling : ∀ {c d bs}, C c d → (∀ b ∈ bs, B b.value) → C (c.calling bs) (d.calling bs)

namespace Lockstep

variable {l : Leeway} {P Q B : Value → Prop} {G : String → Prop} {C : Context → Context → Prop}
  (k : Lockstep l P Q B G C) {ev ev' : Recur}
  (ih : ∀ {c d}, C c d → Abreast l (Both P) Q ev ev' c d) {c d : Context} (hcd : C c d)
include k ih hcd

theorem opens {params : List String} {body : Value} (hf : Q (.func params body)) :
    Opens l Q B ev ev' c d body where
  frame := k.frame hcd
  evaluate hbs := (ih (k.calling hcd hbs)).evaluate ⟨rfl, k.forms.body hf⟩
  sees hbs := k.sees (k.calling hcd hbs)

theorem evalCall {f : Value} {args : List Value} {synthesized : Bool}
    (hv : P (.call f args synthesized)) :
    l.Pairs (Both Q) (ev.evalStep Host.none c (.call f args synthesized))
      (ev'.evalStep Host.none d (.call f args synthesized)) := by
  have h := ih hcd
  have m := k.forms.matching
  have s := k.sees hcd
  have o : ∀ {params body}, Q (.func params body) → Opens l Q B ev ev' c d body :=
    fun hf => k.opens ih hcd hf
  have hargs : List.Forall₂ (Both P) args args :=
    List.forall₂_same.mpr fun v hv' => ⟨rfl, k.forms.args hv v hv'⟩
  have hcomputed : f.isReference = false → l.Pairs (Both Q)
      (ev .evaluate c f >>= fun g => ev.apply Host.none c g args synthesized)
      (ev' .evaluate d f >>= fun g => ev'.apply Host.none d g args synthesized) := by
    intro hr
    refine (h.evaluate ⟨rfl, k.forms.callee hv (.inr hr)⟩).bindBoth fun g hg => ?_
    refine h.apply m s o hargs hg fun hsyn name _ => ?_
    subst hsyn
    exact k.globally hcd (k.forms.synthesized hv name fun he => by simp [hr] at he)
  cases f with
  | missing => exact .stop _
  | var name =>
    cases synthesized with
    | true =>
      have hg := k.globally hcd (k.forms.synthesized hv name fun _ => rfl)
      exact h.applyName m s o hargs hg.1 hg.2
    | false =>
      have hname : Q (.var name) := k.forms.reference (k.forms.callee hv (.inl rfl))
      exact h.applyName m s o hargs (s.lookup hname) fun _ => s.bound hname
  | _ => exact hcomputed rfl

theorem evalStep {v : Value} (hv : P v) :
    l.Pairs (Both Q) (ev.evalStep Host.none c v) (ev'.evalStep Host.none d v) := by
  have h := ih hcd
  have m := k.forms.matching
  cases v with
  | number | func | builtin => exact .ok (k.forms.literal hv rfl)
  | error e => exact .stop _
  | binary op a b =>
    have hab := k.forms.binary.mp hv
    exact h.evalBinary m op ⟨rfl, hab.1⟩ ⟨rfl, hab.2⟩
  | unary op a => exact h.evalUnary m op ⟨rfl, k.forms.unary hv⟩
  | call f args synthesized => exact k.evalCall ih hcd hv
  | var name => exact h.evalName m (k.sees hcd) (k.forms.reference hv)
  | vector elems =>
    exact h.evalVector m (List.forall₂_same.mpr fun v hv' => ⟨rfl, k.forms.elements.mp hv v hv'⟩)
  | missing | placeholder | endOfInput | unknown => exact .refuse _

omit ih in
/-- By induction on the fuel: one step of evaluation in contexts that are alike. -/
theorem abreast (fuel : Nat) :
    Abreast l (Both P) Q (evaluator Host.none fuel) (evaluator Host.none fuel) c d := by
  induction fuel generalizing c d with
  | zero => exact ⟨k.precision hcd, fun _ => .stop _, fun _ => .stop _⟩
  | succ fuel ih =>
    have h : Abreast l (Both P) Q (evaluator Host.none fuel) (evaluator Host.none fuel) c d :=
      ih hcd
    refine ⟨k.precision hcd, ?_, fun hv => h.settleStep k.forms.matching (k.sees hcd) hv⟩
    rintro v _ ⟨rfl, hv⟩
    exact k.evalStep ih hcd hv

end Lockstep

end Reckon
