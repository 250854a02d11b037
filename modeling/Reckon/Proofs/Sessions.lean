import Reckon.Proofs.Globals
import Reckon.Proofs.Statements
import Reckon.Proofs.Termination
import Reckon.Session

namespace Reckon

open Function

namespace Context

def fresh (maxDepth : Int) (precision : Precision) : Context :=
  { standard with maxDepth, precision }

theorem create_eq_fresh (maxDepth : Int) (precision : Precision) :
    create [.maxDepth maxDepth, .precision precision.bits] precision.functions =
      .ok (fresh maxDepth precision) := rfl

theorem standard_isStandard : ∀ b ∈ Builtin.standard, b.isStandard = true := by decide

theorem fresh_orderly (maxDepth : Int) (precision : Precision) :
    (fresh maxDepth precision).Orderly := by
  refine ⟨⟨fun b hb => ?_, fun _ h => nomatch h⟩, rfl, standard_distinct, rfl⟩
  rcases List.mem_cons.mp hb with rfl | hb
  · exact .result (.number trivial)
  · obtain ⟨s, hs, rfl⟩ := List.mem_map.mp (List.mem_reverse.mp hb)
    exact .builtin (standard_isStandard s hs)

end Context

/-- An engine without a host. -/
abbrev Engine.ofFuel (fuel : Nat) : Engine := { fuel }

/-- A line of input and the lines that may follow if it ends inside brackets. -/
structure Line where
  text : String
  further : List String := []

/-- What a statement that gave `r` makes of a context. -/
inductive Executed (e : Engine) (c : Context) : Statement → Option Value → Context → Prop
  | quantity {v r d} : e.coerce c v = .ok r → r.isQuantity = true →
      c.Becomes d (update c.lookup? "ans" (some r)) → Executed e c (.expr v) (some r) d
  | function {v r} : e.coerce c v = .ok r → r.isFunctional = true →
      Executed e c (.expr v) (some r) c
  | assigned {name v r d} : e.coerce c v = .ok r → r.isQuantity = true →
      c.Becomes d (update (update c.lookup? name (some r)) "ans" (some r)) →
      Executed e c (.assign name v) (some r) d
  | named {name v params body d} : e.coerce c v = .ok (.func params body) →
      c.Becomes d (update c.lookup? name (some (.func params body))) →
      Executed e c (.assign name v) (some (.func params body)) d
  | defined {name params body d} :
      c.Becomes d (update c.lookup? name (some (.func params body))) →
      Executed e c (.define name params body) (some (.func params body)) d
  | deleted {name d} : name ≠ "ans" → (c.lookup? name).isSome = true →
      c.Becomes d (update c.lookup? name none) → Executed e c (.delete name) none d
  | cleared {d} : c.Becomes d (fun n =>
      if n = "ans" then c.lookup? n else (c.lookup? n).filter Value.isBuiltin) →
      Executed e c .clear none d

namespace Engine

def runLine (e : Engine) (c : Context) (l : Line) : Ran := (e.run c { lines := l.further } l.text).1

def session (e : Engine) (c : Context) : List Line → Context
  | [] => c
  | l :: ls => e.session (e.runLine c l).context ls

def results (e : Engine) (c : Context) : List Line → List (Except Stop (Option Value))
  | [] => []
  | l :: ls => (e.runLine c l).result :: e.results (e.runLine c l).context ls

end Engine

theorem coerce_concrete {fuel : Nat} {c : Context} (hc : c.Orderly) {v r : Value}
    (hv : Evaluable v) (h : (Engine.ofFuel fuel).coerce c v = .ok r) : Concrete r :=
  (coercion_ends hc.sound hv).holds h

/-- A statement either ends with an error and changes nothing, or makes the change that goes with
its result. -/
def Ran.Atomic (ran : Ran) (e : Engine) (c : Context) (s : Statement) : Prop :=
  match ran.result with
  | .error _ => ran.context = c
  | .ok r => ran.context.Orderly ∧ Executed e c s r ran.context

/-- A change of the context that is refused leaves it as it was. -/
theorem Ran.atomic_ofChange {e : Engine} {c : Context} {s : Statement} {r : Option Value}
    {change : Except Cause Context}
    (h : ∀ d, change = .ok d → d.Orderly ∧ Executed e c s r d) :
    (Ran.ofChange c r change).Atomic e c s := by
  cases change with
  | ok d => exact h d rfl
  | error cause => rfl

/-- A statement changes nothing if it fails, and just what it says if it does not. -/
theorem exec_atomic {fuel : Nat} {c : Context} (hc : c.Orderly) {s : Statement}
    (hs : s.Executable) : ((Engine.ofFuel fuel).exec c s).Atomic (.ofFuel fuel) c s := by
  cases s with
  | delete name =>
    refine Ran.atomic_ofChange fun d hd => ?_
    obtain ⟨ho, hn, hsome, hb⟩ := hc.delete hd
    exact ⟨ho, .deleted hn hsome hb⟩
  | clear => exact ⟨hc.clear.1, .cleared hc.clear.2⟩
  | define name params body =>
    refine Ran.atomic_ofChange fun d hd => ?_
    exact ⟨hc.setGlobal hd (.func (hs body rfl)), .defined (Context.becomes_setGlobal hd)⟩
  | expr v =>
    simp only [Engine.exec]
    cases hr : (Engine.ofFuel fuel).coerce c v with
    | error stop => rfl
    | ok r =>
      have hconc := coerce_concrete hc (hs v rfl) hr
      have hkeep : r.isQuantity = true → (c.keep r).Atomic (.ofFuel fuel) c (.expr v) := by
        intro hq
        refine Ran.atomic_ofChange fun d hd => ?_
        exact ⟨hc.setGlobal hd hconc, .quantity hr hq (Context.becomes_setGlobal hd)⟩
      cases hconc with
      | number | vector => exact hkeep rfl
      | func | builtin => exact ⟨hc, .function hr rfl⟩
  | assign name v =>
    simp only [Engine.exec]
    cases hr : (Engine.ofFuel fuel).coerce c v with
    | error stop => rfl
    | ok r =>
      have hconc := coerce_concrete hc (hs v rfl) hr
      have hassign : r.isQuantity = true →
          (c.assigning name r (·.keep r)).Atomic (.ofFuel fuel) c (.assign name v) := by
        intro hq
        unfold Context.assigning
        cases hset : c.setGlobal name r with
        | error cause => rfl
        | ok d =>
          have hd := hc.setGlobal hset hconc
          have hb := Context.becomes_setGlobal hset
          -- The second change cannot be refused, so the first never stands alone.
          have hans := hd.keep hq
          have hb' := Context.becomes_setGlobal hans
          rw [hb.lookup] at hb'
          simp only [Context.keep, hans]
          exact ⟨hd.setGlobal hans hconc, .assigned hr hq (hb.trans hb')⟩
      cases hconc with
      | number | vector => exact hassign rfl
      | builtin => rfl
      | func hbody =>
        refine Ran.atomic_ofChange fun d hd => ?_
        exact ⟨hc.setGlobal hd (.func hbody), .named hr (Context.becomes_setGlobal hd)⟩

def Line.statement? (l : Line) : Option Statement :=
  match Reading.statement { lines := l.further } l.text with
  | .ok s => some s.result
  | .error _ => none

/-- A line is a statement to be executed, or blank, or refused for its form, in every context. -/
theorem Line.run_cases (l : Line) :
    (∃ s, l.statement? = some s ∧ s.Executable ∧ ∀ e c, Engine.runLine e c l = e.exec c s) ∨
      l.statement? = none ∧
        ((Text.isBlankLine l.text = true ∧ ∀ e c, Engine.runLine e c l = ⟨c, .ok none⟩) ∨
          ∃ err : Error, err.kind = .malformed ∧
            ∀ e c, Engine.runLine e c l = ⟨c, .error (.error err)⟩) := by
  unfold statement? Engine.runLine Engine.run
  rcases Reading.statement_cases (r := { lines := l.further }) rfl l.text with
    ⟨hb, hs⟩ | ⟨-, ⟨s, hs, hx⟩ | ⟨err, n, hs, hk⟩⟩
  · rw [hs]
    exact .inr ⟨rfl, .inl ⟨hb, fun _ _ => rfl⟩⟩
  · rw [hs]
    exact .inl ⟨s.result, rfl, hx, fun _ _ => rfl⟩
  · rw [hs]
    refine .inr ⟨rfl, .inr ⟨err, hk, fun e c => ?_⟩⟩
    simp [hk]

/-- What a line leaves is a context between lines, the same if it fails. -/
theorem runLine_atomic (fuel : Nat) {c : Context} (hc : c.Orderly) (l : Line) :
    let ran := (Engine.ofFuel fuel).runLine c l
    match ran.result with
    | .error _ => ran.context = c
    | .ok r => ran.context.Orderly ∧
      ((Text.isBlankLine l.text = true ∧ r = none ∧ ran.context = c) ∨
        ∃ s, l.statement? = some s ∧ Executed (.ofFuel fuel) c s r ran.context) := by
  rcases l.run_cases with ⟨s, hs, hx, h⟩ | ⟨-, ⟨hb, h⟩ | ⟨err, -, h⟩⟩
  · have hatomic : ((Engine.ofFuel fuel).exec c s).Atomic (.ofFuel fuel) c s := exec_atomic hc hx
    dsimp only
    rw [h]
    unfold Ran.Atomic at hatomic
    split
    · next he =>
      rw [he] at hatomic
      exact hatomic
    · next he =>
      rw [he] at hatomic
      exact ⟨hatomic.1, .inr ⟨s, hs, hatomic.2⟩⟩
  · dsimp only
    rw [h]
    exact ⟨hc, .inl ⟨hb, rfl, rfl⟩⟩
  · dsimp only
    rw [h]

theorem runLine_orderly {fuel : Nat} {c : Context} (hc : c.Orderly) (l : Line) :
    ((Engine.ofFuel fuel).runLine c l).context.Orderly := by
  have hatomic := runLine_atomic fuel hc l
  dsimp only at hatomic
  split at hatomic
  · rw [hatomic]
    exact hc
  · exact hatomic.1

theorem session_orderly {fuel : Nat} {c : Context} (hc : c.Orderly) (ls : List Line) :
    ((Engine.ofFuel fuel).session c ls).Orderly := by
  induction ls generalizing c with
  | nil => exact hc
  | cons l ls ih => exact ih (runLine_orderly hc l)

section

variable {c d : Context} {name other : String} {b : Builtin}

theorem Context.lookup?_setGlobal_builtin {v : Value} (h : c.setGlobal other v = .ok d)
    (hb : c.lookup? name = some (.builtin b)) : d.lookup? name = some (.builtin b) := by
  have hfree := (setGlobal_isOk_iff.mp (isOk_iff.mpr ⟨d, h⟩)).1
  have hne : name ≠ other := by
    rintro rfl
    exact hfree b hb
  rw [(becomes_setGlobal h).lookup, update_of_ne hne]
  exact hb

theorem Context.Orderly.lookup?_delete_builtin (hc : c.Orderly) (h : c.delete other = .ok d)
    (hb : c.lookup? name = some (.builtin b)) : d.lookup? name = some (.builtin b) := by
  obtain ⟨-, ⟨v, hv, hnot⟩, -⟩ := delete_eq_ok hc.idle h
  have hne : name ≠ other := by
    rintro rfl
    cases hv.symm.trans hb
    cases hnot
  rw [(becomes_delete hc.idle hc.distinct h).lookup, update_of_ne hne]
  exact hb

/-- A change that is refused leaves a builtin as well. -/
theorem Ran.lookup?_ofChange {r : Option Value} {change : Except Cause Context}
    (h : ∀ d, change = .ok d → d.lookup? name = some (.builtin b))
    (hb : c.lookup? name = some (.builtin b)) :
    (Ran.ofChange c r change).context.lookup? name = some (.builtin b) := by
  cases change with
  | ok d => exact h d rfl
  | error => exact hb

theorem exec_keeps_builtin (hc : c.Orderly) (e : Engine) (s : Statement)
    (hb : c.lookup? name = some (.builtin b)) :
    (e.exec c s).context.lookup? name = some (.builtin b) := by
  have hset : ∀ {c : Context} other v r, c.lookup? name = some (.builtin b) →
      (Ran.ofChange c r (c.setGlobal other v)).context.lookup? name = some (.builtin b) :=
    fun _ _ _ hb => Ran.lookup?_ofChange (fun _ hd => Context.lookup?_setGlobal_builtin hd hb) hb
  cases s with
  | delete other => exact Ran.lookup?_ofChange (fun _ hd => hc.lookup?_delete_builtin hd hb) hb
  | clear =>
    change c.clear.lookup? name = _
    simp [(Context.becomes_clear hc.distinct).lookup, hb, Value.isBuiltin]
  | define other params body => exact hset other _ _ hb
  | expr v =>
    simp only [Engine.exec]
    split
    · exact hb
    · exact hb
    · exact hb
    · exact hset "ans" _ _ hb
  | assign other v =>
    simp only [Engine.exec]
    split
    · exact hb
    · exact hset other _ _ hb
    · exact hb
    · unfold Context.assigning
      split
      · exact hb
      · next hd => exact hset "ans" _ _ (Context.lookup?_setGlobal_builtin hd hb)

/-- Lines leave each builtin as it is. -/
theorem session_keeps_builtin {fuel : Nat} (hc : c.Orderly) (ls : List Line)
    (hb : c.lookup? name = some (.builtin b)) :
    ((Engine.ofFuel fuel).session c ls).lookup? name = some (.builtin b) := by
  induction ls generalizing c with
  | nil => exact hb
  | cons l ls ih =>
    refine ih (runLine_orderly hc l) ?_
    rcases l.run_cases with ⟨s, -, -, h⟩ | ⟨-, ⟨-, h⟩ | ⟨err, -, h⟩⟩
    · rw [h]
      exact exec_keeps_builtin hc _ s hb
    · rw [h]
      exact hb
    · rw [h]
      exact hb

end

/-- The number or vector that a line gives. -/
def quantity? : Except Stop (Option Value) → Option Value
  | .ok (some v) => if v.isQuantity then some v else none
  | _ => none

theorem quantity?_of_isFunctional {v : Value} (h : v.isFunctional = true) :
    quantity? (.ok (some v)) = none := by
  cases v with
  | func | builtin => rfl
  | _ => cases h

theorem quantity?_of_isQuantity {v : Value} (h : v.isQuantity = true) :
    quantity? (.ok (some v)) = some v := if_pos h

theorem Context.Becomes.ans {c d : Context} {look : String → Option Value} {v : Value}
    (h : c.Becomes d look) (hv : look "ans" = some v) : d.ans = v := by
  rw [← h.lookup] at hv
  exact Option.some.inj hv

/-- A statement that gives a number or vector keeps it as `ans`; any other leaves `ans` alone. -/
theorem Executed.ans {e : Engine} {c d : Context} {s : Statement} {r : Option Value}
    (hd : d.Orderly) (h : Executed e c s r d) : d.ans = (quantity? (.ok r)).getD c.ans := by
  have hfunc : ∀ {name params body},
      c.Becomes d (update c.lookup? name (some (.func params body))) → d.ans = c.ans := by
    intro name params body hb
    by_cases hn : "ans" = name
    · subst hn
      have hq := hd.ans
      rw [hb.ans (update_self _ _ _)] at hq
      cases hq
    · exact hb.ans (update_of_ne hn _ _)
  cases h with
  | quantity _ hq hb =>
    rw [quantity?_of_isQuantity hq]
    exact hb.ans (update_self _ _ _)
  | function _ hf => rw [quantity?_of_isFunctional hf, Option.getD_none]
  | assigned _ hq hb =>
    rw [quantity?_of_isQuantity hq]
    exact hb.ans (update_self _ _ _)
  | named _ hb => exact hfunc hb
  | defined hb => exact hfunc hb
  | deleted hn _ hb => exact hb.ans (update_of_ne hn.symm _ _)
  | cleared hb => exact hb.ans (if_pos rfl)

theorem runLine_ans {fuel : Nat} {c : Context} (hc : c.Orderly) (l : Line) :
    ((Engine.ofFuel fuel).runLine c l).context.ans =
      (quantity? ((Engine.ofFuel fuel).runLine c l).result).getD c.ans := by
  have hatomic := runLine_atomic fuel hc l
  dsimp only at hatomic
  split at hatomic
  · next he =>
    rw [hatomic, he]
    rfl
  · next he =>
    rw [he]
    rcases hatomic.2 with ⟨-, rfl, hsame⟩ | ⟨s, -, hex⟩
    · rw [hsame]
      rfl
    · exact hex.ans hatomic.1

/-- The last number or vector that lines give is `ans`. -/
theorem session_ans {fuel : Nat} {c : Context} (hc : c.Orderly) (ls : List Line) :
    ((Engine.ofFuel fuel).session c ls).ans =
      (((Engine.ofFuel fuel).results c ls).filterMap quantity?).getLastD c.ans := by
  induction ls generalizing c with
  | nil => rfl
  | cons l ls ih =>
    rw [Engine.session, ih (runLine_orderly hc l), Engine.results, runLine_ans hc l]
    cases hq : quantity? ((Engine.ofFuel fuel).runLine c l).result with
    | none => rw [List.filterMap_cons_none hq, Option.getD_none]
    | some v => rw [List.filterMap_cons_some hq, List.getLastD_cons, Option.getD_some]

/-- A line that fails leaves the context as it was. One that does not leaves no frame, binds each
name once and changes just what it says: nothing if it is blank. So `ans` is the last number or
vector given, or 0. -/
theorem session_line_is_atomic (fuel : Nat) (maxDepth : Int) (precision : Precision)
    (before : List Line) (line : Line) :
    let e := Engine.ofFuel fuel
    let c := e.session (.fresh maxDepth precision) before
    let ran := e.runLine c line
    (match ran.result with
      | .error _ => ran.context = c
      | .ok r => ran.context.frames = [] ∧ (ran.context.bindings.map Binding.name).Nodup ∧
        ((Text.isBlankLine line.text = true ∧ r = none ∧ ran.context = c) ∨
          ∃ s, line.statement? = some s ∧ Executed e c s r ran.context)) ∧
      c.ans =
        ((e.results (.fresh maxDepth precision) before).filterMap quantity?).getLastD (.int 0) := by
  intro e c ran
  have hfresh := Context.fresh_orderly maxDepth precision
  refine ⟨?_, session_ans hfresh before⟩
  have hc : c.Orderly := session_orderly hfresh before
  have hatomic := runLine_atomic fuel hc line
  dsimp only at hatomic
  split at hatomic
  · next he =>
    rw [show ran.result = _ from he]
    exact hatomic
  · next he =>
    rw [show ran.result = _ from he]
    exact ⟨hatomic.1.idle, hatomic.1.distinct, hatomic.2⟩

end Reckon
