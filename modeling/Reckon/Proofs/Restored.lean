import Reckon.Proofs.InPlace
import Reckon.Proofs.Outcome
import Reckon.Proofs.Sessions

namespace Reckon

namespace Context

/-- `d` differs from `c` in frames alone: it has those of `c` and perhaps more on top of them, in
all not more than are allowed. -/
structure Within (c d : Context) : Prop where
  rest : d = { c with frames := d.frames }
  below : c.frames <:+ d.frames
  bounded : (d.frames.length : Int) ≤ c.maxDepth

theorem Within.trans {c d e : Context} (h : c.Within d) (h' : d.Within e) : c.Within e where
  rest := by
    rw [h'.rest, h.rest]
  below := h.below.trans h'.below
  bounded := by
    have hm : d.maxDepth = c.maxDepth := by rw [h.rest]
    rw [← hm]
    exact h'.bounded

/-- The context inside a call. -/
def calling (c : Context) (frame : List Binding) : Context := { c with frames := frame :: c.frames }

theorem within_self {c : Context} (h : (c.frames.length : Int) ≤ c.maxDepth) : c.Within c :=
  ⟨rfl, List.suffix_rfl, h⟩

theorem within_calling {c : Context} (h : (c.frames.length : Int) < c.maxDepth)
    (frame : List Binding) : c.Within (c.calling frame) := by
  refine ⟨rfl, List.suffix_cons _ _, ?_⟩
  simp only [calling, List.length_cons]
  omega

theorem withLocals_calling (c : Context) (bs : List Binding) :
    (c.calling []).withLocals bs = c.calling bs.reverse := by
  simp [calling, withLocals]

end Context

namespace Procedure

variable {α β : Type}

section

variable {x : Procedure α} {f : α → Procedure β} {y : Procedure Unit} {s t u : Store}

theorem runOn_bind_ok {a : α} (h : x.runOn s = (.ok a, t)) :
    (x >>= f).runOn s = (f a).runOn t := by
  change (match x.runOn s with | (r, t) => (ExceptT.bindCont f r : StateM Store _) t) = _
  rw [h]
  rfl

theorem runOn_bind_error {e : Stop} (h : x.runOn s = (.error e, t)) :
    (x >>= f).runOn s = (.error e, t) := by
  change (match x.runOn s with | (r, t) => (ExceptT.bindCont f r : StateM Store _) t) = _
  rw [h]
  rfl

theorem runOn_tryFinally {r : Except Stop α} (hx : x.runOn s = (r, t))
    (hy : y.runOn t = (.ok (), u)) : (tryFinally x y).runOn s = (r, u) := by
  have hx' : x s = (r, t) := hx
  have hy' : y t = (.ok (), u) := hy
  cases r <;>
    simp [runOn, tryFinally, tryFinally', Functor.map, ExceptT.map, ExceptT.run, ExceptT.mk,
      StateT.run, StateT.bind, StateT.pure, bind, pure, hx', hy']

end

/-- From the context `c` the computation leads to `d` and gives `r`. The states before `d` are those
of calls made in `base`. -/
def Leads (base : Context) (x : Procedure α) (c : Context) (r : Except Stop α) (d : Context) :
    Prop :=
  ∀ past, ∃ moments, x.runOn ⟨c, past⟩ = (r, ⟨d, moments ++ past⟩) ∧ ∀ m ∈ moments, base.Within m

/-- In the context `c` the computation gives `r` and leaves the context as it was. -/
def Restores (x : Procedure α) (c : Context) (r : Except Stop α) : Prop := Leads c x c r c

namespace Leads

variable {base c d e : Context} {x : Procedure α} {f : α → Procedure β}

theorem stay {r : Except Stop α} (h : ∀ s, x.runOn s = (r, s)) : Leads base x c r c :=
  fun _ => ⟨[], h _, by simp⟩

theorem bind {a : α} {r : Except Stop β} (hx : Leads base x c (.ok a) d)
    (hf : Leads base (f a) d r e) : Leads base (x >>= f) c r e := by
  intro past
  obtain ⟨ms, hrun, hms⟩ := hx past
  obtain ⟨ns, hrun', hns⟩ := hf (ms ++ past)
  refine ⟨ns ++ ms, ?_, List.forall_mem_append.mpr ⟨hns, hms⟩⟩
  rw [runOn_bind_ok hrun, List.append_assoc]
  exact hrun'

theorem bind_error {s : Stop} (hx : Leads base x c (.error s) d) :
    Leads base (x >>= f) c (.error s) d := by
  intro past
  obtain ⟨ms, hrun, hms⟩ := hx past
  exact ⟨ms, runOn_bind_error hrun, hms⟩

/-- The context that a computation reads is the one it runs in. -/
theorem context {f : Context → Procedure α} {r : Except Stop α} (h : Leads base (f c) c r d) :
    Leads base (Procedure.context >>= f) c r d :=
  Leads.bind (fun _ => ⟨[], rfl, fun _ hm => nomatch hm⟩) h

theorem change (h : base.Within c) (d : Context) : Leads base (Procedure.change d) c (.ok ()) d :=
  fun _ => ⟨[c], rfl, fun m hm => by rwa [List.mem_singleton.mp hm]⟩

theorem push (hroom : (c.frames.length : Int) < c.maxDepth) :
    Leads c Procedure.push c (.ok ()) (c.calling []) := by
  have hpush : c.push = .ok (c.calling []) := Context.push_eq_ok_iff.mpr ⟨hroom, rfl⟩
  refine .context ?_
  rw [hpush]
  exact .change (Context.within_self (Int.le_of_lt hroom)) _

theorem addLocal (hroom : (c.frames.length : Int) < c.maxDepth) (frame : List Binding)
    (b : Binding) : Leads c (Procedure.addLocal b) (c.calling frame) (.ok ())
      (c.calling (b :: frame)) :=
  .context (.change (Context.within_calling hroom frame) _)

theorem pop (hroom : (c.frames.length : Int) < c.maxDepth) (frame : List Binding) :
    Leads c Procedure.pop (c.calling frame) (.ok ()) c :=
  .context (.change (Context.within_calling hroom frame) _)

/-- What is done in the end is done whether or not the computation before it stopped. -/
theorem tryFinally {y : Procedure Unit} {r : Except Stop α} (hx : Leads base x c r d)
    (hy : Leads base y d (.ok ()) e) : Leads base (tryFinally x y) c r e := by
  intro past
  obtain ⟨ms, hrun, hms⟩ := hx past
  obtain ⟨ns, hrun', hns⟩ := hy (ms ++ past)
  refine ⟨ns ++ ms, ?_, List.forall_mem_append.mpr ⟨hns, hms⟩⟩
  rw [runOn_tryFinally hrun hrun', List.append_assoc]

/-- What is left as it was inside a call. -/
theorem ofRestores {r : Except Stop α} (h : base.Within c) (hx : Restores x c r) :
    Leads base x c r c := by
  intro past
  obtain ⟨ms, hrun, hms⟩ := hx past
  exact ⟨ms, hrun, fun m hm => h.trans (hms m hm)⟩

end Leads

namespace Restores

variable {c : Context} {r : Except Stop α} {x : Procedure α}

theorem pure (a : α) : Restores (pure a) c (.ok a) := .stay fun _ => rfl

theorem throw (s : Stop) : Restores (throw s : Procedure α) c (.error s) := .stay fun _ => rfl

theorem refuse (cause : Cause) :
    Restores (InPlace.refuse cause : Procedure α) c (Recur.refuse cause) := .throw _

theorem lift (r : Except Stop α) : Restores (liftM r) c r := .stay fun _ => rfl

theorem bind {f : α → Procedure β} {g : α → Except Stop β} (hx : Restores x c r)
    (hf : ∀ a, r = .ok a → Restores (f a) c (g a)) : Restores (x >>= f) c (r >>= g) := by
  cases r with
  | ok a => exact Leads.bind hx (hf a rfl)
  | error s => exact Leads.bind_error hx

theorem context {f : Context → Procedure α} (h : Restores (f c) c r) :
    Restores (Procedure.context >>= f) c r := Leads.context h

theorem mapM {f : β → Procedure α} {g : β → Except Stop α} (h : ∀ b, Restores (f b) c (g b))
    (bs : List β) : Restores (bs.mapM f) c (bs.mapM g) := by
  induction bs with
  | nil => exact .pure []
  | cons b bs ih =>
    simp only [List.mapM_cons]
    exact (h b).bind fun a _ => ih.bind fun as _ => .pure (a :: as)

theorem noFrame {cause : Cause} (h : c.push = .error cause) :
    Restores (Procedure.inFrame x) c (Recur.refuse cause) := by
  refine Leads.bind_error (Restores.context ?_)
  rw [h]
  exact .throw _

/-- The frame of a call goes, whatever the call did to it. -/
theorem inFrame {frame : List Binding} (hroom : (c.frames.length : Int) < c.maxDepth)
    (hx : Leads c x (c.calling []) r (c.calling frame)) : Restores (Procedure.inFrame x) c r :=
  (Leads.push hroom).bind (hx.tryFinally (.pop hroom frame))

end Restores

end Procedure

namespace Builtin

/-- What a builtin that computes from values does with its arguments once they are coerced. -/
theorem run_eq_bind {b : Builtin} {n : Nat} (h : b.takesValues? = some n) (c : Context)
    (synthesized : Bool) :
    ∃ rest : List Value → Result, ∀ ev args,
      b.run Host.none ev c args synthesized = coerceArgs ev c b.name args n >>= rest := by
  cases b with
  | abs | elem =>
    cases h
    exact ⟨_, fun _ _ => rfl⟩
  | exp | ln | log | trig | atan2 | dot | cross =>
    cases h
    exact ⟨_, fun _ _ => bind_assoc _ _ _⟩
  | _ => cases h

theorem length_of_coerceArgs {ev : Recur} {c : Context} {name : String} {args vs : List Value}
    {n : Nat} (h : coerceArgs ev c name args n = .ok vs) : vs.length = n := by
  obtain ⟨_, ha, h⟩ := bind_eq_ok_iff.mp h
  unfold arity at ha
  split at ha
  · next hn => exact (length_of_mapM h).trans hn
  · cases ha

theorem coerceArgs_given (c : Context) (name : String) (vs : List Value) :
    coerceArgs .given c name vs vs.length = .ok vs := by
  have hmap : vs.mapM (Recur.given.coerce c) = .ok vs := mapM_eq_self fun _ _ => rfl
  simp [coerceArgs, arity, hmap]

/-- Such a builtin does the same with the values of its arguments. -/
theorem run_eq_run_given {b : Builtin} {n : Nat} (h : b.takesValues? = some n) (ev : Recur)
    (c : Context) (args : List Value) (synthesized : Bool) :
    b.run Host.none ev c args synthesized =
      coerceArgs ev c b.name args n >>= fun vs => b.run Host.none .given c vs synthesized := by
  obtain ⟨rest, hrest⟩ := run_eq_bind h c synthesized
  rw [hrest]
  cases hvs : coerceArgs ev c b.name args n with
  | error s => rfl
  | ok vs =>
    obtain rfl := length_of_coerceArgs hvs
    rw [ok_bind, ok_bind, hrest, coerceArgs_given, ok_bind]

end Builtin

/-- The evaluator in place does what the evaluator does and leaves every context as it was. -/
def InPlace.Mirrors (live : InPlace) (ev : Recur) : Prop :=
  ∀ c task v, (live task v).Restores c (ev task c v)

namespace InPlace.Mirrors

open Procedure

variable {live : InPlace} {ev : Recur} {c : Context} (h : live.Mirrors ev)
include h

theorem coerce (v : Value) : (live.coerce v).Restores c (ev.coerce c v) :=
  (h c .evaluate v).bind fun w _ => h c .settle w

omit h in
theorem arith (op : Op) (a b : Value) : (InPlace.arith op a b).Restores c (Recur.arith c op a b) :=
  .context (.lift _)

theorem multiply (x arg : Value) : (live.multiply x arg).Restores c (ev.multiply c x arg) :=
  (h.coerce arg).bind fun y _ => arith .mul x y

theorem coerceArgs (name : String) (args : List Value) (n : Nat) :
    (live.coerceArgs name args n).Restores c (Builtin.coerceArgs ev c name args n) :=
  (Restores.lift _).bind fun _ _ => .mapM h.coerce args

theorem vectorArgs (name : String) (args : List Value) (n : Nat) :
    (live.vectorArgs name args n).Restores c (Builtin.vectorArgs ev c name args n) := by
  refine (h.coerceArgs name args n).bind fun vs hvs => .context ?_
  obtain rfl := Builtin.length_of_coerceArgs hvs
  rw [Builtin.vectorArgs, Builtin.coerceArgs_given, ok_bind]
  exact .lift _

theorem magOf (v : List Value) : (live.magOf v).Restores c (Builtin.magOf ev c v) :=
  .context ((Restores.lift _).bind fun d _ => h c .evaluate (Builtin.sqrtOf d))

theorem mapOf (f v : Value) : (live.mapOf f v).Restores c (Builtin.mapOf ev c f v) := by
  refine (h c .evaluate f).bind fun g _ => ?_
  cases g with
  | var | func | builtin =>
    refine (h.coerce v).bind fun w _ => ?_
    cases w with
    | vector elems => exact .pure _
    | _ => exact .refuse _
  | _ => exact .refuse _

theorem runBuiltin (b : Builtin) (args : List Value) (synthesized : Bool) :
    (live.runBuiltin b args synthesized).Restores c
      (b.run Host.none ev c args synthesized) := by
  have hvalues : ∀ n, b.takesValues? = some n →
      (do
        let vs ← live.coerceArgs b.name args n
        b.run Host.none .given (← Procedure.context) vs synthesized : Procedure Value).Restores c
          (b.run Host.none ev c args synthesized) := by
    intro n hn
    rw [Builtin.run_eq_run_given hn]
    exact (h.coerceArgs b.name args n).bind fun vs _ => .context (.lift _)
  cases b with
  | map => exact (Restores.lift _).bind fun _ _ => h.mapOf _ _
  | mag => exact (h.vectorArgs "mag" args 1).bind fun vs _ => h.magOf _
  | norm =>
    exact (h.vectorArgs "norm" args 1).bind fun vs _ => (h.magOf _).bind fun m _ => arith .div _ m
  | pi | e | phi | sqrt | host => exact .context (.lift _)
  | _ => exact hvalues _ rfl

theorem invoke (b : Builtin) (args : List Value) (synthesized : Bool) :
    (live.invoke b args synthesized).Restores c (ev.invoke Host.none c b args synthesized) := by
  refine (h.runBuiltin b args synthesized).bind fun r _ => ?_
  cases r with
  | missing => exact .refuse _
  | _ => exact (h c .evaluate _).bind fun w _ => .lift (InPlace.finite b w)

theorem callBuiltin (b : Builtin) (args : List Value) (synthesized : Bool) :
    (live.callBuiltin b args synthesized).Restores c
      (ev.callBuiltin Host.none c b args synthesized) := by
  unfold InPlace.callBuiltin Recur.callBuiltin
  split
  · exact h.invoke b args synthesized
  · match args with
    | [] => exact h.invoke b [] synthesized
    | [arg] => exact (h.invoke b [] synthesized).bind fun x _ => h.multiply x arg
    | _ :: _ :: _ => exact .refuse _

omit h in
theorem resolve (name : String) : (InPlace.resolve name).Restores c (Recur.resolve c name) :=
  .context (.lift _)

omit h in
/-- Inside a call an argument is what it was to the caller. -/
theorem argument (v : Value) (frame : List Binding) :
    (InPlace.argument v).Restores (c.calling frame) (Recur.argument c v) := by
  cases v with
  | var name =>
    refine .context ?_
    have habove : (c.calling frame).getAbove? name = c.get? name := rfl
    simp only [habove, Recur.argument, Recur.resolve]
    cases c.get? name with
    | none => exact .refuse _
    | some b => exact .lift _
  | _ => exact .pure _

omit h in
/-- The frame grows by one parameter after another, up to an argument that stands for nothing. -/
theorem bindParams (hroom : (c.frames.length : Int) < c.maxDepth) {params : List String}
    {vals : List Value} (hlen : vals.length = params.length) (frame : List Binding) :
    match vals.mapM (Recur.argument c) with
    | .ok bound => Leads c (InPlace.bindParams params vals) (c.calling frame) (.ok ())
        (c.calling ((List.zipWith Binding.mk params bound).reverse ++ frame))
    | .error s => ∃ frame', Leads c (InPlace.bindParams params vals) (c.calling frame) (.error s)
        (c.calling frame') := by
  induction vals generalizing params frame with
  | nil =>
    obtain rfl := List.eq_nil_of_length_eq_zero hlen.symm
    exact .stay fun _ => rfl
  | cons v vals ih =>
    obtain ⟨param, params, rfl⟩ := List.exists_cons_of_length_eq_add_one hlen.symm
    have hwithin := Context.within_calling hroom frame
    have harg := Leads.ofRestores hwithin (argument v frame)
    rw [List.mapM_cons]
    cases hv : Recur.argument c v with
    | error s =>
      rw [hv] at harg
      exact ⟨frame, harg.bind_error⟩
    | ok w =>
      rw [hv] at harg
      have hadd := Leads.addLocal hroom frame ⟨param, w⟩
      have hrest := ih (Nat.succ.inj hlen) (⟨param, w⟩ :: frame)
      cases hvals : vals.mapM (Recur.argument c) with
      | error s =>
        rw [hvals] at hrest
        obtain ⟨frame', hrest⟩ := hrest
        exact ⟨frame', harg.bind (hadd.bind hrest)⟩
      | ok bound =>
        rw [hvals] at hrest
        simp only [ok_bind, pure_eq_ok, List.zipWith_cons_cons, List.reverse_cons,
          List.append_assoc, List.singleton_append]
        exact harg.bind (hadd.bind hrest)

theorem evalBody (body : Value) :
    (live.evalBody body).Restores c (do
      match ← ev .evaluate c body with
      | .var name => Recur.resolve c name
      | r => .ok r) := by
  refine (h c .evaluate body).bind fun r _ => ?_
  cases r with
  | var name => exact resolve name
  | _ => exact .pure _

/-- A call opens one frame and drops it again, on every way out. -/
theorem callFunc (params : List String) (body : Value) (args : List Value) :
    (live.callFunc params body args).Restores c (ev.callFunc c params body args) := by
  unfold InPlace.callFunc Recur.callFunc
  split
  · exact .refuse _
  · next hlen =>
    refine (Restores.mapM (h c .evaluate) args).bind fun vals hvals => ?_
    have hlen : vals.length = params.length :=
      (length_of_mapM hvals).trans (Decidable.of_not_not hlen)
    cases hpush : c.push with
    | error cause => exact .noFrame hpush
    | ok pushed =>
      obtain ⟨hroom, rfl⟩ := Context.push_eq_ok_iff.mp hpush
      have hbind := bindParams hroom hlen []
      cases hbound : vals.mapM (Recur.argument c) with
      | error s =>
        rw [hbound] at hbind
        -- The frame is open already when an argument turns out to stand for nothing.
        obtain ⟨frame, hbind⟩ := hbind
        exact .inFrame hroom hbind.bind_error
      | ok bound =>
        rw [hbound] at hbind
        simp only [List.append_nil, ← Context.withLocals_calling] at hbind
        have hwithin := Context.within_calling hroom (List.zipWith Binding.mk params bound).reverse
        rw [← Context.withLocals_calling] at hwithin
        exact .inFrame hroom (hbind.bind (.ofRestores hwithin (h.evalBody body)))

omit h in
/-- What is done with a single argument. -/
theorem single {F : Value → Procedure Value} {G : Value → Result} (cause : Cause)
    (args : List Value) (hF : ∀ arg, (F arg).Restores c (G arg)) :
    (match args with
      | [arg] => F arg
      | _ => InPlace.refuse cause).Restores c (match args with
      | [arg] => G arg
      | _ => Recur.refuse cause) := by
  match args with
  | [] => exact .refuse _
  | [arg] => exact hF arg
  | _ :: _ :: _ => exact .refuse _

theorem apply (callee : Value) (args : List Value) (synthesized : Bool) :
    (live.apply callee args synthesized).Restores c
      (ev.apply Host.none c callee args synthesized) := by
  cases callee with
  | var name =>
    refine .context ?_
    simp only [Recur.apply]
    cases (if synthesized then c.global? name else c.get? name) with
    | none => exact .refuse _
    | some b =>
      obtain ⟨n, w⟩ := b
      cases w with
      | func params body => exact h.callFunc params body args
      | builtin b => exact h.callBuiltin b args synthesized
      | error e => exact .throw _
      | _ => exact single _ args fun arg => (h.coerce _).bind fun x _ => h.multiply x arg
  | func params body => exact h.callFunc params body args
  | builtin b => exact h.callBuiltin b args synthesized
  | number | vector => exact single _ args fun arg => h.multiply _ arg
  | _ => exact .refuse _

theorem evalName (name : String) :
    (live.evalName name).Restores c (ev.evalName c name) := by
  refine .context ?_
  unfold Recur.evalName
  cases c.get? name with
  | none => exact .refuse _
  | some b =>
    obtain ⟨n, w⟩ := b
    cases w with
    | func | builtin => exact .pure _
    | error e => exact .throw _
    | _ => exact h c .evaluate _

theorem evalStep (v : Value) : (live.evalStep v).Restores c (ev.evalStep Host.none c v) := by
  cases v with
  | number | func | builtin => exact .pure _
  | error e => exact .throw _
  | binary op l r => exact (h.coerce l).bind fun a _ => (h.coerce r).bind fun b _ => arith op a b
  | unary op x => exact (h.coerce x).bind fun a _ => .lift _
  | call callee args synthesized =>
    cases callee with
    | missing => exact .throw _
    | var name => exact h.apply (.var name) args synthesized
    | _ => exact (h c .evaluate _).bind fun callee _ => h.apply callee args synthesized
  | var name => exact h.evalName name
  | vector elems => exact (Restores.mapM h.coerce elems).bind fun vs _ => .pure _
  | missing | placeholder | endOfInput | unknown => exact .refuse _

theorem settleBuiltin (b : Builtin) :
    (if b.isFunction then pure (.builtin b)
      else do live .settle (← live.invoke b [] false) : Procedure Value).Restores c
    (if b.isFunction then .ok (.builtin b)
      else do ev .settle c (← ev.invoke Host.none c b [] false)) := by
  split
  · exact .pure _
  · exact (h.invoke b [] false).bind fun r _ => h c .settle r

theorem settleStep (v : Value) : (live.settleStep v).Restores c (ev.settleStep Host.none c v) := by
  cases v with
  | var name =>
    refine .context ?_
    simp only [Recur.settleStep]
    cases c.get? name with
    | none => exact .refuse _
    | some b =>
      obtain ⟨n, w⟩ := b
      cases w with
      | builtin b => exact h.settleBuiltin b
      | func => exact .pure _
      | _ => exact (h c .evaluate _).bind fun r _ => h c .settle r
  | builtin b => exact h.settleBuiltin b
  | _ => exact .pure _

end InPlace.Mirrors

theorem inPlace_mirrors (fuel : Nat) :
    (InPlace.evaluator fuel).Mirrors (evaluator Host.none fuel) := by
  induction fuel with
  | zero =>
    intro c task v
    exact .throw .outOfFuel
  | succ fuel ih =>
    intro c task v
    cases task with
    | evaluate => exact ih.evalStep v
    | settle => exact ih.settleStep v

theorem Procedure.Restores.store {α : Type} {x : Procedure α} {c : Context} {r : Except Stop α}
    (hx : x.Restores c r) (hc : c.Within c) :
    (x.runOn ⟨c, []⟩).1 = r ∧ (x.runOn ⟨c, []⟩).2.context = c ∧
      ∀ d ∈ (x.runOn ⟨c, []⟩).2.states, c.Within d := by
  obtain ⟨ms, hrun, hms⟩ := hx []
  rw [hrun]
  refine ⟨rfl, rfl, ?_⟩
  rw [Store.states, List.append_nil]
  exact List.forall_mem_cons.mpr ⟨hc, hms⟩

/-- Evaluation and coercion in place give what they give otherwise, be it a value or what stopped
them. They leave the context as it was. At every moment all but the frames is as it was, the frames
from before are below those of the calls, and there are not more of them than allowed. -/
theorem evaluation_restores_context (fuel : Nat) {c : Context}
    (hc : (c.frames.length : Int) ≤ c.maxDepth) (v : Value) :
    let evaluated := (InPlace.evaluator fuel .evaluate v).runOn ⟨c, []⟩
    let coerced := ((InPlace.evaluator fuel).coerce v).runOn ⟨c, []⟩
    (evaluated.1 = (Engine.ofFuel fuel).eval c v ∧ coerced.1 = (Engine.ofFuel fuel).coerce c v) ∧
      ∀ store ∈ [evaluated.2, coerced.2],
        store.context = c ∧ ∀ d ∈ store.states, c.Within d := by
  intro evaluated coerced
  have hself : c.Within c := Context.within_self hc
  have hmirrors := inPlace_mirrors fuel
  obtain ⟨heval, hevaluated⟩ := (hmirrors c .evaluate v).store hself
  obtain ⟨hcoerce, hcoerced⟩ := (hmirrors.coerce v).store hself
  refine ⟨⟨heval, hcoerce⟩, ?_⟩
  simpa using ⟨hevaluated, hcoerced⟩

/-- A call that is as deep as allowed: its frame is opened, gets the parameter, and goes. -/
theorem deepest_call_restores_context :
    let c := Context.fresh 1 64
    let call : Value :=
      .call (.func ["x"] (.binary .add (.var "x") (.int 1))) [.int 2] false
    let store := (((InPlace.evaluator 8).coerce call).runOn ⟨c, []⟩).2
    ((c.frames.length : Int) ≤ c.maxDepth ∧ store.context = c ∧ ∀ d ∈ store.states, c.Within d) ∧
      store.states.map (·.frames.length) = [0, 1, 1, 0] := by
  intro c call store
  have hc : (c.frames.length : Int) ≤ c.maxDepth := by decide
  refine ⟨⟨hc, (evaluation_restores_context 8 hc call).2 store (by simp [store])⟩, ?_⟩
  decide +kernel

end Reckon
