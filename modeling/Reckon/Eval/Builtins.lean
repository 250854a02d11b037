import Reckon.Context
import Reckon.Eval.Arith
import Reckon.Value.Render

namespace Reckon

abbrev Result := Except Stop Value

/-- What the evaluator does with a value: evaluate it, or settle an evaluated one until it is
neither a reference nor a constant. -/
inductive Task where
  | evaluate | settle
  deriving DecidableEq, Repr

/-- The evaluator as its parts see it. -/
abbrev Recur := Task → Context → Value → Result

/-- The builtins of the program that embeds the calculator, by name. A builtin gets the evaluator,
the context, its unevaluated arguments and whether the call was synthesized; it may give an
unevaluated expression, or a missing value for none. -/
abbrev Host := String → Recur → Context → List Value → Bool → Result

def Host.none : Host := fun _ _ _ _ _ => .ok .missing

namespace Recur

def refuse {α : Type} (c : Cause) : Except Stop α := .error (.ofCause c)

def ofAnswer : ValueAnswer → Result
  | .ok (.ok v) => .ok v
  | .ok (.error c) => refuse c
  | .error f => .error (.fault f)

def coerce (ev : Recur) (c : Context) (v : Value) : Result := do
  ev .settle c (← ev .evaluate c v)

def arith (c : Context) (op : Op) (a b : Value) : Result := ofAnswer (a.arith c.precision op b)

def multiply (ev : Recur) (c : Context) (x arg : Value) : Result := do
  arith c .mul x (← ev.coerce c arg)

end Recur

namespace Builtin

open Recur

def arity (name : String) (args : List Value) (n : Nat) : Except Stop Unit :=
  if args.length = n then .ok () else refuse (.builtinArity name n args.length)

def coerceArgs (ev : Recur) (c : Context) (name : String) (args : List Value) (n : Nat) :
    Except Stop (List Value) := do
  arity name args n
  args.mapM (ev.coerce c)

def realArgs (ev : Recur) (c : Context) (name : String) (args : List Value) (n : Nat) :
    Except Stop (List Float) := do
  let vs ← coerceArgs ev c name args n
  match vs.mapM Value.toFloat? with
  | some xs => .ok xs
  | none => refuse (.notNumbers name)

def vectorArgs (ev : Recur) (c : Context) (name : String) (args : List Value) (n : Nat) :
    Except Stop (List (List Value)) := do
  let vs ← coerceArgs ev c name args n
  vs.mapM fun v => match v with
    | .vector elems => .ok elems
    | v => refuse (.notVectors name v.kind)

def niladic (c : Context) (f : Nat → Binary) : Result :=
  .ok (.real (Double.ofBinary (f c.precision)))

/-- A function of one number at the precision of the context: the argument is rounded to that many
bits, and so is the result. The function gives nothing outside its domain. -/
def monadic (ev : Recur) (c : Context) (name : String) (args : List Value)
    (f : Nat → Binary → Except Stop (Option Binary)) : Result := do
  match ← realArgs ev c name args 1 with
  | [x] =>
    let outside : Result := refuse (.outsideDomain (formatReal x) name)
    let p := Precise.bits c.precision
    match Double.toBinary? x with
    | none => outside
    | some b =>
      match ← f p (b.roundTo p) with
      | some r => .ok (.real (Double.ofBinary (r.roundTo p)))
      | none => outside
  | _ => refuse (.notNumbers name)

def onPositive (f : Nat → Binary → Binary) (p : Nat) (x : Binary) : Except Stop (Option Binary) :=
  .ok (if 0 < x.mantissa then some (f p x) else none)

def real1 (ev : Recur) (c : Context) (name : String) (args : List Value) (f : Float → Float) :
    Result := do
  match ← realArgs ev c name args 1 with
  | [x] => .ok (.real (f x))
  | _ => refuse (.notNumbers name)

def real2 (ev : Recur) (c : Context) (name : String) (args : List Value)
    (f : Float → Float → Float) : Result := do
  match ← realArgs ev c name args 2 with
  | [x, y] => .ok (.real (f x y))
  | _ => refuse (.notNumbers name)

def half : Value := .frac 1 2

/-- The square root as a power, so that squares have exact roots. -/
def sqrtOf (x : Value) : Value := .binary .pow x half

def absOf : Value → Result
  | .number (.int n) => .ok (.int (if n < 0 then -n else n))
  | .number (.real x) => .ok (.real x.abs)
  | .number (.frac f) => .ok (.frac (if f.num < 0 then -f.num else f.num) f.den)
  | _ => refuse (.notNumbers "abs")

def dotFrom (c : Context) (sum : Value) : List Value → List Value → Result
  | a :: as, b :: bs => do
    let p ← arith c .mul a b
    dotFrom c (← arith c .add sum p) as bs
  | _, _ => .ok sum

def dotOf (c : Context) (as bs : List Value) : Result :=
  if as.length = bs.length then dotFrom c (.int 0) as bs else refuse (.sizesDiffer .mul)

/-- The cross product of two vectors, to be evaluated. -/
def crossOf : List Value → List Value → Result
  | [a0, a1, a2], [b0, b1, b2] =>
    let term (p q r s : Value) : Value := .binary .sub (.binary .mul p q) (.binary .mul r s)
    .ok (.vector [term a1 b2 a2 b1, term a2 b0 a0 b2, term a0 b1 a1 b0])
  | _, _ => refuse .crossSize

def magOf (ev : Recur) (c : Context) (v : List Value) : Result := do
  ev .evaluate c (sqrtOf (← dotOf c v v))

/-- A vector of calls of a function on each element, to be evaluated. -/
def mapOf (ev : Recur) (c : Context) (f v : Value) : Result := do
  let f ← ev .evaluate c f
  match f with
  | .var _ | .func _ _ | .builtin _ =>
    match ← ev.coerce c v with
    | .vector elems => .ok (.vector (elems.map fun x => .call f [x] false))
    | v => refuse (.mapOfOther v.kind)
  | f => refuse (.mapOverOther f.kind)

def elemOf : Value → Value → Result
  | .vector elems, .number (.int i) =>
    if i < 0 then refuse (.indexOutOfRange i elems.length)
    else match elems[i.toInt.toNat]? with
      | some v => .ok v
      | none => refuse (.indexOutOfRange i elems.length)
  | .vector _, _ => refuse .indexType
  | _, _ => refuse .notSubscriptable

/-- What a builtin gives for unevaluated arguments, itself to be evaluated. -/
def run (host : Host) (ev : Recur) (c : Context) (args : List Value) (synthesized : Bool) :
    Builtin → Result
  | .pi => niladic c c.precision.functions.pi
  | .e => niladic c c.precision.functions.e
  | .phi => niladic c Precise.phi
  | .sqrt => do
    arity "sqrt" args 1
    .ok (sqrtOf (args.headD .missing))
  | .abs => do
    absOf ((← coerceArgs ev c "abs" args 1).headD .missing)
  | .exp => monadic ev c "exp" args fun p x => .ok (some (c.precision.functions.exp p p x))
  | .ln => monadic ev c "ln" args (onPositive c.precision.functions.ln)
  | .log => monadic ev c "log" args (onPositive c.precision.functions.log)
  | .trig t => real1 ev c t.name args t.apply
  | .atan2 => real2 ev c "atan2" args Float.atan2
  | .dot => do
    let vs ← vectorArgs ev c "dot" args 2
    dotOf c (vs.headD []) (vs.tail.headD [])
  | .cross => do
    let vs ← vectorArgs ev c "cross" args 2
    crossOf (vs.headD []) (vs.tail.headD [])
  | .map => do
    arity "map" args 2
    mapOf ev c (args.headD .missing) (args.tail.headD .missing)
  | .elem => do
    let vs ← coerceArgs ev c "elem" args 2
    elemOf (vs.headD .missing) (vs.tail.headD .missing)
  | .mag => do
    magOf ev c ((← vectorArgs ev c "mag" args 1).headD [])
  | .norm => do
    let v := (← vectorArgs ev c "norm" args 1).headD []
    arith c .div (.vector v) (← magOf ev c v)
  | .host name _ => host name ev c args synthesized

end Builtin

end Reckon
