import Reckon.Eval.Builtins

namespace Reckon

namespace Recur

/-- Runs a builtin and evaluates what it gives, which must be finite if it is a real. -/
def invoke (host : Host) (ev : Recur) (c : Context) (b : Builtin) (args : List Value)
    (synthesized : Bool) : Result := do
  match ← b.run host ev c args synthesized with
  | .missing => refuse (.noResult b.name)
  | r =>
    let r ← ev .evaluate c r
    match r with
    | .number x => if x.isFinite then .ok r else refuse (.notFinite b.name)
    | r => .ok r

/-- Calls a builtin. A constant with one argument is multiplied by it. -/
def callBuiltin (host : Host) (ev : Recur) (c : Context) (b : Builtin) (args : List Value)
    (synthesized : Bool) : Result :=
  if b.isFunction then ev.invoke host c b args synthesized
  else match args with
    | [] => ev.invoke host c b [] synthesized
    | [arg] => do ev.multiply c (← ev.invoke host c b [] synthesized) arg
    | _ => refuse (.builtinNotFunction b.name)

/-- What a value bound to a name gives: an error stops the evaluation. -/
def deliver : Value → Result
  | .error e => .error (.error e)
  | v => .ok v

def resolve (c : Context) (name : String) : Result :=
  match c.get? name with
  | none => refuse (.unbound name)
  | some b => deliver b.value

/-- The value that a parameter is bound to: for a reference, what it stands for in the context of
the caller. -/
def argument (c : Context) : Value → Result
  | .var name => resolve c name
  | v => .ok v

/-- Calls a function. Its arguments are evaluated in the context of the caller, its body in a frame
of its own. A reference that it gives is resolved before its frame goes. -/
def callFunc (ev : Recur) (c : Context) (params : List String) (body : Value)
    (args : List Value) : Result := do
  if args.length ≠ params.length then refuse (.arity params.length args.length)
  else
    let vals ← args.mapM (ev .evaluate c)
    match c.push with
    | .error cause => refuse cause
    | .ok pushed =>
      let bound ← vals.mapM (argument c)
      let inner := pushed.withLocals (List.zipWith Binding.mk params bound)
      match ← ev .evaluate inner body with
      | .var name => resolve inner name
      | r => .ok r

/-- Applies an evaluated callee to unevaluated arguments. A synthesized call always means the
global, even if a local hides its name. -/
def apply (host : Host) (ev : Recur) (c : Context) (callee : Value) (args : List Value)
    (synthesized : Bool) : Result :=
  match callee with
  | .var name =>
    match if synthesized then c.global? name else c.get? name with
    | none => refuse (.unbound name)
    | some ⟨_, .func params body⟩ => ev.callFunc c params body args
    | some ⟨_, .builtin b⟩ => ev.callBuiltin host c b args synthesized
    | some ⟨_, .error e⟩ => .error (.error e)
    | some b =>
      match args with
      | [arg] => do ev.multiply c (← ev.coerce c b.value) arg
      | _ => refuse (.notFunction name)
  | .func params body => ev.callFunc c params body args
  | .builtin b => ev.callBuiltin host c b args synthesized
  | .number _ | .vector _ =>
    match args with
    | [arg] => ev.multiply c callee arg
    | _ => refuse (.notCallable callee.inMessage)
  | _ => refuse (.notCallable callee.inMessage)

/-- Evaluates a name. Functions and builtins stay references. -/
def evalName (ev : Recur) (c : Context) (name : String) : Result :=
  match c.get? name with
  | none => refuse (.unbound name)
  | some ⟨_, .func _ _⟩ | some ⟨_, .builtin _⟩ => .ok (.var name)
  | some ⟨_, .error e⟩ => .error (.error e)
  | some b => ev .evaluate c b.value

def evalStep (host : Host) (ev : Recur) (c : Context) (v : Value) : Result :=
  match v with
  | .missing => refuse .missingValue
  | .number _ | .func _ _ | .builtin _ => .ok v
  | .error e => .error (.error e)
  | .binary op l r => do
    let a ← ev.coerce c l
    let b ← ev.coerce c r
    arith c op a b
  | .unary op x => do ofAnswer ((← ev.coerce c x).unaryOp op)
  | .call .missing _ _ => .error (.fault .missingOperand)
  | .call (.var name) args synthesized => ev.apply host c (.var name) args synthesized
  | .call callee args synthesized => do
    ev.apply host c (← ev .evaluate c callee) args synthesized
  | .var name => ev.evalName c name
  | .vector elems => do return .vector (← elems.mapM (ev.coerce c))
  | .placeholder _ _ => refuse (.unfilled v.inMessage)
  | .endOfInput => refuse .unevaluatedEnd
  | .unknown _ => refuse (.unknownKind v.kind)

/-- One step of settling an evaluated value: a reference to a function becomes the function, and
constants are computed. -/
def settleStep (host : Host) (ev : Recur) (c : Context) (v : Value) : Result :=
  match v with
  | .var name =>
    match c.get? name with
    | none => refuse (.unbound name)
    | some ⟨_, .builtin b⟩ =>
      if b.isFunction then .ok (.builtin b)
      else do ev .settle c (← ev.invoke host c b [] false)
    | some ⟨_, .func params body⟩ => .ok (.func params body)
    | some b => do ev .settle c (← ev .evaluate c b.value)
  | .builtin b =>
    if b.isFunction then .ok v else do ev .settle c (← ev.invoke host c b [] false)
  | v => .ok v

end Recur

/-- The evaluator with a bound on the depth of its steps. -/
def evaluator (host : Host) : Nat → Recur
  | 0, _, _, _ => .error .outOfFuel
  | fuel + 1, .evaluate, c, v => Recur.evalStep host (evaluator host fuel) c v
  | fuel + 1, .settle, c, v => Recur.settleStep host (evaluator host fuel) c v

/-- A calculator: its host and the depth to which it evaluates, beyond what any machine reaches. -/
structure Engine where
  host : Host := Host.none
  fuel : Nat := 0x4000000000000000

namespace Engine

def recur (e : Engine) : Recur := evaluator e.host e.fuel

/-- Evaluates a value. Names of functions and builtins stay references to them. -/
def eval (e : Engine) (c : Context) (v : Value) : Result := e.recur .evaluate c v

def coerce (e : Engine) (c : Context) (v : Value) : Result := e.recur.coerce c v

end Engine

end Reckon
