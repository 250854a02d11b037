import Reckon.Eval.Evaluator

namespace Reckon

/-- A context that is changed in place, and the states it was in before, the latest first. -/
structure Store where
  context : Context
  past : List Context := []

/-- Every state of the context, the latest first. -/
def Store.states (s : Store) : List Context := s.context :: s.past

/-- A computation on a store. What it changed stays changed when it stops. -/
abbrev Procedure := ExceptT Stop (StateM Store)

namespace Procedure

def runOn {α : Type} (x : Procedure α) (s : Store) : Except Stop α × Store := x.run.run s

def context : Procedure Context := return (← get).context

/-- Puts another context in the place of the present one. -/
def change (c : Context) : Procedure Unit := modify fun s => ⟨c, s.context :: s.past⟩

def push : Procedure Unit := do
  match (← context).push with
  | .ok c => change c
  | .error cause => throw (.ofCause cause)

def addLocal (b : Binding) : Procedure Unit := do
  match (← context).addLocal b with
  | .ok c => change c
  | .error f => throw (.fault f)

def pop : Procedure Unit := do
  match (← context).pop with
  | .ok c => change c
  | .error f => throw (.fault f)

/-- Computes in a frame of its own. Once the frame is open, it is dropped whatever happens. -/
def inFrame {α : Type} (x : Procedure α) : Procedure α := do
  push
  tryFinally x pop

end Procedure

/-- How many arguments a builtin has that computes from their values alone. -/
def Builtin.takesValues? : Builtin → Option Nat
  | .abs | .exp | .ln | .log | .trig _ => some 1
  | .atan2 | .dot | .cross | .elem => some 2
  | _ => none

/-- The evaluator of what is evaluated already. -/
def Recur.given : Recur := fun _ _ v => .ok v

/-- The evaluator in place, as its parts see it. -/
abbrev InPlace := Task → Value → Procedure Value

namespace InPlace

open Procedure

def refuse {α : Type} (c : Cause) : Procedure α := throw (.ofCause c)

def coerce (ev : InPlace) (v : Value) : Procedure Value := do
  ev .settle (← ev .evaluate v)

def arith (op : Op) (a b : Value) : Procedure Value := do
  Recur.arith (← context) op a b

def multiply (ev : InPlace) (x arg : Value) : Procedure Value := do
  arith .mul x (← ev.coerce arg)

def coerceArgs (ev : InPlace) (name : String) (args : List Value) (n : Nat) :
    Procedure (List Value) := do
  Builtin.arity name args n
  args.mapM ev.coerce

def vectorArgs (ev : InPlace) (name : String) (args : List Value) (n : Nat) :
    Procedure (List (List Value)) := do
  let vs ← ev.coerceArgs name args n
  Builtin.vectorArgs .given (← context) name vs n

def magOf (ev : InPlace) (v : List Value) : Procedure Value := do
  let d ← Builtin.dotOf (← context) v v
  ev .evaluate (Builtin.sqrtOf d)

def mapOf (ev : InPlace) (f v : Value) : Procedure Value := do
  let f ← ev .evaluate f
  match f with
  | .var _ | .func _ _ | .builtin _ =>
    match ← ev.coerce v with
    | .vector elems => return .vector (elems.map fun x => .call f [x] false)
    | v => refuse (.mapOfOther v.kind)
  | f => refuse (.mapOverOther f.kind)

/-- What a builtin gives. One that computes from values has its arguments coerced first; one that is
not mentioned here evaluates nothing. -/
def runBuiltin (ev : InPlace) (b : Builtin) (args : List Value) (synthesized : Bool) :
    Procedure Value := do
  match b with
  | .map =>
    Builtin.arity "map" args 2
    ev.mapOf (args.headD .missing) (args.tail.headD .missing)
  | .mag => ev.magOf ((← ev.vectorArgs "mag" args 1).headD [])
  | .norm =>
    let v := (← ev.vectorArgs "norm" args 1).headD []
    arith .div (.vector v) (← ev.magOf v)
  | b =>
    match b.takesValues? with
    | some n =>
      let vs ← ev.coerceArgs b.name args n
      b.run Host.none .given (← context) vs synthesized
    | none => b.run Host.none .given (← context) args synthesized

/-- What a builtin came to, if that is not a real that is not finite. -/
def finite (b : Builtin) (r : Value) : Result :=
  match r with
  | .number x => if x.isFinite then .ok r else Recur.refuse (.notFinite b.name)
  | r => .ok r

def invoke (ev : InPlace) (b : Builtin) (args : List Value) (synthesized : Bool) :
    Procedure Value := do
  match ← ev.runBuiltin b args synthesized with
  | .missing => refuse (.noResult b.name)
  | r => finite b (← ev .evaluate r)

def callBuiltin (ev : InPlace) (b : Builtin) (args : List Value) (synthesized : Bool) :
    Procedure Value :=
  if b.isFunction then ev.invoke b args synthesized
  else match args with
    | [] => ev.invoke b [] synthesized
    | [arg] => do ev.multiply (← ev.invoke b [] synthesized) arg
    | _ => refuse (.builtinNotFunction b.name)

/-- What a reference found in the innermost frame or among the globals stands for. -/
def resolve (name : String) : Procedure Value := do
  Recur.resolve (← context) name

/-- The value that a parameter is bound to. The frame of the call is open already, so a reference is
looked up in the frame above it. -/
def argument : Value → Procedure Value
  | .var name => do
    match (← context).getAbove? name with
    | none => refuse (.unbound name)
    | some b => Recur.deliver b.value
  | v => return v

/-- Binds parameters one after another. -/
def bindParams : List String → List Value → Procedure Unit
  | param :: params, v :: vs => do
    addLocal ⟨param, ← argument v⟩
    bindParams params vs
  | _, _ => return ()

/-- The value of a body. A reference is resolved while the parameters are still bound. -/
def evalBody (ev : InPlace) (body : Value) : Procedure Value := do
  match ← ev .evaluate body with
  | .var name => resolve name
  | r => return r

def callFunc (ev : InPlace) (params : List String) (body : Value) (args : List Value) :
    Procedure Value := do
  if args.length ≠ params.length then refuse (.arity params.length args.length)
  else
    let vals ← args.mapM (ev .evaluate)
    inFrame do
      bindParams params vals
      ev.evalBody body

def apply (ev : InPlace) (callee : Value) (args : List Value) (synthesized : Bool) :
    Procedure Value := do
  match callee with
  | .var name =>
    let c ← context
    match if synthesized then c.global? name else c.get? name with
    | none => refuse (.unbound name)
    | some ⟨_, .func params body⟩ => ev.callFunc params body args
    | some ⟨_, .builtin b⟩ => ev.callBuiltin b args synthesized
    | some ⟨_, .error e⟩ => throw (.error e)
    | some b =>
      match args with
      | [arg] => ev.multiply (← ev.coerce b.value) arg
      | _ => refuse (.notFunction name)
  | .func params body => ev.callFunc params body args
  | .builtin b => ev.callBuiltin b args synthesized
  | .number _ | .vector _ =>
    match args with
    | [arg] => ev.multiply callee arg
    | _ => refuse (.notCallable callee.inMessage)
  | _ => refuse (.notCallable callee.inMessage)

def evalName (ev : InPlace) (name : String) : Procedure Value := do
  match (← context).get? name with
  | none => refuse (.unbound name)
  | some ⟨_, .func _ _⟩ | some ⟨_, .builtin _⟩ => return .var name
  | some ⟨_, .error e⟩ => throw (.error e)
  | some b => ev .evaluate b.value

/-- One step of evaluation. -/
def evalStep (ev : InPlace) (v : Value) : Procedure Value := do
  match v with
  | .missing => refuse .missingValue
  | .number _ | .func _ _ | .builtin _ => return v
  | .error e => throw (.error e)
  | .binary op l r =>
    let a ← ev.coerce l
    let b ← ev.coerce r
    arith op a b
  | .unary op x => Recur.ofAnswer ((← ev.coerce x).unaryOp op)
  | .call .missing _ _ => throw (.fault .missingOperand)
  | .call (.var name) args synthesized => ev.apply (.var name) args synthesized
  | .call callee args synthesized => ev.apply (← ev .evaluate callee) args synthesized
  | .var name => ev.evalName name
  | .vector elems => return .vector (← elems.mapM ev.coerce)
  | .placeholder _ _ => refuse (.unfilled v.inMessage)
  | .endOfInput => refuse .unevaluatedEnd
  | .unknown _ => refuse (.unknownKind v.kind)

/-- One step of settling an evaluated value. -/
def settleStep (ev : InPlace) (v : Value) : Procedure Value := do
  match v with
  | .var name =>
    match (← context).get? name with
    | none => refuse (.unbound name)
    | some ⟨_, .builtin b⟩ =>
      if b.isFunction then return .builtin b else ev .settle (← ev.invoke b [] false)
    | some ⟨_, .func params body⟩ => return .func params body
    | some b => ev .settle (← ev .evaluate b.value)
  | .builtin b => if b.isFunction then return v else ev .settle (← ev.invoke b [] false)
  | v => return v

/-- The evaluator in place with a bound on the depth of its steps. -/
def evaluator : Nat → InPlace
  | 0, _, _ => throw .outOfFuel
  | fuel + 1, .evaluate, v => evalStep (evaluator fuel) v
  | fuel + 1, .settle, v => settleStep (evaluator fuel) v

end InPlace

end Reckon
