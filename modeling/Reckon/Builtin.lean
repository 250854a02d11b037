namespace Reckon

inductive Ratio where
  | sine | cosine | tangent
  deriving DecidableEq, Repr

/-- One of the circular and hyperbolic functions: a ratio or its reciprocal, as itself or as its
inverse. -/
structure Trig where
  ratio : Ratio
  reciprocal : Bool
  inverse : Bool
  hyperbolic : Bool
  deriving DecidableEq, Repr

namespace Trig

def name (t : Trig) : String :=
  let base := match t.ratio, t.reciprocal with
    | .sine, false => "sin"
    | .cosine, false => "cos"
    | .tangent, false => "tan"
    | .sine, true => "csc"
    | .cosine, true => "sec"
    | .tangent, true => "cot"
  (if t.inverse then "a" else "") ++ base ++ (if t.hyperbolic then "h" else "")

/-- The function of the ratio itself, without its reciprocal. -/
def direct (t : Trig) : Float → Float :=
  match t.ratio, t.hyperbolic, t.inverse with
  | .sine, false, false => Float.sin
  | .cosine, false, false => Float.cos
  | .tangent, false, false => Float.tan
  | .sine, false, true => Float.asin
  | .cosine, false, true => Float.acos
  | .tangent, false, true => Float.atan
  | .sine, true, false => Float.sinh
  | .cosine, true, false => Float.cosh
  | .tangent, true, false => Float.tanh
  | .sine, true, true => Float.asinh
  | .cosine, true, true => Float.acosh
  | .tangent, true, true => Float.atanh

/-- A reciprocal is taken of the result, or of the argument of an inverse. -/
def apply (t : Trig) (x : Float) : Float :=
  if !t.reciprocal then t.direct x
  else if t.inverse then t.direct (1 / x)
  else 1 / t.direct x

/-- The six functions of one family, the ratios first. -/
def family (inverse hyperbolic : Bool) : List Trig :=
  [⟨.sine, false, inverse, hyperbolic⟩, ⟨.cosine, false, inverse, hyperbolic⟩,
    ⟨.tangent, false, inverse, hyperbolic⟩, ⟨.cosine, true, inverse, hyperbolic⟩,
    ⟨.sine, true, inverse, hyperbolic⟩, ⟨.tangent, true, inverse, hyperbolic⟩]

end Trig

/-- A builtin is one of the standard ones or is supplied by the program that embeds the
calculator, which then tells whether it is a function or a constant. -/
inductive Builtin where
  | pi | e | phi
  | sqrt | abs | exp | ln | log
  | trig (t : Trig)
  | atan2
  | dot | cross | map | elem | mag | norm
  | host (name : String) (isFunction : Bool)
  deriving DecidableEq, Repr

namespace Builtin

def name : Builtin → String
  | .pi => "pi"
  | .e => "e"
  | .phi => "phi"
  | .sqrt => "sqrt"
  | .abs => "abs"
  | .exp => "exp"
  | .ln => "ln"
  | .log => "log"
  | .trig t => t.name
  | .atan2 => "atan2"
  | .dot => "dot"
  | .cross => "cross"
  | .map => "map"
  | .elem => "elem"
  | .mag => "mag"
  | .norm => "norm"
  | .host name _ => name

/-- A constant is computed wherever a number is needed; a function only when it is called. -/
def isFunction : Builtin → Bool
  | .pi | .e | .phi => false
  | .host _ isFunction => isFunction
  | _ => true

/-- The builtins of a new context, in the order in which they are added. -/
def standard : List Builtin :=
  [.pi, .e, .phi, .sqrt, .abs, .exp, .ln, .log]
    ++ (Trig.family false false).map .trig ++ (Trig.family true false).map .trig ++ [.atan2]
    ++ (Trig.family false true).map .trig ++ (Trig.family true true).map .trig
    ++ [.dot, .cross, .map, .elem, .mag, .norm]

def ofName? (name : String) : Option Builtin := standard.find? (·.name == name)

end Builtin

end Reckon
