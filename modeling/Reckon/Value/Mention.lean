import Reckon.Value.Basic

namespace Reckon.Value

mutual

/-- The variables mentioned in an expression, in order and with repetitions. The callee of a
synthesized call is not one of them. -/
def mentions : Value → List String
  | .var name => [name]
  | .binary _ l r => mentions l ++ mentions r
  | .unary _ x => mentions x
  | .call callee args synthesized =>
    if synthesized then mentionsAll args else mentions callee ++ mentionsAll args
  | .vector elems => mentionsAll elems
  | .func _ body => mentions body
  | _ => []

def mentionsAll : List Value → List String
  | [] => []
  | v :: vs => mentions v ++ mentionsAll vs

end

def insertName (name : String) : List String → List String
  | [] => [name]
  | n :: ns =>
    if name < n then name :: n :: ns
    else if name = n then n :: ns
    else n :: insertName name ns

def names (v : Value) : List String := (mentions v).foldr insertName []

end Reckon.Value
