import Reckon.Builtin
import Reckon.Number.Basic

namespace Reckon

/-- An expression or a result. Evaluation carries errors as values. -/
inductive Value where
  | missing
  | number (x : Number)
  | binary (op : Op) (left right : Value)
  | unary (op : Op) (operand : Value)
  /-- A call; one that the reader made for a subscript is synthesized. -/
  | call (callee : Value) (args : List Value) (synthesized : Bool)
  | var (name : String)
  | vector (elems : List Value)
  /-- A function literal. Of equal parameters the last counts. -/
  | func (params : List String) (body : Value)
  | builtin (b : Builtin)
  /-- A place where a caller puts a value in before evaluation. -/
  | placeholder (slot : Option Char) (index : Int64)
  | error (e : Error)
  | endOfInput
  /-- A value of no sort that the evaluator handles. -/
  | unknown (code : Int)

namespace Value

def int (n : Int64) : Value := .number (.int n)

def real (x : Float) : Value := .number (.real x)

def frac (n d : Int64) : Value := .number (.frac ⟨n, d⟩)

def kind : Value → Kind
  | .missing => .none
  | .number x => x.kind
  | .binary _ _ _ => .binary
  | .unary _ _ => .unary
  | .call _ _ _ => .call
  | .var _ => .var
  | .vector _ => .vector
  | .func _ _ => .func
  | .builtin _ => .builtin
  | .placeholder _ _ => .placeholder
  | .error _ => .error
  | .endOfInput => .endOfInput
  | .unknown code => if code = 0 then .none else .unknown code

def ofCause (c : Cause) : Value := .error ⟨c, 0⟩

def ofResult : Except Cause Number → Value
  | .ok x => .number x
  | .error c => .ofCause c

def error? : Value → Option Error
  | .error e => some e
  | _ => none

def number? : Value → Option Number
  | .number x => some x
  | _ => none

def toFloat? (v : Value) : Option Float := v.number?.map Number.toFloat

/-- The subscript `base[index]`: a synthesized call of the builtin that takes an element. -/
def subscript (base index : Value) : Value := .call (.var "elem") [base, index] true

end Value

end Reckon
