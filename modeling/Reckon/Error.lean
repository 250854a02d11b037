import Reckon.Operator
import Reckon.Kind

namespace Reckon

inductive Side where
  | left | right
  deriving DecidableEq, Repr

def Side.name : Side → String
  | .left => "left"
  | .right => "right"

/-- Why an input was refused. Texts inside a cause are renderings of values. -/
inductive Cause where
  | noExpression
  | blankStatement
  | divisionByZero
  | modulusByZero
  | complexPower
  | factorialTooLarge (n : Int64)
  | factorialOfNegative
  | factorialOfOther
  | sizesDiffer (op : Op)
  | crossSize
  | indexOutOfRange (index : Int64) (size : Nat)
  | notFinite (builtin : String)
  | outsideDomain (text builtin : String)
  | unexpected (c : Char)
  | earlyEnd
  | shortVector
  | specialWithoutValue (trigger : Char)
  | placeholderWithoutIndex
  | placeholderTooLarge
  | nothingToAssign
  | unevaluatedEnd
  | unknownKind (kind : Kind)
  | unbound (name : String)
  | ansAsFunction
  | deletingAns
  | operandType (side : Side) (op : Op) (kind : Kind)
  | modulusOfVectors
  | notFunction (name : String)
  | notCallable (text : String)
  | arity (expected given : Nat)
  | builtinNotFunction (builtin : String)
  | builtinArity (builtin : String) (expected given : Nat)
  | notNumbers (builtin : String)
  | notVectors (builtin : String) (kind : Kind)
  | mapOverOther (kind : Kind)
  | mapOfOther (kind : Kind)
  | notSubscriptable
  | indexType
  | rebindingBuiltin (name : String)
  | deletingBuiltin (name : String)
  | assigningBuiltin
  | tooDeep (limit : Int)
  | fractionOperand (kind : Kind) (op : Op)
  | missingValue
  | unfilled (text : String)
  | noResult (builtin : String)
  | host (kind : ErrorKind) (text : String)
  deriving DecidableEq, Repr

def pluralEnding (n : Nat) : String := if n = 1 then "" else "s"

namespace Cause

def kind : Cause → ErrorKind
  | .noExpression | .blankStatement => .ignore
  | .divisionByZero | .modulusByZero | .complexPower | .factorialTooLarge _
  | .factorialOfNegative | .sizesDiffer _ | .crossSize | .indexOutOfRange _ _ | .notFinite _
  | .outsideDomain _ _ => .math
  | .unexpected _ | .earlyEnd | .shortVector | .specialWithoutValue _ | .placeholderWithoutIndex
  | .placeholderTooLarge | .nothingToAssign | .unevaluatedEnd => .malformed
  | .unknownKind _ => .fatal
  | .unbound _ | .ansAsFunction | .deletingAns => .name
  | .factorialOfOther | .operandType _ _ _ | .modulusOfVectors | .notFunction _ | .notCallable _
  | .arity _ _ | .builtinNotFunction _ | .builtinArity _ _ _ | .notNumbers _ | .notVectors _ _
  | .mapOverOther _ | .mapOfOther _ | .notSubscriptable | .indexType | .rebindingBuiltin _
  | .deletingBuiltin _ | .assigningBuiltin => .type
  | .tooDeep _ => .runtime
  | .fractionOperand _ _ | .missingValue | .unfilled _ | .noResult _ => .internal
  | .host kind _ => kind

def maxFactorial : Int64 := 20

def message : Cause → String
  | .noExpression => "No expression."
  | .blankStatement => "Blank statement."
  | .divisionByZero => "Division by zero."
  | .modulusByZero => "Modulus by zero."
  | .complexPower => "Negative base to a fractional power has a complex result."
  | .factorialTooLarge n => s!"Factorial operand too large ({n} > {maxFactorial})."
  | .factorialOfNegative => "Factorial operand must not be negative."
  | .factorialOfOther => "Factorial operand must be an integer."
  | .sizesDiffer op => s!"Cannot {op.verb} vectors of different sizes."
  | .crossSize => "Vectors must each have a size of 3 for cross product."
  | .indexOutOfRange index size => s!"Vector index {index} out of range for size {size}."
  | .notFinite builtin => s!"Builtin function '{builtin}' returned an invalid value."
  | .outsideDomain text builtin => s!"{text} is outside the domain of {builtin}."
  | .unexpected c => s!"Unexpected character: '{c}'."
  | .earlyEnd | .unevaluatedEnd => "Premature end of input."
  | .shortVector => "Vector must have at least 2 components."
  | .specialWithoutValue trigger => s!"Special syntax {trigger} produced no value."
  | .placeholderWithoutIndex => "Placeholder needs an index."
  | .placeholderTooLarge => "Placeholder index out of range."
  | .nothingToAssign => "No variable to assign to."
  | .unknownKind kind => s!"Invalid value kind {kind.name}."
  | .unbound name => s!"No variable named '{name}' found."
  | .ansAsFunction => "Cannot redefine special variable 'ans' as a function."
  | .deletingAns => "Cannot delete special variable 'ans'."
  | .operandType side op kind =>
    s!"Bad {side.name} operand type for {op.name}: {kind.name}."
  | .modulusOfVectors => "Modulus is not supported for vectors."
  | .notFunction name => s!"Variable '{name}' is not a function."
  | .notCallable text => s!"'{text}' is not callable."
  | .arity expected given =>
    s!"Function expects {expected} argument{pluralEnding expected}, not {given}."
  | .builtinNotFunction builtin => s!"Builtin '{builtin}' is not a function."
  | .builtinArity builtin expected given =>
    s!"Builtin '{builtin}' expects {expected} argument{pluralEnding expected}, not {given}."
  | .notNumbers builtin =>
    s!"One or more arguments to builtin '{builtin}' couldn't be converted to numbers."
  | .notVectors builtin kind => s!"Builtin '{builtin}' expects vector arguments, not {kind.name}."
  | .mapOverOther kind => s!"Builtin 'map' expects a function, not {kind.name}."
  | .mapOfOther kind => s!"Builtin 'map' expects a vector, not {kind.name}."
  | .notSubscriptable => "Only vectors are subscriptable."
  | .indexType => "Vector index must be an integer."
  | .rebindingBuiltin name => s!"Unable to modify builtin variable '{name}'."
  | .deletingBuiltin name => s!"Cannot delete builtin variable '{name}'."
  | .assigningBuiltin => "Cannot assign a variable to a builtin."
  | .tooDeep limit => s!"Maximum call depth ({limit}) exceeded."
  | .fractionOperand kind op => s!"Non-numeric operand {kind.name} to fraction {op.name}."
  | .missingValue => "Evaluated a missing value."
  | .unfilled text => s!"Unfilled placeholder {text}."
  | .noResult builtin => s!"Builtin '{builtin}' returned no value."
  | .host _ text => text

end Cause

/-- An error with the column, counted from 1 in characters, of what caused it; the column is 0 when
the error did not come from input text. -/
structure Error where
  cause : Cause
  col : Int := 0
  deriving DecidableEq, Repr

namespace Error

def kind (e : Error) : ErrorKind := e.cause.kind

def message (e : Error) : String := e.cause.message

def text (e : Error) : String :=
  let line := s!"{e.kind.text} Error: {e.message}"
  if e.col > 0 then s!"{e.col}: {line}" else line

/-- Whether a session can go on after the error. -/
def recoverable (e : Error) : Bool := e.kind != .fatal

end Error

end Reckon
