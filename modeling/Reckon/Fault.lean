import Reckon.Operator
import Reckon.Kind

namespace Reckon

/-- A fault is a broken promise of the caller, such as an operator that has no meaning where it
stands. It interrupts the whole evaluation or rendering. -/
inductive Fault where
  | zeroDivisor
  | missingOperand
  | noFrame
  | integerOperator (op : Op)
  | rationalOperator (op : Op)
  | realOperator (op : Op)
  | unaryOperator (op : Op)
  | unwritableOperator (op : Op)
  | unwritableKind (kind : Kind) (written : String)
  | incomparable (kind : Kind)
  | cloneDuringCall
  | localWithoutFrame
  | option (text : String)
  | trigger (quoted : String)
  | host (text : String)
  deriving DecidableEq, Repr

namespace Fault

def message : Fault → String
  | .zeroDivisor => "runtime error: integer divide by zero"
  | .missingOperand => "runtime error: invalid memory address or nil pointer dereference"
  | .noFrame => "runtime error: index out of range [-1]"
  | .integerOperator op => s!"supercalc: bad integer operator {op.name}"
  | .rationalOperator op => s!"supercalc: bad rational operator {op.name}"
  | .realOperator op => s!"supercalc: bad real operator {op.name}"
  | .unaryOperator op => s!"supercalc: bad unary operator {op.name}"
  | .unwritableOperator op => s!"supercalc: invalid operator {op.name}"
  | .unwritableKind kind written =>
    s!"supercalc: invalid value kind {kind.name} after writing {written}"
  | .incomparable kind => s!"supercalc: Fraction.Cmp with {kind.name}"
  | .cloneDuringCall => "supercalc: Clone during call"
  | .localWithoutFrame => "supercalc: addLocal with no frame"
  | .option text => s!"supercalc: applying context option: {text}"
  | .trigger quoted => s!"supercalc: cannot use {quoted} for special syntax"
  | .host text => text

end Fault

end Reckon
