import Reckon.Value.Basic

namespace Reckon

/-- The operators on the right edge of an expression, outermost first, each with its left operand.
The right operand of each is what follows it; that of the last has not been read. -/
abbrev Spine := List (Op × Value)

namespace Spine

/-- The whole expression, when `v` is the last operand. -/
def close : Spine → Value → Value
  | [], v => v
  | (op, left) :: spine, v => .binary op left (close spine v)

/-- Adds an operator after the operand `v`. It passes the operators that bind less tightly and
takes all that follows as its left operand. -/
def insert (op : Op) (v : Value) : Spine → Spine
  | [] => [(op, v)]
  | (o, left) :: spine =>
    if o.strength.closes op.strength then [(op, close ((o, left) :: spine) v)]
    else (o, left) :: insert op v spine

/-- Adds a minus sign, which multiplies what follows by -1. -/
def minus (spine : Spine) : Spine := spine ++ [(.mul, .int (-1))]

/-- A spine that goes on below another fills the open place of that one. -/
theorem close_append (s t : Spine) (v : Value) : close (s ++ t) v = close s (close t v) := by
  induction s with
  | nil => rfl
  | cons p s ih => simp [close, ih]

/-- A minus sign stands at the end of the edge, whatever is above it. -/
theorem close_minus (s : Spine) (v : Value) :
    close s.minus v = close s (.binary .mul (.int (-1)) v) := close_append s _ v

end Spine

end Reckon
