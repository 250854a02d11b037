import Reckon.Error
import Reckon.Fault

namespace Reckon

inductive Stop where
  | error (e : Error)
  /-- A plain message of special syntax. -/
  | message (text : String)
  | fault (f : Fault)
  /-- The bound on the number of steps was too small. -/
  | outOfFuel
  deriving DecidableEq, Repr

namespace Stop

/-- Stops for a cause that has no place in input text. -/
def ofCause (c : Cause) : Stop := .error ⟨c, 0⟩

end Stop

end Reckon
