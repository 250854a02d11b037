import Reckon.Numbered

namespace Reckon

/-- `none` is the operator of an expression that never got one. -/
inductive Op where
  | none | add | sub | mul | div | mod | pow | fact
  deriving DecidableEq, Repr

namespace Op

def all : List Op := [.none, .add, .sub, .mul, .div, .mod, .pow, .fact]

def name : Op → String
  | .none => "None"
  | .add => "Add"
  | .sub => "Sub"
  | .mul => "Mul"
  | .div => "Div"
  | .mod => "Mod"
  | .pow => "Pow"
  | .fact => "Fact"

def ofName? (s : String) : Option Op := all.find? (·.name == s)

theorem ofName?_name (op : Op) : ofName? op.name = some op := by
  cases op <;> decide

/-- The operator with a number, counted from `none`. -/
def ofCode? (code : Int) : Option Op := if code < 0 then Option.none else all[code.toNat]?

def nameOfCode (code : Int) : String := Reckon.nameOfCode "Op" (all.map name) code

/-- What one does to two vectors with the operator, for messages. -/
def verb : Op → String
  | .add => "add"
  | .sub => "subtract"
  | .mul => "multiply"
  | .div => "divide"
  | .mod => "modulo"
  | .pow => "exponentiate"
  | op => op.name

def verbOfCode (code : Int) : String :=
  match ofCode? code with
  | some op => op.verb
  | Option.none => nameOfCode code

end Op

/-- How tightly an operator binds, and whether a chain of it groups to the right. -/
structure Strength where
  level : Nat
  right : Bool
  deriving DecidableEq, Repr

namespace Strength

/-- Negative if a node of strength `p` must stand above a following node of strength `q`:
`q` binds more tightly, or they bind alike and group to the right. -/
def compare (p q : Strength) : Int :=
  if p.level < q.level then -1
  else if q.level < p.level then 1
  else if p.right then -1
  else 0

/-- Whether a following node of strength `q` takes a node of strength `p` as its left operand. -/
def closes (p q : Strength) : Bool := 0 ≤ p.compare q

end Strength

def Op.strength : Op → Strength
  | .add | .sub => ⟨1, false⟩
  | .mul | .div | .mod => ⟨5, false⟩
  | .pow => ⟨15, true⟩
  | .fact => ⟨20, false⟩
  | .none => ⟨0, false⟩

end Reckon
