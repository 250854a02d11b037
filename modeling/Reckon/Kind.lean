import Reckon.Numbered

namespace Reckon

/-- What sort of expression or result a value is. `unknown` covers the numbers without a name. -/
inductive Kind where
  | none | int | real | frac | binary | unary | call | var | vector | func | builtin
  | placeholder | error | endOfInput
  | unknown (code : Int)
  deriving DecidableEq, Repr

namespace Kind

def names : List String :=
  ["None", "Int", "Real", "Frac", "Binary", "Unary", "Call", "Var", "Vector", "Func", "Builtin",
    "Placeholder", "Error", "End"]

def nameOfCode (code : Int) : String := Reckon.nameOfCode "Kind" names code

def code : Kind → Int
  | .none => 0
  | .int => 1
  | .real => 2
  | .frac => 3
  | .binary => 4
  | .unary => 5
  | .call => 6
  | .var => 7
  | .vector => 8
  | .func => 9
  | .builtin => 10
  | .placeholder => 11
  | .error => 12
  | .endOfInput => 13
  | .unknown c => c

def name (k : Kind) : String := nameOfCode k.code

end Kind

inductive BindingKind where
  | value | func | builtin | error
  deriving DecidableEq, Repr

namespace BindingKind

def names : List String := ["Value", "Func", "Builtin", "Error"]

def nameOfCode (code : Int) : String := Reckon.nameOfCode "VarKind" names code

def name : BindingKind → String
  | .value => "Value"
  | .func => "Func"
  | .builtin => "Builtin"
  | .error => "Error"

end BindingKind

/-- Classes of errors. Only a `fatal` error ends a session; an `ignore` is never reported. -/
inductive ErrorKind where
  | ignore | math | malformed | fatal | name | type | runtime | internal
  | unknown (code : Int)
  deriving DecidableEq, Repr

namespace ErrorKind

def names : List String :=
  ["Ignore", "Math", "Syntax", "Fatal", "Name", "Type", "Runtime", "Internal"]

def nameOfCode (code : Int) : String := Reckon.nameOfCode "ErrorKind" names code

def code : ErrorKind → Int
  | .ignore => 0
  | .math => 1
  | .malformed => 2
  | .fatal => 3
  | .name => 4
  | .type => 5
  | .runtime => 6
  | .internal => 7
  | .unknown c => c

def ofCode : Int → ErrorKind
  | 0 => .ignore
  | 1 => .math
  | 2 => .malformed
  | 3 => .fatal
  | 4 => .name
  | 5 => .type
  | 6 => .runtime
  | 7 => .internal
  | c => .unknown c

/-- Every number is that of one class. -/
@[simp] theorem code_ofCode (c : Int) : (ofCode c).code = c := by
  unfold ofCode
  split <;> rfl

def text (k : ErrorKind) : String := nameOfCode k.code

end ErrorKind

end Reckon
