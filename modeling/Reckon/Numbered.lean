namespace Reckon

/-- The name with number `code` in `names`, or `type(code)` when there is none. -/
def nameOfCode (type : String) (names : List String) (code : Int) : String :=
  if code < 0 then s!"{type}({code})"
  else match names[code.toNat]? with
    | some name => name
    | none => s!"{type}({code})"

end Reckon
