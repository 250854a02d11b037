import Reckon.Reading.Expression

namespace Reckon

inductive Statement where
  | expr (value : Value)
  /-- For an in-place operator the value is the whole operation. -/
  | assign (name : String) (value : Value)
  | define (name : String) (params : List String) (body : Value)
  | delete (name : String)
  /-- Deletes all variables but `ans` and the builtins. -/
  | clear

namespace Statement

def value? : Statement → Option Value
  | .expr v | .assign _ v | .define _ _ v => some v
  | .delete _ | .clear => none

def render : Statement → Except Fault String
  | .expr v => v.render .plain
  | .assign name v => do return name ++ " = " ++ (← v.render .plain)
  | .define name params v => do
    return name ++ "(" ++ ", ".intercalate params ++ ") = " ++ (← v.render .plain)
  | .delete name => return "~" ++ name
  | .clear => return "~~~"

/-- What stands before the `=` of a statement. -/
inductive Target where
  | assign (name : String)
  | inPlace (name : String) (op : Op)
  | define (name : String) (params : List String)
  deriving DecidableEq, Repr

def ofTarget (v : Value) : Target → Statement
  | .assign name => .assign name v
  | .inPlace name op => .assign name (.binary op (.var name) v)
  | .define name params => .define name params v

end Statement

namespace Cursor

/-- Accepts what was read if only blanks follow. -/
def ending {α : Type} (a : α) (c : Cursor) : Except Error α :=
  let c := c.skipBlanks
  if c.atEnd then .ok a else .error c.badChar

/-- Reads the parameters of a definition through the closing bracket, at least one. -/
def definedParams : Nat → List String → Cursor → Except Error (List String × Cursor)
  | 0, _, c => .error c.badChar
  | fuel + 1, names, c =>
    match c.skipBlanks.name? with
    | none => .error c.skipBlanks.badChar
    | some (name, c) =>
      let names := names ++ [name]
      let c := c.skipBlanks
      match c.accept? ')', c.accept? ',' with
      | some c, _ => .ok (names, c)
      | none, some c => definedParams fuel names c
      | none, none => .error c.badChar

def target (c : Cursor) : Except Error Statement.Target :=
  let c := c.skipBlanks
  match c.name? with
  | none => if c.atEnd then .error (c.errorHere .nothingToAssign) else .error c.badChar
  | some (name, c) =>
    let c := c.skipBlanks
    match c.peek with
    | none => .ok (.assign name)
    | some '(' =>
      let c := c.advance.skipBlanks
      match c.accept? ')' with
      | some c => c.ending (.define name [])
      | none => do
        let (params, c) ← definedParams (c.rest.length + 1) [] c
        c.ending (.define name params)
    | some ch =>
      match operator? ch with
      | some op => c.advance.ending (.inPlace name op)
      | none => .error c.badChar

def deletion (c : Cursor) : Except Error Statement :=
  match c.rest with
  | '~' :: '~' :: _ => (c.advanceBy 2).ending .clear
  | _ =>
    let c := c.skipBlanks
    match c.name? with
    | none => .error c.badChar
    | some (name, c) => c.ending (.delete name)

end Cursor

/-- The text before and after the first `=`, unless a comment starts before it. -/
def splitAssignment (src : List Char) : Option (List Char × List Char) :=
  let before := src.takeWhile (· != '=')
  match src.drop before.length with
  | _ :: after => if before.contains '#' then none else some (before, after)
  | [] => none

def Reading.statement (r : Reading) (src : String) : Except Failed (Read Statement) :=
  let alone (e : Except Error Statement) : Except Failed (Read Statement) :=
    match e with
    | .ok s => .ok ⟨s, 0⟩
    | .error e => .error ⟨.error e, 0⟩
  let c := (Cursor.atStart src.toList []).skipBlanks
  if c.atEnd then alone (.error ⟨.blankStatement, 0⟩)
  else match c.accept? '~' with
    | some c => alone c.deletion
    | none =>
      match splitAssignment src.toList with
      | none => do
        let v ← r.parse src
        .ok ⟨.expr v.result, v.used⟩
      | some (before, after) =>
        match (Cursor.atStart before []).target with
        | .error e => alone (.error e)
        | .ok target => do
          let start : Cursor :=
            { passed := '=' :: before.reverse, rest := after, lines := r.lines.map String.toList }
          match ← start.expr r with
          | (none, c) => .error (c.failWith c.earlyEnd)
          | (some v, c) => .ok ⟨.ofTarget v target, c.used⟩

end Reckon
