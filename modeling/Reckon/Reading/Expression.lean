import Reckon.Reading.Spine
import Reckon.Reading.Special

/-!
Reading expressions.

    Expr    = ['-'] Term { Op ['-'] Term }
    Op      = '+' | '-' | '*' | '×' | '/' | '÷' | '%' | '^' | nothing before a name, '(' or '<'
    Term    = Primary { Postfix } { '!' }
    Primary = number | '(' Expr ')' | '<' Expr ',' Expr { ',' Expr } '>' | Closure | special | name
    Closure = '|' [ name { ',' name } ] '|' Expr
    Postfix = '(' [ Expr { ',' Expr } ] ')' | '[' Expr ']'
-/

namespace Reckon

/-- The characters at which an expression ends, besides the end of the text. -/
structure Terminators where
  separator : Option Char := none
  close : Option Char := none
  deriving DecidableEq, Repr

def Terminators.stopAt (t : Terminators) (ch : Char) : Bool :=
  t.separator == some ch || t.close == some ch

namespace Cursor

def operator? : Char → Option Op
  | '+' => some .add
  | '-' => some .sub
  | '*' | '×' => some .mul
  | '/' | '÷' => some .div
  | '%' => some .mod
  | '^' => some .pow
  | _ => none

/-- Reads an operator. There is none where the expression ends; a product needs no sign. -/
def binaryOp (t : Terminators) (c : Cursor) : Except Failed (Option Op × Cursor) :=
  let c := c.fill
  match c.peek with
  | none => if c.depth > 0 then .error (c.failWith c.earlyEnd) else .ok (none, c)
  | some ch =>
    if t.stopAt ch then .ok (none, c)
    else match operator? ch with
      | some op => .ok (some op, c.advance)
      | none =>
        if ch = '(' ∨ ch = '<' ∨ Token.beginsName ch then .ok (some .mul, c)
        else .error (c.failWith c.badChar)

/-- Reads special syntax after its trigger has been seen. -/
def special (s : Special) (c : Cursor) : Except Failed (Value × Cursor) :=
  let after := c.advance
  match s.read after.rest with
  | .error f => .error ⟨Special.placed c.col f, c.used⟩
  | .ok (none, _) => .error (c.failWith (c.errorHere (.specialWithoutValue s.trigger)))
  | .ok (some v, n) => .ok (v, after.advanceBy n)

/-- Reads the parameters of a closure through the bar that ends them. -/
def params : Nat → List String → Cursor → Except Failed (List String × Cursor)
  | 0, _, c => .error ⟨.outOfFuel, c.used⟩
  | fuel + 1, names, c =>
    match c.name? with
    | none => .error (c.failWith c.badChar)
    | some (name, c) =>
      let names := names ++ [name]
      let c := c.fill
      if c.atEnd then .error (c.failWith c.earlyEnd)
      else match c.accept? '|' with
        | some c => .ok (names, c)
        | none => match c.accept? ',' with
          | none => .error (c.failWith c.badChar)
          | some c =>
            let c := c.fill
            if c.atEnd then .error (c.failWith c.badChar) else params fuel names c

def closureParams (fuel : Nat) (c : Cursor) : Except Failed (List String × Cursor) :=
  let c := c.fill
  if c.atEnd then .error (c.failWith c.earlyEnd)
  else match c.accept? '|' with
    | some c => .ok ([], c)
    | none => params fuel [] c

/-- Whether calls and subscripts may follow a value: not after a plain number. -/
def takesPostfix : Value → Bool
  | .number (.int _) | .number (.real _) => false
  | _ => true

def factorials (v : Value) (c : Cursor) : Value × Cursor :=
  let (n, c) := c.skipBangs
  (n.repeat (Value.unary .fact) v, c)

mutual

/-- Reads an expression whose right edge so far is `spine`, without the character that ends it. An
expression may be empty only if nothing of it has been read. -/
def exprFrom (r : Reading) (fuel : Nat) (t : Terminators) (spine : Spine) (c : Cursor) :
    Except Failed (Option Value × Cursor) :=
  match fuel with
  | 0 => .error ⟨.outOfFuel, c.used⟩
  | fuel + 1 =>
    let c := c.fill
    if c.atEnd then
      if c.depth > 0 ∨ spine ≠ [] then .error (c.failWith c.earlyEnd) else .ok (none, c)
    else match c.accept? '-' with
      | some c => exprFrom r fuel t spine.minus c
      | none => do
        match ← primary r fuel t c with
        | (none, c) => if spine = [] then .ok (none, c) else .error (c.failWith c.badChar)
        | (some v, c) =>
          match ← binaryOp t c with
          | (none, c) => .ok (some (spine.close v), c)
          | (some op, c) => exprFrom r fuel t (spine.insert op v) c

/-- Reads a value with its calls, subscripts and factorial signs; there is none where the
expression ends. Nothing can follow a closure. -/
def primary (r : Reading) (fuel : Nat) (t : Terminators) (c : Cursor) :
    Except Failed (Option Value × Cursor) :=
  match fuel with
  | 0 => .error ⟨.outOfFuel, c.used⟩
  | fuel + 1 =>
    if c.peek.any t.stopAt then .ok (none, c)
    else if c.peek = some '|' then do
      let (v, c) ← closure r fuel t c.advance.deeper
      .ok (some v, c)
    else do
      let (v, c) ← atom r fuel c
      let (v, c) ← if takesPostfix v then postfixes r fuel v c else .ok (v, c)
      let (v, c) := factorials v c
      .ok (some v, c)

def atom (r : Reading) (fuel : Nat) (c : Cursor) : Except Failed (Value × Cursor) :=
  match fuel with
  | 0 => .error ⟨.outOfFuel, c.used⟩
  | fuel + 1 =>
    match c.peek with
    | none => .error (c.failWith c.badChar)
    | some ch =>
      if ch.isDigit ∨ ch = '.' then do
        let (x, c) ← c.number
        .ok (.number x, c)
      else if ch = '(' then group r fuel ')' c.advance.deeper
      else if ch = '<' then do
        let (elems, after) ← list r fuel '>' true c.advance.deeper
        if elems.length < 2 then .error (after.failWith (c.errorHere .shortVector))
        else .ok (.vector elems, after)
      else match r.special? ch with
        | some s => c.special s
        | none => match c.name? with
          | some (name, c) => .ok (.var name, c)
          | none => .error (c.failWith c.badChar)

/-- Reads an expression and the bracket that closes it, after the opening one. -/
def group (r : Reading) (fuel : Nat) (close : Char) (c : Cursor) :
    Except Failed (Value × Cursor) :=
  match fuel with
  | 0 => .error ⟨.outOfFuel, c.used⟩
  | fuel + 1 => do
    match ← exprFrom r fuel ⟨none, some close⟩ [] c with
    | (none, c) => .error (c.failWith c.badChar)
    | (some v, c) =>
      match c.accept? close with
      | some c => .ok (v, c.shallower)
      | none => .error (c.failWith c.badChar)

/-- Reads expressions separated by commas and the bracket that closes them. There may be none at
all if they are the first, but a comma is followed by one. -/
def list (r : Reading) (fuel : Nat) (close : Char) (first : Bool) (c : Cursor) :
    Except Failed (List Value × Cursor) :=
  match fuel with
  | 0 => .error ⟨.outOfFuel, c.used⟩
  | fuel + 1 => do
    match ← exprFrom r fuel ⟨some ',', some close⟩ [] c with
    | (none, c) =>
      if c.peek = some close ∧ first then .ok ([], c.advance.shallower)
      else .error (c.failWith c.badChar)
    | (some v, c) =>
      if c.peek = some close then .ok ([v], c.advance.shallower)
      else
        let (vs, c) ← list r fuel close false c.advance
        .ok (v :: vs, c)

/-- Reads a closure after its first bar. Its body goes on to the end of the expression. -/
def closure (r : Reading) (fuel : Nat) (t : Terminators) (c : Cursor) :
    Except Failed (Value × Cursor) :=
  match fuel with
  | 0 => .error ⟨.outOfFuel, c.used⟩
  | fuel + 1 => do
    let (names, c) ← closureParams fuel c
    match ← exprFrom r fuel t [] c.shallower with
    | (none, c) => .error (c.failWith c.badChar)
    | (some body, c) => .ok (.func names body, c)

def postfixes (r : Reading) (fuel : Nat) (v : Value) (c : Cursor) :
    Except Failed (Value × Cursor) :=
  match fuel with
  | 0 => .error ⟨.outOfFuel, c.used⟩
  | fuel + 1 =>
    let c := c.skipBlanks
    if c.peek = some '(' then do
      let (args, c) ← list r fuel ')' true c.advance.deeper
      postfixes r fuel (.call v args false) c
    else if c.peek = some '[' then do
      let (index, c) ← group r fuel ']' c.advance.deeper
      postfixes r fuel (.subscript v index) c
    else .ok (v, c)

end

/-- Reads an expression up to the end of the text; there is none in blank text. -/
def expr (r : Reading) (c : Cursor) : Except Failed (Option Value × Cursor) :=
  exprFrom r (8 * (c.size + 1)) {} [] c

end Cursor

/-- Something read, with the number of further lines that it took. -/
structure Read (α : Type) where
  result : α
  used : Nat

def Reading.parse (r : Reading) (src : String) : Except Failed (Read Value) := do
  match ← (Cursor.atStart src.toList (r.lines.map String.toList)).expr r with
  | (none, c) => .error (c.failWith ⟨.noExpression, 0⟩)
  | (some v, c) => .ok ⟨v, c.used⟩

end Reckon
