import Reckon.Real.Literal
import Reckon.Reading.Cursor
import Reckon.Value.Render

namespace Reckon

namespace Token

def startsName (ch : Char) : Bool := ch = '_' || ch.isAlpha

def continuesName (ch : Char) : Bool := startsName ch || ch.isDigit

def glyphName? (ch : Char) : Option String := (glyphs.find? (·.1 == ch)).map (·.2)

def beginsName (ch : Char) : Bool := startsName ch || (glyphName? ch).isSome

/-- The name at the head of a text and the number of its characters. -/
def name? : List Char → Option (String × Nat)
  | [] => none
  | ch :: rest =>
    match glyphName? ch with
    | some name => some (name, 1)
    | none =>
      if startsName ch then
        let word := ch :: rest.takeWhile continuesName
        some (String.ofList word, word.length)
      else none

/-- An exponent at the head of a text, as its value and the number of its characters: a letter, at
most one sign and digits. -/
def exponent? : List Char → Option (Int × Nat)
  | e :: rest =>
    if e = 'e' ∨ e = 'E' then
      let (negative, signs, rest) := match rest with
        | '+' :: rest => (false, 1, rest)
        | '-' :: rest => (true, 1, rest)
        | _ => (false, 0, rest)
      let ds := rest.takeWhile Char.isDigit
      if ds.isEmpty then none
      else
        let n : Int := Decimal.exponentValue ds
        some (if negative then -n else n, 1 + signs + ds.length)
    else none
  | [] => none

/-- The decimal number at the head of a text and the number of its characters. It has digits before
or after its point, and may have an exponent. -/
def literal? (s : List Char) : Option (Decimal.Literal × Nat) :=
  let whole := s.takeWhile Char.isDigit
  let afterWhole := s.drop whole.length
  let (fraction, n) := match afterWhole with
    | '.' :: rest =>
      let fraction := rest.takeWhile Char.isDigit
      (fraction, whole.length + 1 + fraction.length)
    | _ => ([], whole.length)
  if whole.isEmpty && fraction.isEmpty then none
  else match exponent? (s.drop n) with
    | some (e, k) => some (⟨whole, fraction, e⟩, n + k)
    | none => some (⟨whole, fraction, 0⟩, n)

def wordBound : Nat := 0x8000000000000000

/-- The integer at the head of a text, if it is a word, and the number of its digits. -/
def integer? (s : List Char) : Option (Int64 × Nat) :=
  let ds := s.takeWhile Char.isDigit
  let n := Decimal.value ds
  if ds.isEmpty ∨ wordBound ≤ n then none else some (Int64.ofNat n, ds.length)

def real? (s : List Char) : Option (Float × Nat) :=
  (literal? s).bind fun (l, n) => l.toFloat?.map (·, n)

/-- The number at the head of a text: of an integer and a real the longer, and the integer if they
are equally long. -/
def number? (s : List Char) : Option (Number × Nat) :=
  match integer? s, real? s with
  | some (i, n), some (x, m) => if n < m then some (.real x, m) else some (.int i, n)
  | none, some (x, m) => some (.real x, m)
  | some (i, n), none => some (.int i, n)
  | none, none => none

end Token

namespace Cursor

def name? (c : Cursor) : Option (String × Cursor) :=
  (Token.name? c.rest).map fun (name, n) => (name, c.advanceBy n)

def beginsName (c : Cursor) : Bool := c.peek.any Token.beginsName

def number (c : Cursor) : Except Failed (Number × Cursor) :=
  match Token.number? c.rest with
  | some (x, n) => .ok (x, c.advanceBy n)
  | none => .error (c.failWith c.badChar)

end Cursor

end Reckon
