import Reckon.Stop
import Reckon.Text.Blank

namespace Reckon

/-- Why text could not be read, with the number of further lines that were used up to there. -/
structure Failed where
  stop : Stop
  used : Nat
  deriving DecidableEq, Repr

/-- A place in the text: what was passed, last character first, and what is left. -/
structure Cursor where
  passed : List Char
  rest : List Char
  /-- The number of brackets open here. -/
  depth : Nat := 0
  /-- The lines that may follow when the text ends inside brackets. -/
  lines : List (List Char) := []
  /-- The number of lines that did follow. -/
  used : Nat := 0
  deriving DecidableEq, Repr

namespace Cursor

def atStart (src : List Char) (lines : List (List Char)) : Cursor :=
  { passed := [], rest := src, lines }

/-- The characters of lines, each with the break before it. -/
def linesSize : List (List Char) → Nat
  | [] => 0
  | line :: lines => line.length + 1 + linesSize lines

/-- The characters that can still be read, each line with the break before it. -/
def size (c : Cursor) : Nat := c.rest.length + linesSize c.lines

def atEnd (c : Cursor) : Bool := c.rest.isEmpty

def peek (c : Cursor) : Option Char := c.rest.head?

/-- The column of the next character, counted from 1. -/
def col (c : Cursor) : Nat := c.passed.length + 1

/-- The offset of the next character in bytes of UTF-8. -/
def bytes (c : Cursor) : Nat := c.passed.foldr (fun ch n => ch.utf8Size + n) 0

def advance (c : Cursor) : Cursor :=
  match c.rest with
  | [] => c
  | ch :: rest => { c with passed := ch :: c.passed, rest }

def advanceBy (n : Nat) (c : Cursor) : Cursor :=
  { c with passed := (c.rest.take n).reverse ++ c.passed, rest := c.rest.drop n }

def accept? (ch : Char) (c : Cursor) : Option Cursor :=
  if c.peek = some ch then some c.advance else none

def deeper (c : Cursor) : Cursor := { c with depth := c.depth + 1 }

def shallower (c : Cursor) : Cursor := { c with depth := c.depth - 1 }

/-- Passes blanks and comments; a comment runs from `#` through the end of its line. The flag tells
that a comment is open. -/
def skipFrom (comment : Bool) (passed : List Char) : List Char → List Char × List Char
  | [] => (passed, [])
  | ch :: rest =>
    if comment then skipFrom (ch != '\n') (ch :: passed) rest
    else if ch = '#' then skipFrom true (ch :: passed) rest
    else if Text.isBlank ch then skipFrom false (ch :: passed) rest
    else (passed, ch :: rest)

def skipBlanks (c : Cursor) : Cursor :=
  let (passed, rest) := skipFrom false c.passed c.rest
  { c with passed, rest }

/-- Passes blanks, and brings in further lines while the text has ended inside brackets. -/
def fillFrom (c : Cursor) : List (List Char) → Cursor
  | [] => { c.skipBlanks with lines := [] }
  | line :: lines =>
    let c := c.skipBlanks
    if c.atEnd ∧ c.depth ≠ 0 then
      fillFrom { c with rest := '\n' :: line, used := c.used + 1 } lines
    else { c with lines := line :: lines }

def fill (c : Cursor) : Cursor := fillFrom c c.lines

/-- Passes blanks, comments and factorial signs, and counts the signs. -/
def skipBangsFrom (comment : Bool) (count : Nat) (passed : List Char) :
    List Char → Nat × List Char × List Char
  | [] => (count, passed, [])
  | ch :: rest =>
    if comment then skipBangsFrom (ch != '\n') count (ch :: passed) rest
    else if ch = '#' then skipBangsFrom true count (ch :: passed) rest
    else if Text.isBlank ch then skipBangsFrom false count (ch :: passed) rest
    else if ch = '!' then skipBangsFrom false (count + 1) (ch :: passed) rest
    else (count, passed, ch :: rest)

def skipBangs (c : Cursor) : Nat × Cursor :=
  let (count, passed, rest) := skipBangsFrom false 0 c.passed c.rest
  (count, { c with passed, rest })

/-- The text around a place. Nothing that passes characters changes it. -/
def text (c : Cursor) : List Char := c.passed.reverse ++ c.rest

@[simp] theorem text_advance (c : Cursor) : c.advance.text = c.text := by
  unfold advance text
  split <;> simp_all

@[simp] theorem text_advanceBy (n : Nat) (c : Cursor) : (c.advanceBy n).text = c.text := by
  simp only [advanceBy, text, List.reverse_append, List.reverse_reverse, List.append_assoc,
    List.take_append_drop]

theorem text_skipFrom (comment : Bool) (passed rest : List Char) :
    (skipFrom comment passed rest).1.reverse ++ (skipFrom comment passed rest).2 =
      passed.reverse ++ rest := by
  induction rest generalizing comment passed with
  | nil => rfl
  | cons ch rest ih =>
    unfold skipFrom
    split
    · simp [ih]
    · split
      · simp [ih]
      · split
        · simp [ih]
        · rfl

@[simp] theorem text_skipBlanks (c : Cursor) : c.skipBlanks.text = c.text :=
  text_skipFrom false c.passed c.rest

def errorHere (cause : Cause) (c : Cursor) : Error := ⟨cause, c.col⟩

def failWith (e : Error) (c : Cursor) : Failed := ⟨.error e, c.used⟩

def earlyEnd (c : Cursor) : Error := c.errorHere .earlyEnd

/-- The error of a next character, or end, that cannot stand here. -/
def badChar (c : Cursor) : Error :=
  match c.peek with
  | some ch => c.errorHere (.unexpected ch)
  | none => c.earlyEnd

end Cursor

end Reckon
