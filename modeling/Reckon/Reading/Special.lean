import Reckon.Reading.Token
import Reckon.Text.Letter
import Reckon.Text.Digit
import Reckon.Text.Quoted

namespace Reckon

/-- The reader of special syntax gets the text after the trigger. It gives a value, if there is
one, and the number of characters it used. -/
structure Special where
  trigger : Char
  read : List Char → Except Stop (Option Value × Nat)

namespace Special

/-- The characters that already have a meaning, apart from letters, digits and blanks. -/
def reserved : List Char := "-.(<|)>,[]+*/%^!#_=~×÷".toList

def mayTrigger (ch : Char) : Bool :=
  !(Text.isBlank ch || Text.isLetter ch || Text.isDecimalDigit ch || reserved.contains ch)

def make (trigger : Char) (read : List Char → Except Stop (Option Value × Nat)) :
    Except Fault Special :=
  if mayTrigger trigger then .ok ⟨trigger, read⟩
  else .error (.trigger (Text.quoteChar trigger))

/-- Reads a placeholder after its trigger: perhaps a letter, its slot, and an index. -/
def readPlaceholder (s : List Char) : Except Stop (Option Value × Nat) :=
  let (slot, rest) := match s with
    | ch :: rest => if ch.isAlpha then (some ch, rest) else (none, s)
    | [] => (none, s)
  let ds := rest.takeWhile Char.isDigit
  if ds.isEmpty then .error (.error ⟨.placeholderWithoutIndex, 0⟩)
  else if Token.wordBound ≤ Decimal.value ds then .error (.error ⟨.placeholderTooLarge, 0⟩)
  else
    let size := ds.length + (if slot.isSome then 1 else 0)
    .ok (some (.placeholder slot (Int64.ofNat (Decimal.value ds))), size)

/-- Placeholders `@3` and `@k3`. -/
def placeholders : Special := ⟨'@', readPlaceholder⟩

/-- Gives an error without a column the column of the trigger. -/
def placed (col : Nat) : Stop → Stop
  | .error e => .error (if e.col = 0 then { e with col } else e)
  | f => f

end Special

/-- What special syntax and which further lines a text is read with. Of two kinds of special syntax
with one trigger the later one counts. -/
structure Reading where
  specials : List Special := []
  lines : List String := []

namespace Reading

def special? (r : Reading) (ch : Char) : Option Special :=
  r.specials.reverse.find? (·.trigger == ch)

end Reading

end Reckon
