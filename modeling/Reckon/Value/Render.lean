import Reckon.Fault
import Reckon.Value.Basic

namespace Reckon

/-- A piece of text, or what keeps the text from going on. -/
inductive Piece where
  | text (s : String)
  | noOperand
  | noSign (op : Op)
  | noForm (kind : Kind)
  deriving DecidableEq, Repr

namespace Piece

/-- Joins the pieces to the text `written` so far, up to one that stops it. -/
def joinFrom (written : String) : List Piece → Except Fault String
  | [] => .ok written
  | .text s :: ps => joinFrom (written ++ s) ps
  | .noOperand :: _ => .error .missingOperand
  | .noSign op :: _ => .error (.unwritableOperator op)
  | .noForm kind :: _ => .error (.unwritableKind kind written)

def join (ps : List Piece) : Except Fault String := joinFrom "" ps

end Piece

/-- Pretty text has mathematical glyphs for some operators and names. -/
inductive Style where
  | plain | pretty
  deriving DecidableEq, Repr

def glyphs : List (Char × String) := [('π', "pi"), ('φ', "phi"), ('√', "sqrt")]

def Style.name (style : Style) (name : String) : String :=
  match style, glyphs.find? (·.2 == name) with
  | .pretty, some (glyph, _) => String.singleton glyph
  | _, _ => name

def Style.sign (style : Style) : Op → Piece
  | .add => .text "+"
  | .sub => .text "-"
  | .mul => .text (if style = .pretty then "×" else "*")
  | .div => .text (if style = .pretty then "÷" else "/")
  | .mod => .text "%"
  | .pow => .text "^"
  | .fact => .text "!"
  | .none => .noSign .none

def Style.number (style : Style) : Number → String
  | .int n => Number.textOfInt n
  | .real x => formatReal x
  | .frac f =>
    Number.textOfInt f.num ++ (if style = .pretty then "÷" else "/") ++ Number.textOfInt f.den

namespace Value

def needsBrackets (op : Op) (right : Bool) : Value → Bool
  | .binary inner _ _ =>
    let p := op.strength
    let q := inner.strength
    if q.level = p.level then right != p.right else q.level < p.level
  | .func _ _ => true
  | .number (.frac _) => Op.add.strength.level < op.strength.level
  | .number (.int n) => n < 0 && !right && Op.pow.strength.level ≤ op.strength.level
  | .number (.real x) => x < 0 && !right && Op.pow.strength.level ≤ op.strength.level
  | _ => false

/-- Whether a product is the one that the reader makes of a leading minus sign. -/
def isMinus (op : Op) (left : Value) : Bool :=
  match op, left with
  | .mul, .number (.int n) => n == -1
  | _, _ => false

/-- The operand `v` of `op` before `rest`, in brackets where needed; `body` writes it without. -/
def asOperand (op : Op) (right : Bool) (v : Value) (body : List Piece → List Piece)
    (rest : List Piece) : List Piece :=
  match v with
  | .missing => .noOperand :: rest
  | _ => if v.needsBrackets op right then .text "(" :: body (.text ")" :: rest) else body rest

/-- The callee `v` before `rest`, in brackets unless it is a name or a call. -/
def asCallee (v : Value) (body : List Piece → List Piece) (rest : List Piece) : List Piece :=
  match v with
  | .missing => .noOperand :: rest
  | .var _ | .builtin _ | .call _ _ _ => body rest
  | _ => .text "(" :: body (.text ")" :: rest)

mutual

/-- The text of a value in pieces, before those of `rest`. -/
def pieces (style : Style) : Value → List Piece → List Piece
  | .missing, rest => .text "<nil>" :: rest
  | .number x, rest => .text (style.number x) :: rest
  | .binary op l r, rest =>
    if isMinus op l then .text "-" :: asOperand op true r (pieces style r) rest
    else
      asOperand op false l (pieces style l)
        (.text " " :: style.sign op :: .text " " :: asOperand op true r (pieces style r) rest)
  | .unary op x, rest => asOperand op false x (pieces style x) (style.sign op :: rest)
  | .call (.var "elem") [base, index] true, rest =>
    asOperand .fact false base (pieces style base)
      (.text "[" :: pieces style index (.text "]" :: rest))
  | .call callee args _, rest =>
    asCallee callee (pieces style callee)
      (.text "(" :: piecesAll style args (.text ")" :: rest))
  | .var name, rest => .text (style.name name) :: rest
  | .vector elems, rest => .text "<" :: piecesAll style elems (.text ">" :: rest)
  | .func params body, rest =>
    .text "|" :: .text (", ".intercalate params) :: .text "| " :: pieces style body rest
  | .builtin b, rest => .text (style.name b.name) :: rest
  | .placeholder slot index, rest =>
    .text ("@" ++ (slot.map String.singleton).getD "" ++ Number.textOfInt index) :: rest
  | .error e, rest => .text e.text :: rest
  | .endOfInput, rest => rest
  | .unknown code, rest => .noForm (Value.unknown code).kind :: rest

def piecesAll (style : Style) : List Value → List Piece → List Piece
  | [], rest => rest
  | [v], rest => pieces style v rest
  | v :: w :: vs, rest => pieces style v (.text ", " :: piecesAll style (w :: vs) rest)

end

def render (style : Style) (v : Value) : Except Fault String := Piece.join (pieces style v [])

/-- The text of a value inside a message, where a fault is described in its place. -/
def inMessage (v : Value) : String :=
  match v.render .plain with
  | .ok s => s
  | .error f => s!"%!s(PANIC=String method: {f.message})"

end Value

end Reckon
