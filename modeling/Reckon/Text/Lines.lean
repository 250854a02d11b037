namespace Reckon.Text

/-- The lines of a text that goes on a line whose beginning, last character first, is `line`. A last
line needs no break, and there is none after the last break. -/
def linesFrom (line : List Char) : List Char → List (List Char)
  | [] => if line.isEmpty then [] else [line.reverse]
  | '\n' :: rest => line.reverse :: linesFrom [] rest
  | ch :: rest => linesFrom (ch :: line) rest

def lines (s : List Char) : List (List Char) := linesFrom [] s

/-- A line without one carriage return at its end. -/
def dropReturn (line : List Char) : List Char :=
  if line.getLast? = some '\r' then line.dropLast else line

end Reckon.Text
