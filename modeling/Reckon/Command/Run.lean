import Reckon.Command.Flags
import Reckon.Session
import Reckon.Text.Lines
import Reckon.Text.Width
import Reckon.Value.Mention

namespace Reckon.Command

/-- Where further statements come from. -/
inductive Source where
  | standard
  | file (name : String)
  deriving DecidableEq, Repr

structure Plan where
  options : Options
  statements : List String
  source : Option Source

structure Libraries where
  functions : Transcendentals := Precise.transcendentals
  foldWidth : String → String := Text.foldWidth

structure Output where
  out : String
  err : String
  exit : Nat
  deriving DecidableEq, Repr

/-- The state of a run: it goes on as long as there is no exit code. -/
structure State where
  context : Context
  out : String := ""
  err : String := ""
  exit : Option Nat := none

namespace State

def print (s : State) (line : String) : State := { s with out := s.out ++ line ++ "\n" }

def complain (s : State) (line : String) : State := { s with err := s.err ++ line ++ "\n" }

def fail (s : State) (line : String) (code : Nat) : State :=
  { s.complain line with exit := some code }

def output (s : State) : Output := ⟨s.out, s.err, s.exit.getD 0⟩

/-- Reports what stopped a statement. Blank lines are not reported; a fatal error or a fault ends
the run. -/
def report (s : State) : Stop → State
  | .error e =>
    if e.kind = .ignore then s
    else if e.recoverable then s.complain e.text
    else s.fail e.text 1
  | .message text => s.complain text
  | .fault f => s.fail ("panic: " ++ f.message) 2
  | .outOfFuel => s.fail "fatal error: stack overflow" 2

end State

namespace Options

def folded (o : Options) (foldWidth : String → String) (s : String) : String :=
  if o.fold then foldWidth s else s

/-- A fraction is followed by its value as a real. -/
def resultText (o : Options) (v : Value) : Except Fault String := do
  let text ← v.render (if o.pretty then .pretty else .plain)
  match v with
  | .number (.frac f) => return text ++ " (" ++ formatReal f.toFloat ++ ")"
  | _ => return text

/-- The echo of a statement, with the variables of its expression. -/
def echoText (s : Statement) : String :=
  let text := match s.render with
    | .ok text => text
    | .error f => s!"%!v(PANIC=String method: {f.message})"
  match s.value? with
  | some v => text ++ " : [" ++ " ".intercalate v.names ++ "]"
  | none => text

/-- The number tells how many of the further lines were used. -/
def statement (o : Options) (s : State) (line : String) (further : List String) : State × Nat :=
  match Reading.statement { lines := further } line with
  | .error failed => (s.report failed.stop, failed.used)
  | .ok stmt =>
    let s := if o.echo then s.print (echoText stmt.result) else s
    let ran := Engine.exec {} s.context stmt.result
    let s := { s with context := ran.context }
    let s := match ran.result with
      | .error stop => s.report stop
      | .ok none => s
      | .ok (some v) =>
        match o.resultText v with
        | .ok text => s.print text
        | .error f => s.report (.fault f)
    (s, stmt.used)

/-- Runs statements that cannot be continued. -/
def arguments (o : Options) (s : State) : List String → State
  | [] => s
  | line :: lines =>
    if s.exit.isSome then s else arguments o (o.statement s line []).1 lines

/-- Runs lines as statements, each of which may use the lines after it. -/
def lines (o : Options) (s : State) : List String → State
  | [] => s
  | line :: rest =>
    if s.exit.isSome then s
    else
      let (s, used) := o.statement s line rest
      lines o s (rest.drop used)
termination_by ls => ls.length
decreasing_by simp only [List.length_drop, List.length_cons]; omega

def define (o : Options) (s : State) (name value : String) : State :=
  if s.exit.isSome then s
  else
    let bits : Context.Setting := .precision o.precision.toNat
    match Engine.evalText {} value [bits] s.context.precision.functions with
    | .error (.error e) => s.fail s!"setting {name}: {e.text}" 1
    | .error stop => s.report stop
    | .ok v =>
      match s.context.setGlobal name v with
      | .ok context => { s with context }
      | .error cause => s.fail s!"setting {name}: {Error.text ⟨cause, 0⟩}" 1

end Options

/-- The length in bytes from which on a line is too long. -/
def lineLimit : Nat := 65536

def isShort (line : List Char) : Bool := (String.ofList line).utf8ByteSize < lineLimit

/-- The lines before the first that is too long, and whether there is one. -/
def readable (text : String) : List String × Bool :=
  let all := Text.lines text.toList
  let short := all.takeWhile isShort
  (short.map fun line => String.ofList (Text.dropReturn line), short.length < all.length)

namespace Plan

def ofArgs (args : List String) : Except Output Plan :=
  match readFlags {} args with
  | .error .help => .error ⟨"", "", 0⟩
  | .error e => .error ⟨"", e.message ++ "\n", 2⟩
  | .ok (o, statements) =>
    if o.precision ≤ 0 then
      .error ⟨"", s!"precision ({o.precision}) must be positive\n", 1⟩
    else if o.depth ≤ 0 then .error ⟨"", s!"depth ({o.depth}) must be positive\n", 1⟩
    else
      let source :=
        if o.input ≠ "" ∧ o.input ≠ "-" then some (.file o.input)
        else if statements.isEmpty ∨ o.input = "-" then some .standard
        else none
      .ok ⟨o, statements, source⟩

def runSource (libraries : Libraries) (o : Options) (s : State) : Except String String → State
  | .error reason => s.fail reason 1
  | .ok text =>
    let (ls, tooLong) := readable text
    let s := o.lines s (ls.map (o.folded libraries.foldWidth))
    if tooLong ∧ s.exit.isNone then s.fail "bufio.Scanner: token too long" 1 else s

/-- `text` is what the source gives. -/
def run (plan : Plan) (text : Except String String) (libraries : Libraries := {}) : Output :=
  let o := plan.options
  let precision := { bits := o.precision.toNat, functions := libraries.functions }
  let context := { Context.standard with precision, maxDepth := o.depth }
  let s := o.given.foldl (fun s (name, value) => o.define s name value) { context }
  let s := o.arguments s (plan.statements.map (o.folded libraries.foldWidth))
  if s.exit.isSome ∨ plan.source.isNone then s.output else (runSource libraries o s text).output

end Plan

/-- `read` gives the text of a source, or why there is none. -/
def respond {m : Type → Type} [Monad m] (read : Source → m (Except String String))
    (args : List String) (libraries : Libraries := {}) : m Output :=
  match Plan.ofArgs args with
  | .error output => return output
  | .ok plan => do
    let text ← match plan.source with
      | some source => read source
      | none => pure (.ok "")
    return plan.run text libraries

end Reckon.Command
