import Reckon.Text.Quoted
import Reckon.Text.Trim

/-!
The flags of the command. A flag is written `-x` or `--x`, its value after `=` or as the next
argument; a switch takes a value only after `=`. Flags end at the first other argument, at `-` and
after `--`.
-/

namespace Reckon.Command

inductive NumberError where
  | form | range
  deriving DecidableEq, Repr

def NumberError.message : NumberError → String
  | .form => "parse error"
  | .range => "value out of range"

/-- The value of a digit or letter in a base up to 36. -/
def digitOf? (ch : Char) : Option Nat :=
  if ch.isDigit then some (ch.toNat - '0'.toNat)
  else if ch.isAlpha then some (ch.toLower.toNat - 'a'.toNat + 10)
  else none

/-- The base of a number by its first characters, and the rest of it. -/
def baseOf : List Char → Nat × List Char
  | '0' :: ch :: rest =>
    match rest, ch.toLower with
    | _ :: _, 'b' => (2, rest)
    | _ :: _, 'o' => (8, rest)
    | _ :: _, 'x' => (16, rest)
    | _, _ => (8, ch :: rest)
  | ['0'] => (8, [])
  | cs => (10, cs)

/-- The number that digits of a base write after `n`; underscores between them are passed over. -/
def digitsValue (base n : Nat) : List Char → Except NumberError Nat
  | [] => .ok n
  | '_' :: cs => digitsValue base n cs
  | ch :: cs =>
    match digitOf? ch with
    | none => .error .form
    | some d =>
      if base ≤ d then .error .form
      else if 0x10000000000000000 ≤ n * base + d then .error .range
      else digitsValue base (n * base + d) cs

/-- What stood before a character of a number. -/
inductive Before where
  | start | digit | underscore | other
  deriving DecidableEq

/-- Whether underscores stand only between digits, or between the sign of a base and a digit. -/
def underscoresFit (hex : Bool) (before : Before) : List Char → Bool
  | [] => before != .underscore
  | ch :: cs =>
    if ch.isDigit || (hex && ch.isAlpha && ch.toLower ≤ 'f') then underscoresFit hex .digit cs
    else if ch = '_' then before == .digit && underscoresFit hex .underscore cs
    else before != .underscore && underscoresFit hex .other cs

def underscoresOk : List Char → Bool
  | '0' :: ch :: rest =>
    if ch.toLower ∈ ['b', 'o', 'x'] then underscoresFit (ch.toLower == 'x') .digit rest
    else underscoresFit false .start ('0' :: ch :: rest)
  | cs => underscoresFit false .start cs

def unsigned (cs : List Char) : Except NumberError Nat :=
  if cs.isEmpty then .error .form
  else do
    let (base, ds) := baseOf cs
    let n ← digitsValue base 0 ds
    if cs.contains '_' && !underscoresOk cs then .error .form else .ok n

/-- A number with at most one sign, within the range of words. -/
def signed (s : String) : Except NumberError Int := do
  let (negative, cs) := match s.toList with
    | '-' :: cs => (true, cs)
    | '+' :: cs => (false, cs)
    | cs => (false, cs)
  let n ← unsigned cs
  if negative then
    if 0x8000000000000000 < n then .error .range else .ok (-(n : Int))
  else if 0x8000000000000000 ≤ n then .error .range else .ok n

def boolean? (s : String) : Option Bool :=
  if s ∈ ["1", "t", "T", "TRUE", "true", "True"] then some true
  else if s ∈ ["0", "f", "F", "FALSE", "false", "False"] then some false
  else none

structure Options where
  input : String := ""
  history : String := ""
  /-- Definitions of variables, in order. -/
  given : List (String × String) := []
  precision : Int := 64
  depth : Int := 1024
  echo : Bool := false
  pretty : Bool := false
  fold : Bool := false
  deriving DecidableEq, Repr

inductive FlagError where
  | form (arg : String)
  | undefined (name : String)
  | withoutValue (name : String)
  | switchValue (value name : String)
  | badValue (value name reason : String)
  /-- A request for help, not an error. -/
  | help
  deriving DecidableEq, Repr

def FlagError.message : FlagError → String
  | .form arg => s!"bad flag syntax: {arg}"
  | .undefined name => s!"flag provided but not defined: -{name}"
  | .withoutValue name => s!"flag needs an argument: -{name}"
  | .switchValue value name =>
    s!"invalid boolean value {Text.quote value} for -{name}: {NumberError.form.message}"
  | .badValue value name reason =>
    s!"invalid value {Text.quote value} for flag -{name}: {reason}"
  | .help => ""

/-- What a flag does: a switch is on unless a value says otherwise; a setting needs a value. -/
inductive Flag where
  | switch (set : Bool → Options → Options)
  | setting (set : String → Options → Except String Options)

def integerSetting (set : Int → Options → Options) : Flag :=
  .setting fun s o => match signed s with
    | .ok n => .ok (set n o)
    | .error e => .error e.message

/-- Reads a definition `name=value`. -/
def definition (s : String) (o : Options) : Except String Options :=
  let name := s.toList.takeWhile (· != '=')
  match s.toList.drop name.length with
  | _ :: value =>
    .ok { o with
      given := o.given ++ [(Text.trim (String.ofList name), Text.trim (String.ofList value))] }
  | [] => .error s!"variable definitions must be \"name=value\", not {Text.quote s}"

def flag? : String → Option Flag
  | "in" => some (.setting fun s o => .ok { o with input := s })
  | "history" => some (.setting fun s o => .ok { o with history := s })
  | "given" => some (.setting definition)
  | "p" => some (integerSetting fun n o => { o with precision := n })
  | "depth" => some (integerSetting fun n o => { o with depth := n })
  | "echo" => some (.switch fun b o => { o with echo := b })
  | "pretty" => some (.switch fun b o => { o with pretty := b })
  | "fold" => some (.switch fun b o => { o with fold := b })
  | _ => none

/-- The name in a flag and the value after its first `=`; the name has at least one character. -/
def splitFlag (body : List Char) : String × Option String :=
  let name := body.take 1 ++ (body.drop 1).takeWhile (· != '=')
  match body.drop name.length with
  | _ :: value => (String.ofList name, some (String.ofList value))
  | [] => (String.ofList name, none)

inductive Argument where
  | flag (name : String) (value : Option String)
  | endOfFlags
  | plain
  | malformed
  deriving DecidableEq, Repr

def Argument.ofText (arg : String) : Argument :=
  match arg.toList with
  | ['-', '-'] => .endOfFlags
  | ['-'] | [] => .plain
  | '-' :: body =>
    let body := if body.head? = some '-' then body.tail else body
    match body with
    | [] => .malformed
    | '-' :: _ | '=' :: _ => .malformed
    | _ => let (name, value) := splitFlag body; .flag name value
  | _ => .plain

def applySetting (name value : String) (set : String → Options → Except String Options)
    (o : Options) : Except FlagError Options :=
  (set value o).mapError (.badValue value name)

/-- Reads flags into options; what is left are the other arguments. -/
def readFlags (o : Options) : List String → Except FlagError (Options × List String)
  | [] => .ok (o, [])
  | arg :: args =>
    match Argument.ofText arg with
    | .plain => .ok (o, arg :: args)
    | .endOfFlags => .ok (o, args)
    | .malformed => .error (.form arg)
    | .flag name value =>
      match flag? name with
      | none => .error (if name = "help" ∨ name = "h" then .help else .undefined name)
      | some (.switch set) =>
        match value with
        | none => readFlags (set true o) args
        | some value =>
          match boolean? value with
          | some b => readFlags (set b o) args
          | none => .error (.switchValue value name)
      | some (.setting set) =>
        match value with
        | some value => do readFlags (← applySetting name value set o) args
        | none =>
          match args with
          | value :: args => do readFlags (← applySetting name value set o) args
          | [] => .error (.withoutValue name)

end Reckon.Command
