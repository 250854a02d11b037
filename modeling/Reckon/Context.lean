import Reckon.Real.Precision
import Reckon.Stop
import Reckon.Value.Basic

namespace Reckon

structure Binding where
  name : String
  value : Value

namespace Binding

def kind (b : Binding) : BindingKind :=
  match b.value with
  | .func _ _ => .func
  | .builtin _ => .builtin
  | .error _ => .error
  | _ => .value

def ofBuiltin (b : Builtin) : Binding := ⟨b.name, .builtin b⟩

end Binding

def findBinding? (name : String) (bs : List Binding) : Option Binding := bs.find? (·.name == name)

def rebind (name : String) (v : Value) : List Binding → List Binding
  | [] => []
  | b :: bs => if b.name == name then ⟨name, v⟩ :: bs else b :: rebind name v bs

structure Context where
  /-- The last result. -/
  ans : Value := .int 0
  /-- The globals apart from `ans`, the latest first. -/
  globals : List Binding := []
  /-- The bindings of the active calls, the innermost call first, its latest binding first. -/
  frames : List (List Binding) := []
  precision : Precision := defaultPrecision
  /-- The greatest number of frames. -/
  maxDepth : Int := 1024

namespace Context

def bindings (c : Context) : List Binding := ⟨"ans", c.ans⟩ :: c.globals

def global? (c : Context) (name : String) : Option Binding := findBinding? name c.bindings

/-- The binding of a name in the innermost of the frames, else among the globals. -/
def visible? (c : Context) (name : String) (frames : List (List Binding)) : Option Binding :=
  match frames with
  | frame :: _ => (findBinding? name frame).or (c.global? name)
  | [] => c.global? name

def get? (c : Context) (name : String) : Option Binding := c.visible? name c.frames

/-- What a name means to the caller of the innermost call. -/
def getAbove? (c : Context) (name : String) : Option Binding := c.visible? name c.frames.tail

def lookup? (c : Context) (name : String) : Option Value := (c.global? name).map Binding.value

/-- Adds a global that hides an earlier one of its name. -/
def addGlobal (c : Context) (b : Binding) : Context := { c with globals := b :: c.globals }

/-- Builtins keep their values, and `ans` is never a function. -/
def setGlobal (c : Context) (name : String) (v : Value) : Except Cause Context :=
  match c.global? name with
  | some ⟨_, .builtin _⟩ => .error (.rebindingBuiltin name)
  | old =>
    if name = "ans" then
      if (Binding.mk name v).kind = .value then .ok { c with ans := v } else .error .ansAsFunction
    else if old.isSome then .ok { c with globals := rebind name v c.globals }
    else .ok (c.addGlobal ⟨name, v⟩)

/-- Gives a global a value that a caller may have left out. -/
def store (c : Context) (name : String) (v : Value) : Except Stop Context :=
  match c.setGlobal name v, v with
  | .error (.rebindingBuiltin name), _ => .error (.ofCause (.rebindingBuiltin name))
  | _, .missing => .error (.fault .missingOperand)
  | .error cause, _ => .error (.ofCause cause)
  | .ok c, _ => .ok c

def register (c : Context) (b : Builtin) : Except Cause Context :=
  if b.name = "ans" then .error .ansAsFunction
  else if (c.global? b.name).isSome then .error (.rebindingBuiltin b.name)
  else .ok (c.addGlobal (.ofBuiltin b))

def deleteGlobal (c : Context) (name : String) : Except Cause Context :=
  match c.global? name with
  | some ⟨_, .builtin _⟩ => .error (.deletingBuiltin name)
  | some _ => .ok { c with globals := c.globals.eraseP (·.name == name) }
  | none => .error (.unbound name)

/-- Removes the first binding of a name, in the innermost frame or else among the globals. -/
def delete (c : Context) (name : String) : Except Cause Context :=
  if name = "ans" then .error .deletingAns
  else match c.frames with
    | frame :: frames =>
      if (findBinding? name frame).isSome then
        .ok { c with frames := frame.eraseP (·.name == name) :: frames }
      else c.deleteGlobal name
    | [] => c.deleteGlobal name

def clear (c : Context) : Context :=
  { c with globals := c.globals.filter (·.kind == .builtin) }

def push (c : Context) : Except Cause Context :=
  if c.maxDepth ≤ c.frames.length then .error (.tooDeep c.maxDepth)
  else .ok { c with frames := [] :: c.frames }

/-- A call that is not too deep gets an empty frame, and nothing else changes. -/
theorem push_eq_ok_iff {c d : Context} :
    c.push = .ok d ↔
      (c.frames.length : Int) < c.maxDepth ∧ d = { c with frames := [] :: c.frames } := by
  unfold push
  split
  · next deep =>
    constructor
    · exact fun e => nomatch e
    · exact fun e => absurd e.1 (Int.not_lt.mpr deep)
  · next room =>
    constructor
    · exact fun e => ⟨Int.not_le.mp room, (Except.ok.inj e).symm⟩
    · exact fun e => congrArg Except.ok e.2.symm

def pop (c : Context) : Except Fault Context :=
  match c.frames with
  | [] => .error .noFrame
  | _ :: frames => .ok { c with frames }

def addLocal (c : Context) (b : Binding) : Except Fault Context :=
  match c.frames with
  | [] => .error .localWithoutFrame
  | frame :: frames => .ok { c with frames := (b :: frame) :: frames }

def withLocals (c : Context) (bs : List Binding) : Context :=
  match c.frames with
  | [] => c
  | frame :: frames => { c with frames := (bs.reverse ++ frame) :: frames }

def standard : Context := { globals := (Builtin.standard.map Binding.ofBuiltin).reverse }

inductive Setting where
  | variables (values : List (String × Value))
  | precision (bits : Nat)
  | maxDepth (n : Int)
  | builtins (bs : List Builtin)
  /-- Leaves the standard builtins out of a new context. -/
  | noStandard

def refuse : Cause → Stop := fun cause => .fault (.option (Error.text ⟨cause, 0⟩))

def apply (c : Context) : Setting → Except Stop Context
  | .variables values => values.foldlM (fun c (name, v) =>
      match c.store name v with
      | .error (.error e) => .error (refuse e.cause)
      | other => other) c
  | .precision bits => .ok { c with precision := { c.precision with bits } }
  | .maxDepth n => .ok { c with maxDepth := n }
  | .builtins bs => bs.foldlM (fun c b => (c.register b).mapError refuse) c
  | .noStandard => .ok c

def clone (c : Context) (settings : List Setting) : Except Stop Context :=
  if c.frames.isEmpty then settings.foldlM apply c else .error (.fault .cloneDuringCall)

def create (settings : List Setting)
    (functions : Transcendentals := Precise.transcendentals) : Except Stop Context :=
  let bare := settings.any fun s => match s with
    | .noStandard => true
    | _ => false
  let start := if bare then {} else standard
  { start with precision := { start.precision with functions } }.clone settings

end Context

end Reckon
