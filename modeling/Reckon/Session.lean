import Reckon.Eval.Evaluator
import Reckon.Statement

namespace Reckon

/-- What a statement left behind: the context after it, and a value, nothing, or what stopped it. -/
structure Ran where
  context : Context
  result : Except Stop (Option Value)

namespace Ran

def ofChange (before : Context) (v : Option Value) : Except Cause Context → Ran
  | .ok c => ⟨c, .ok v⟩
  | .error cause => ⟨before, .error (.ofCause cause)⟩

end Ran

namespace Context

def keep (c : Context) (r : Value) : Ran := .ofChange c (some r) (c.setGlobal "ans" r)

def assigning (c : Context) (name : String) (r : Value) (next : Context → Ran) : Ran :=
  match c.setGlobal name r with
  | .error cause => ⟨c, .error (.ofCause cause)⟩
  | .ok c => next c

end Context

namespace Engine

/-- Results other than functions also become `ans`. -/
def exec (e : Engine) (c : Context) : Statement → Ran
  | .delete name => .ofChange c none (c.delete name)
  | .clear => ⟨c.clear, .ok none⟩
  | .define name params body =>
    .ofChange c (some (.func params body)) (c.setGlobal name (.func params body))
  | .expr v =>
    match e.coerce c v with
    | .error s => ⟨c, .error s⟩
    | .ok (.func params body) => ⟨c, .ok (some (.func params body))⟩
    | .ok (.builtin b) => ⟨c, .ok (some (.builtin b))⟩
    | .ok r => c.keep r
  | .assign name v =>
    match e.coerce c v with
    | .error s => ⟨c, .error s⟩
    | .ok (.func params body) =>
      .ofChange c (some (.func params body)) (c.setGlobal name (.func params body))
    | .ok (.builtin _) => ⟨c, .error (.ofCause .assigningBuiltin)⟩
    | .ok r => c.assigning name r (·.keep r)

/-- A blank line does nothing. The number tells how many further lines were used. -/
def run (e : Engine) (c : Context) (r : Reading) (src : String) : Ran × Nat :=
  match r.statement src with
  | .ok s => (e.exec c s.result, s.used)
  | .error ⟨.error err, used⟩ =>
    (if err.kind = .ignore then ⟨c, .ok none⟩ else ⟨c, .error (.error err)⟩, used)
  | .error ⟨stop, used⟩ => (⟨c, .error stop⟩, used)

def evalText (e : Engine) (src : String) (settings : List Context.Setting)
    (functions : Transcendentals := Precise.transcendentals) : Result := do
  let v ← (Reading.parse {} src).mapError Failed.stop
  let c ← Context.create settings functions
  e.coerce c v.result

end Engine

end Reckon
