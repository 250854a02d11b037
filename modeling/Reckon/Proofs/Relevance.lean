import Reckon.Proofs.Lockstep
import Reckon.Value.Mention

namespace Reckon

open Leeway

namespace Value

attribute [local simp] mentions mentionsAll

theorem mem_mentionsAll {name : String} {vs : List Value} :
    name ∈ mentionsAll vs ↔ ∃ v ∈ vs, name ∈ mentions v := by
  induction vs with
  | nil => simp
  | cons v vs ih => simp [ih]

theorem mem_insertName {name other : String} {names : List String} :
    name ∈ insertName other names ↔ name = other ∨ name ∈ names := by
  induction names with
  | nil => simp [insertName]
  | cons n ns ih =>
    unfold insertName
    split
    · simp
    · split
      · next he => simp [he]
      · simp only [List.mem_cons, ih]
        tauto

theorem mem_names {name : String} {v : Value} : name ∈ v.names ↔ name ∈ v.mentions := by
  unfold names
  induction v.mentions with
  | nil => simp
  | cons n ns ih => simp [mem_insertName, ih]

def isElem : Value → Bool
  | .var name => name = "elem"
  | _ => false

mutual

/-- Whether all synthesized calls are subscripts. -/
def subscriptsOnly : Value → Bool
  | .binary _ l r => subscriptsOnly l && subscriptsOnly r
  | .unary _ x => subscriptsOnly x
  | .call callee args synthesized =>
    (if synthesized then isElem callee else subscriptsOnly callee) && allSubscriptsOnly args
  | .vector elems => allSubscriptsOnly elems
  | .func _ body => subscriptsOnly body
  | _ => true

def allSubscriptsOnly : List Value → Bool
  | [] => true
  | v :: vs => subscriptsOnly v && allSubscriptsOnly vs

end

attribute [local simp] subscriptsOnly allSubscriptsOnly

theorem allSubscriptsOnly_iff {vs : List Value} :
    allSubscriptsOnly vs = true ↔ ∀ v ∈ vs, v.subscriptsOnly = true := by
  induction vs with
  | nil => simp
  | cons v vs ih => simp [ih]

/-- The tree mentions names of `S` alone, and its synthesized calls are subscripts. -/
def Confined (S : Set String) (v : Value) : Prop :=
  (∀ name ∈ v.names, name ∈ S) ∧ v.subscriptsOnly = true

end Value

theorem Readable.subscriptsOnly {v : Value} (h : Readable v) : v.subscriptsOnly = true := by
  induction h with
  | int | real | var => rfl
  | minus _ ih | factorial _ ih | func _ _ ih => simpa [Value.subscriptsOnly, Value.int] using ih
  | binary _ _ _ ihl ihr => simp [Value.subscriptsOnly, ihl, ihr]
  | call _ _ _ ihf iha => simpa [Value.subscriptsOnly, ihf, Value.allSubscriptsOnly_iff] using iha
  | subscript _ _ _ ihb ihi =>
    simp [Value.subscript, Value.subscriptsOnly, Value.allSubscriptsOnly, Value.isElem, ihb, ihi]
  | vector _ _ ih => exact Value.allSubscriptsOnly_iff.mpr ih

section

variable {S : Set String} {op : Op} {a b f : Value} {vs args : List Value}

open Value (Confined mem_names mem_mentionsAll mentions)

theorem confined_var {name : String} : Confined S (.var name) ↔ name ∈ S := by
  simp [Confined, mem_names, mentions, Value.subscriptsOnly]

theorem confined_binary : Confined S (.binary op a b) ↔ Confined S a ∧ Confined S b := by
  simp only [Confined, mem_names, mentions, List.mem_append, Value.subscriptsOnly,
    Bool.and_eq_true, or_imp, forall_and]
  tauto

theorem confined_unary : Confined S (.unary op a) ↔ Confined S a := by
  simp only [Confined, mem_names, mentions, Value.subscriptsOnly]

theorem confined_func {params : List String} : Confined S (.func params a) ↔ Confined S a := by
  simp only [Confined, mem_names, mentions, Value.subscriptsOnly]

theorem confined_vector : Confined S (.vector vs) ↔ ∀ v ∈ vs, Confined S v := by
  simp only [Confined, mem_names, mentions, mem_mentionsAll, Value.subscriptsOnly,
    Value.allSubscriptsOnly_iff]
  constructor
  · intro h v hv
    exact ⟨fun name hn => h.1 name ⟨v, hv, hn⟩, h.2 v hv⟩
  · intro h
    refine ⟨?_, fun v hv => (h v hv).2⟩
    rintro name ⟨v, hv, hn⟩
    exact (h v hv).1 name hn

theorem confined_call :
    Confined S (.call f args false) ↔ Confined S f ∧ Confined S (.vector args) := by
  simp only [Confined, mem_names, mentions, Bool.false_eq_true, ↓reduceIte, List.mem_append,
    Value.subscriptsOnly, Bool.and_eq_true, or_imp, forall_and]
  tauto

theorem confined_synthesized :
    Confined S (.call f args true) ↔ f = .var "elem" ∧ Confined S (.vector args) := by
  have helem : f.isElem = true ↔ f = .var "elem" := by
    cases f <;> simp [Value.isElem]
  simp only [Confined, mem_names, mentions, ↓reduceIte, Value.subscriptsOnly, Bool.and_eq_true,
    helem]
  tauto

theorem confined_of_numeric {v : Value} (h : Numeric v) : Confined S v := by
  induction h with
  | number => simp [Confined, mem_names, mentions, Value.subscriptsOnly]
  | vector _ ih => exact confined_vector.mpr ih

/-- Evaluation comes to no other names than those of the tree. -/
theorem forms_confined (S : Set String) : Forms (Confined S) (Confined S) (· = "elem") where
  literal hv _ := hv
  reference hv := hv
  again hv := hv
  numeric := confined_of_numeric
  vector h := confined_vector.mpr fun v hv => (h v hv).1
  elem h := confined_vector.mp h _
  body := confined_func.mp
  call hf hx := confined_call.mpr ⟨hf, confined_vector.mpr (by simpa using hx)⟩
  absent := by simp [Confined, mem_names, mentions, Value.subscriptsOnly]
  binary := confined_binary
  unary := confined_unary.mp
  elements := confined_vector
  args := by
    intro f args synthesized h
    cases synthesized with
    | true => exact confined_vector.mp (confined_synthesized.mp h).2
    | false => exact confined_vector.mp (confined_call.mp h).2
  callee := by
    intro f args synthesized h hf
    cases synthesized with
    | true =>
      obtain ⟨rfl, -⟩ := confined_synthesized.mp h
      simp [Value.isReference] at hf
    | false => exact (confined_call.mp h).1
  synthesized := by
    intro f args h name hname
    obtain ⟨rfl, -⟩ := confined_synthesized.mp h
    cases hname rfl
    rfl

end

namespace Context

/-- The binding of a name in the innermost frame. -/
def local? (c : Context) (name : String) : Option Binding :=
  c.frames.head?.bind (findBinding? name)

theorem get?_eq (c : Context) (name : String) :
    c.get? name = (c.local? name).or (c.global? name) := by
  unfold get? visible? local?
  cases c.frames <;> rfl

/-- What the names of `S` are bound to mentions names of `S` alone, and so does what subscripts
call. -/
structure Closed (S : Set String) (c : Context) : Prop where
  locals : ∀ name ∈ S, ∀ b, c.local? name = some b → b.value.Confined S
  globals : ∀ name ∈ S, ∀ b, c.global? name = some b → b.value.Confined S
  elem : ∀ b, c.global? "elem" = some b → b.value.Confined S

/-- The contexts bind the names of `S` alike, in the innermost frame and among the globals. -/
structure AgreesOn (S : Set String) (c d : Context) : Prop where
  precision : c.precision = d.precision
  maxDepth : c.maxDepth = d.maxDepth
  depth : c.frames.length = d.frames.length
  locals : ∀ name ∈ S, c.local? name = d.local? name
  globals : ∀ name ∈ S, c.global? name = d.global? name
  elem : c.global? "elem" = d.global? "elem"

variable {S : Set String} {c d : Context}

theorem Closed.calling (h : c.Closed S) {bs : List Binding} (hbs : ∀ b ∈ bs, b.value.Confined S) :
    (c.calling bs).Closed S where
  locals _ _ b hb := hbs b (mem_of_findBinding? hb)
  globals := h.globals
  elem := h.elem

theorem AgreesOn.calling (h : c.AgreesOn S d) (bs : List Binding) :
    (c.calling bs).AgreesOn S (d.calling bs) where
  precision := h.precision
  maxDepth := h.maxDepth
  depth := congrArg Nat.succ h.depth
  locals _ _ := rfl
  globals := h.globals
  elem := h.elem

theorem AgreesOn.sees (h : c.AgreesOn S d) (hc : c.Closed S) :
    Sees (Value.Confined S) (Value.Confined S) c d where
  lookup := by
    intro name hname
    have hmem := confined_var.mp hname
    rw [get?_eq, get?_eq, h.locals name hmem, h.globals name hmem]
  bound := by
    intro name b hname hb
    have hmem := confined_var.mp hname
    rw [get?_eq] at hb
    rcases Option.or_eq_some_iff.mp hb with hb | ⟨-, hb⟩
    · exact hc.locals name hmem b hb
    · exact hc.globals name hmem b hb
  result hv := hv
  settled hv := hv.1

/-- Both contexts have room for a frame, or neither has. -/
theorem opened_pairs {l : Leeway} (hmax : c.maxDepth = d.maxDepth)
    (hdepth : c.frames.length = d.frames.length) :
    l.Pairs (fun e f => e = c.calling [] ∧ f = d.calling []) c.opened d.opened := by
  unfold opened push
  by_cases hfull : c.maxDepth ≤ c.frames.length
  · rw [if_pos hfull, if_pos (by rwa [← hmax, ← hdepth]), hmax]
    exact .stop _
  · rw [if_neg hfull, if_neg (by rwa [← hmax, ← hdepth])]
    exact .value ⟨rfl, rfl⟩

end Context

theorem lockstep_agreesOn (S : Set String) :
    Lockstep .exact (Value.Confined S) (Value.Confined S) (Value.Confined S) (· = "elem")
      (fun c d => c.AgreesOn S d ∧ c.Closed S) where
  forms := forms_confined S
  precision h := h.1.precision
  sees h := h.1.sees h.2
  globally := by
    rintro c d _ h rfl
    exact ⟨h.1.elem, h.2.elem⟩
  frame h := Context.opened_pairs h.1.maxDepth h.1.depth
  calling h hbs := ⟨h.1.calling _, h.2.calling hbs⟩

/-- Let `S` hold the names that an expression mentions and, with each name, those that are mentioned
in what it is bound to. In contexts that agree on the names of `S`, in the innermost frame and among
the globals, and on what subscripts call, evaluation and coercion come to the same, whatever other
names and the frames of callers mean. -/
theorem evaluation_depends_on_names (fuel : Nat) {lines : List String} {src : String} {v : Value}
    {used : Nat} (hv : Reading.parse { lines } src = .ok ⟨v, used⟩) {S : Set String}
    (hS : ∀ name ∈ v.names, name ∈ S) {c d : Context} (hc : c.Closed S) (hcd : c.AgreesOn S d) :
    (Engine.ofFuel fuel).eval c v = (Engine.ofFuel fuel).eval d v ∧
      (Engine.ofFuel fuel).coerce c v = (Engine.ofFuel fuel).coerce d v := by
  have h := (lockstep_agreesOn S).abreast ⟨hcd, hc⟩ fuel
  have hconf : v.Confined S := ⟨hS, (Reading.parse_readable rfl hv).subscriptsOnly⟩
  exact ⟨(h.evaluate ⟨rfl, hconf⟩).eq, (h.coerce ⟨rfl, hconf⟩).eq⟩

/-- A function whose body subscripts by a global `y`. The caller has a local of that name in one of
the contexts, and in the other there are more names. -/
theorem evaluation_depends_on_index :
    let body : Value := .subscript (.vector [.var "z", .int 4]) (.var "y")
    let c := { Context.fresh 1024 64 with
      globals := ⟨"y", .int 1⟩ :: ⟨"f", .func ["z"] body⟩ :: (Context.fresh 1024 64).globals
      frames := [[⟨"x", .int 2⟩], [⟨"y", .int 7⟩]] }
    let d := { Context.fresh 1024 64 with
      ans := .int 5
      globals := ⟨"w", .var "y"⟩ :: ⟨"y", .int 1⟩ :: ⟨"f", .func ["z"] body⟩ ::
        (Context.fresh 1024 64).globals
      frames := [[⟨"q", .int 3⟩, ⟨"x", .int 2⟩], []] }
    let v : Value := .call (.var "f") [.var "x"] false
    let S : Set String := {"f", "x", "y", "z"}
    (Reading.parse {} "f(x)" = .ok ⟨v, 0⟩ ∧ (∀ name ∈ v.names, name ∈ S) ∧ c.Closed S ∧
      c.AgreesOn S d) ∧
      (Engine.ofFuel 20).coerce c v = (Engine.ofFuel 20).coerce d v ∧
      (Engine.ofFuel 20).coerce c v = .ok (.int 4) := by
  intro body c d v S
  have hv : Reading.parse {} "f(x)" = .ok ⟨v, 0⟩ := by cbv
  have hS : ∀ name ∈ v.names, name ∈ S := by
    have hnames : v.names = ["f", "x"] := by decide
    simp [hnames, S]
  have hbody : (Value.func ["z"] body).names = ["y", "z"] := by decide
  have hc : c.Closed S := by
    constructor
    · rintro _ (rfl | rfl | rfl | rfl) b hb
      all_goals cases hb
      exact confined_of_numeric (.number _)
    · rintro _ (rfl | rfl | rfl | rfl) b hb
      all_goals cases hb
      · exact ⟨by simp [hbody, S], rfl⟩
      · exact confined_of_numeric (.number _)
    · intro b hb
      cases hb
      exact ⟨fun _ hname => absurd hname List.not_mem_nil, rfl⟩
  have hcd : c.AgreesOn S d := by
    constructor
    case locals | globals =>
      rintro _ (rfl | rfl | rfl | rfl)
      all_goals rfl
    all_goals rfl
  exact ⟨⟨hv, hS, hc, hcd⟩, (evaluation_depends_on_names 20 hv hS hc hcd).2, rfl⟩

end Reckon
