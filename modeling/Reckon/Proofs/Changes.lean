import Reckon.Proofs.Globals
import Reckon.Proofs.Outcome

namespace Reckon

open Function

namespace Context

inductive Change where
  | set (name : String) (v : Value)
  | delete (name : String)
  | clear
  | register (b : Builtin)
  | clone

namespace Change

def apply (c : Context) : Change → Except Stop Context
  | .set name v => c.store name v
  | .delete name => (c.delete name).mapError .ofCause
  | .clear => .ok c.clear
  | .register b => (c.register b).mapError .ofCause
  | .clone => c.clone []

/-- When a map of names admits the change. -/
def Allowed (look : String → Option Value) : Change → Prop
  | .set name v => v ≠ .missing ∧ (∀ b, look name ≠ some (.builtin b)) ∧
      (name = "ans" → (Binding.mk name v).kind = .value)
  | .delete name => name ≠ "ans" ∧ ∃ v, look name = some v ∧ v.isBuiltin = false
  | .register b => b.name ≠ "ans" ∧ look b.name = none
  | .clear | .clone => True

/-- The map of names after the change. -/
def effect (look : String → Option Value) : Change → String → Option Value
  | .set name v => update look name (some v)
  | .delete name => update look name none
  | .clear => fun n => if n = "ans" then look n else (look n).filter Value.isBuiltin
  | .register b => update look b.name (some (.builtin b))
  | .clone => look

/-- An allowed change leaves each builtin as it is. -/
theorem Allowed.effect_builtin {look : String → Option Value} {change : Change}
    (h : change.Allowed look) {name : String} {b : Builtin}
    (hb : look name = some (.builtin b)) : change.effect look name = some (.builtin b) := by
  cases change with
  | set other v =>
    have hne : name ≠ other := by
      rintro rfl
      exact h.2.1 b hb
    exact (update_of_ne hne _ _).trans hb
  | delete other =>
    have hne : name ≠ other := by
      rintro rfl
      obtain ⟨v, hv, hnot⟩ := h.2
      cases hv.symm.trans hb
      cases hnot
    exact (update_of_ne hne _ _).trans hb
  | register other =>
    have hne : name ≠ other.name := by
      rintro rfl
      cases h.2.symm.trans hb
    exact (update_of_ne hne _ _).trans hb
  | clear => simp [effect, hb, Option.filter, Value.isBuiltin]
  | clone => exact hb

end Change

theorem Change.Allowed.effect_ans {look : String → Option Value} {change : Change}
    (h : change.Allowed look) {v : Value} (hv : look "ans" = some v)
    (hplain : (Binding.mk "ans" v).kind = .value) :
    ∃ w, change.effect look "ans" = some w ∧ (Binding.mk "ans" w).kind = .value := by
  cases change with
  | set name w =>
    by_cases hn : name = "ans"
    · subst hn
      exact ⟨w, by simp [effect], h.2.2 rfl⟩
    · exact ⟨v, (update_of_ne (Ne.symm hn) _ _).trans hv, hplain⟩
  | delete name => exact ⟨v, (update_of_ne h.1.symm _ _).trans hv, hplain⟩
  | register b => exact ⟨v, (update_of_ne h.1.symm _ _).trans hv, hplain⟩
  | clear => exact ⟨v, by simpa [effect] using hv, hplain⟩
  | clone => exact ⟨v, hv, hplain⟩

/-- The context after a change, the same if the change is refused. -/
def changed (c : Context) (change : Change) : Context :=
  match change.apply c with
  | .ok d => d
  | .error _ => c

def after (c : Context) (changes : List Change) : Context := changes.foldl changed c

/-- Between calls each name is bound once, and `ans` to a plain value. -/
structure Tidy (c : Context) : Prop where
  idle : c.frames = []
  distinct : (c.bindings.map Binding.name).Nodup
  plain : (Binding.mk "ans" c.ans).kind = .value

theorem store_eq_ok_iff {c d : Context} {name : String} {v : Value} :
    c.store name v = .ok d ↔ v ≠ .missing ∧ c.setGlobal name v = .ok d := by
  unfold store
  split
  · next h => simp [h]
  · simp
  · next h => simp [h]
  · next hv h => simp_all

theorem register_eq_ok_iff {c d : Context} {b : Builtin} :
    c.register b = .ok d ↔
      (b.name ≠ "ans" ∧ c.lookup? b.name = none) ∧ d = c.addGlobal (.ofBuiltin b) := by
  unfold register
  by_cases hn : b.name = "ans"
  · simp [hn]
  · cases hg : c.global? b.name with
    | none => simp [hn, lookup?, hg, eq_comm]
    | some v => simp [hn, lookup?, hg]

theorem delete_isOk_iff {c : Context} {name : String} (hc : c.frames = []) :
    (c.delete name).isOk = true ↔
      name ≠ "ans" ∧ ∃ v, c.lookup? name = some v ∧ v.isBuiltin = false := by
  constructor
  · intro h
    obtain ⟨d, hd⟩ := isOk_iff.mp h
    obtain ⟨hn, hv, -⟩ := delete_eq_ok hc hd
    exact ⟨hn, hv⟩
  · rintro ⟨hn, v, hv, hnot⟩
    obtain ⟨bound, hbound, rfl⟩ := Option.map_eq_some_iff.mp hv
    unfold delete
    rw [if_neg hn, hc]
    change (c.deleteGlobal name).isOk = true
    unfold deleteGlobal
    rw [hbound]
    split
    · next he =>
      cases he
      cases hnot
    · rfl
    · next he => cases he

theorem clone_nil {c : Context} (hc : c.frames = []) : c.clone [] = .ok c := by
  unfold clone
  rw [hc]
  rfl

/-- Just the allowed changes are made. -/
theorem Change.isOk_iff_allowed {c : Context} (hc : c.Tidy) (change : Change) :
    (change.apply c).isOk = true ↔ change.Allowed c.lookup? := by
  cases change with
  | set name v =>
    simp only [apply, Allowed, isOk_iff, store_eq_ok_iff, exists_and_left]
    rw [← isOk_iff, setGlobal_isOk_iff]
  | delete name =>
    unfold apply
    rw [isOk_mapError]
    exact delete_isOk_iff hc.idle
  | register b =>
    unfold apply
    rw [isOk_mapError, isOk_iff]
    simp [register_eq_ok_iff, Allowed]
  | clear => exact ⟨fun _ => trivial, fun _ => rfl⟩
  | clone =>
    unfold apply
    rw [clone_nil hc.idle]
    exact ⟨fun _ => trivial, fun _ => rfl⟩

theorem Change.allowed {c d : Context} (hc : c.Tidy) {change : Change}
    (h : change.apply c = .ok d) : change.Allowed c.lookup? :=
  (isOk_iff_allowed hc change).mp (isOk_iff.mpr ⟨d, h⟩)

/-- A change that is made has its effect and no other. -/
theorem Change.becomes {c d : Context} (hc : c.Tidy) {change : Change}
    (h : change.apply c = .ok d) : c.Becomes d (change.effect c.lookup?) := by
  cases change with
  | set name v => exact becomes_setGlobal (store_eq_ok_iff.mp h).2
  | delete name => exact becomes_delete hc.idle hc.distinct (mapError_eq_ok_iff.mp h)
  | register b =>
    obtain ⟨⟨hn, -⟩, rfl⟩ := register_eq_ok_iff.mp (mapError_eq_ok_iff.mp h)
    exact ⟨lookup?_addGlobal hn, rfl, rfl, rfl⟩
  | clear =>
    cases h
    exact becomes_clear hc.distinct
  | clone =>
    cases (clone_nil hc.idle).symm.trans h
    exact ⟨rfl, rfl, rfl, rfl⟩

/-- A change that is made binds no name twice. -/
theorem Change.distinct {c d : Context} (hc : c.Tidy) {change : Change}
    (h : change.apply c = .ok d) : (d.bindings.map Binding.name).Nodup := by
  cases change with
  | set name v => exact distinct_setGlobal hc.distinct (store_eq_ok_iff.mp h).2
  | delete name =>
    obtain ⟨hn, -, rfl⟩ := delete_eq_ok hc.idle (mapError_eq_ok_iff.mp h)
    rw [bindings_erase hn]
    exact ((List.eraseP_sublist).map Binding.name).nodup hc.distinct
  | register b =>
    obtain ⟨⟨-, hfree⟩, rfl⟩ := register_eq_ok_iff.mp (mapError_eq_ok_iff.mp h)
    exact distinct_addGlobal hc.distinct hfree
  | clear =>
    cases h
    exact (c.clear_sublist.map Binding.name).nodup hc.distinct
  | clone =>
    cases (clone_nil hc.idle).symm.trans h
    exact hc.distinct

theorem Tidy.apply {c d : Context} (hc : c.Tidy) (change : Change)
    (h : change.apply c = .ok d) : d.Tidy := by
  have hb := Change.becomes hc h
  refine ⟨hb.frames.trans hc.idle, Change.distinct hc h, ?_⟩
  obtain ⟨v, hv, hplain⟩ := (Change.allowed hc h).effect_ans rfl hc.plain
  rw [← hb.lookup] at hv
  obtain rfl : d.ans = v := Option.some.inj hv
  exact hplain

/-- A setting is a change of the globals or none at all. -/
theorem Tidy.applySetting {c d : Context} (hc : c.Tidy) {setting : Setting}
    (h : c.apply setting = .ok d) : d.Tidy := by
  match setting, h with
  | .variables values, h =>
    refine foldlM_keeps (P := Tidy) (fun c ⟨name, v⟩ d hc hd => ?_) hc h
    have hstore : c.store name v = .ok d := by
      dsimp only at hd
      split at hd
      · cases hd
      · exact hd
    exact hc.apply (.set name v) hstore
  | .builtins bs, h =>
    refine foldlM_keeps (P := Tidy) (fun c b d hc hd => ?_) hc h
    exact hc.apply (.register b) (mapError_eq_ok_iff.mpr (mapError_eq_ok_iff.mp hd))
  | .precision bits, h | .maxDepth n, h =>
    cases h
    exact ⟨hc.idle, hc.distinct, hc.plain⟩
  | .noStandard, h =>
    cases h
    exact hc

/-- New contexts are tidy, whatever the settings. -/
theorem Tidy.create {settings : List Setting} {functions : Transcendentals} {c : Context}
    (h : create settings functions = .ok c) : c.Tidy := by
  have hempty (precision : Precision) : Tidy { precision } := ⟨rfl, List.nodup_singleton _, rfl⟩
  have hstandard (precision : Precision) : Tidy { standard with precision } :=
    ⟨rfl, standard_distinct, rfl⟩
  have hclone : ∀ {start : Context}, start.Tidy → start.clone settings = .ok c → c.Tidy := by
    intro start hstart h
    unfold clone at h
    split at h
    · exact foldlM_keeps (fun _ _ _ hc hd => hc.applySetting hd) hstart h
    · cases h
  unfold Context.create at h
  dsimp only at h
  split at h
  · exact hclone (hempty _) h
  · exact hclone (hstandard _) h

theorem changed_eq {c d : Context} {change : Change} (h : change.apply c = .ok d) :
    c.changed change = d := by
  unfold changed
  rw [h]

theorem changed_eq_self {c : Context} {change : Change} {stop : Stop}
    (h : change.apply c = .error stop) : c.changed change = c := by
  unfold changed
  rw [h]

theorem Tidy.changed {c : Context} (hc : c.Tidy) (change : Change) : (c.changed change).Tidy := by
  unfold Context.changed
  split
  · next h => exact hc.apply _ h
  · exact hc

theorem Tidy.after {c : Context} (hc : c.Tidy) (changes : List Change) :
    (c.after changes).Tidy := by
  induction changes generalizing c with
  | nil => exact hc
  | cons change changes ih => exact ih (hc.changed change)

theorem Tidy.changed_builtin {c : Context} (hc : c.Tidy) (change : Change) {name : String}
    {b : Builtin} (hb : c.lookup? name = some (.builtin b)) :
    (c.changed change).lookup? name = some (.builtin b) := by
  unfold Context.changed
  split
  · next d h =>
    rw [(Change.becomes hc h).lookup]
    exact (Change.allowed hc h).effect_builtin hb
  · exact hb

/-- A builtin stays what it is. -/
theorem Tidy.after_builtin {c : Context} (hc : c.Tidy) (changes : List Change) {name : String}
    {b : Builtin} (hb : c.lookup? name = some (.builtin b)) :
    (c.after changes).lookup? name = some (.builtin b) := by
  induction changes generalizing c with
  | nil => exact hb
  | cons change changes ih => exact ih (hc.changed change) (hc.changed_builtin change hb)

/-- The values of the globals are those of the list of bindings, in any order. -/
theorem Tidy.lookup?_eq_some_iff {c : Context} (hc : c.Tidy) {name : String} {v : Value} :
    c.lookup? name = some v ↔ ⟨name, v⟩ ∈ c.bindings := by
  rw [lookup?_eq]
  constructor
  · intro h
    obtain ⟨b, hb, rfl⟩ := Option.map_eq_some_iff.mp h
    obtain ⟨hmem, rfl⟩ := (findBinding?_eq_some_iff hc.distinct).mp hb
    exact hmem
  · intro h
    rw [(findBinding?_eq_some_iff hc.distinct).mpr ⟨h, rfl⟩]
    rfl

/-- From a new context on, whatever changes were tried, `ans` is the first of the globals and bound
to a plain value, no name is bound twice, and the globals are a map of names that each change
alters just as it says, if it is allowed, or else not at all. A builtin is the same ever after. -/
theorem globals_are_map {settings : List Setting} {functions : Transcendentals} {start : Context}
    (h : Context.create settings functions = .ok start) (before : List Change) :
    let c := start.after before
    c.frames = [] ∧
      (∃ v, c.bindings.head? = some ⟨"ans", v⟩ ∧ (Binding.mk "ans" v).kind = .value) ∧
      (c.bindings.map Binding.name).Nodup ∧
      (∀ name v, c.lookup? name = some v ↔ ⟨name, v⟩ ∈ c.bindings) ∧
      (∀ change : Change,
        (change.Allowed c.lookup? →
          ∃ d, change.apply c = .ok d ∧ d.lookup? = change.effect c.lookup? ∧
            c.changed change = d) ∧
        (¬ change.Allowed c.lookup? →
          (∃ stop, change.apply c = .error stop) ∧ c.changed change = c)) ∧
      ∀ name b, c.lookup? name = some (.builtin b) →
        ∀ later, (c.after later).lookup? name = some (.builtin b) := by
  intro c
  have hc : c.Tidy := (Tidy.create h).after before
  refine ⟨hc.idle, ⟨c.ans, rfl, hc.plain⟩, hc.distinct, fun _ _ => hc.lookup?_eq_some_iff,
    fun change => ?_, fun _ _ hb later => hc.after_builtin later hb⟩
  have hallowed := Change.isOk_iff_allowed hc change
  cases happly : change.apply c with
  | ok d =>
    rw [happly] at hallowed
    refine ⟨fun _ => ⟨d, rfl, (Change.becomes hc happly).lookup, changed_eq happly⟩, ?_⟩
    exact fun hnot => absurd (hallowed.mp rfl) hnot
  | error stop =>
    rw [happly] at hallowed
    refine ⟨fun h => ?_, fun _ => ⟨⟨stop, rfl⟩, changed_eq_self happly⟩⟩
    exact nomatch hallowed.mpr h

/-- After `x` got a value and `sin` kept its own, `x` can be deleted and `sin` stays a builtin. -/
theorem globals_after_assignment_are_map :
    let c := standard.after [.set "x" (.int 7), .set "sin" (.int 7)]
    Context.create [] = .ok standard ∧ c.lookup? "x" = some (.int 7) ∧
      (∃ d, Change.apply c (.delete "x") = .ok d ∧ d.lookup? = update c.lookup? "x" none ∧
        c.changed (.delete "x") = d) ∧
      (c.after [.clear, .delete "sin"]).lookup? "sin" =
        some (.builtin (.trig ⟨.sine, false, false, false⟩)) := by
  have hcreate : Context.create [] = .ok standard := rfl
  have hx : (standard.after [.set "x" (.int 7), .set "sin" (.int 7)]).lookup? "x" =
      some (.int 7) := rfl
  have hsin : (standard.after [.set "x" (.int 7), .set "sin" (.int 7)]).lookup? "sin" =
      some (.builtin (.trig ⟨.sine, false, false, false⟩)) := rfl
  obtain ⟨-, -, -, -, hchange, hbuiltin⟩ := globals_are_map hcreate
    [.set "x" (.int 7), .set "sin" (.int 7)]
  refine ⟨hcreate, hx, (hchange (.delete "x")).1 ⟨by decide, _, hx, rfl⟩, ?_⟩
  exact hbuiltin "sin" _ hsin [.clear, .delete "sin"]

end Context

end Reckon
