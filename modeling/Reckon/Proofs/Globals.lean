import Mathlib
import Reckon.Proofs.BuiltinRuns

namespace Reckon

open Function

def Value.isBuiltin : Value → Bool
  | .builtin _ => true
  | _ => false

/-- Numbers and vectors, the results that become `ans`. -/
def Value.isQuantity : Value → Bool
  | .number _ | .vector _ => true
  | _ => false

theorem Binding.kind_eq_builtin (b : Binding) : (b.kind == .builtin) = b.value.isBuiltin := by
  unfold kind
  cases b.value <;> rfl

section

variable {name other : String} {v : Value} {bs : List Binding}

theorem findBinding?_cons (b : Binding) :
    findBinding? name (b :: bs) = if b.name = name then some b else findBinding? name bs := by
  by_cases h : b.name = name <;> simp [findBinding?, h]

theorem findBinding?_rebind_self :
    findBinding? name (rebind name v bs) = (findBinding? name bs).map fun _ => ⟨name, v⟩ := by
  induction bs with
  | nil => rfl
  | cons b bs ih => by_cases hb : b.name = name <;> simp [rebind, findBinding?_cons, hb, ih]

theorem findBinding?_rebind_ne (h : other ≠ name) :
    findBinding? other (rebind name v bs) = findBinding? other bs := by
  induction bs with
  | nil => rfl
  | cons b bs ih =>
    by_cases hb : b.name = name
    · simp [rebind, findBinding?_cons, hb, h.symm]
    · simp [rebind, findBinding?_cons, hb, ih]

theorem names_rebind : (rebind name v bs).map Binding.name = bs.map Binding.name := by
  induction bs with
  | nil => rfl
  | cons b bs ih =>
    unfold rebind
    by_cases hb : b.name = name
    · simp [hb]
    · simpa [hb] using ih

theorem mem_rebind {b : Binding} (h : b ∈ rebind name v bs) : b ∈ bs ∨ b.value = v := by
  induction bs with
  | nil => cases h
  | cons b' bs ih =>
    unfold rebind at h
    split at h
    · rcases List.mem_cons.mp h with rfl | h
      · exact .inr rfl
      · exact .inl (List.mem_cons_of_mem _ h)
    · rcases List.mem_cons.mp h with rfl | h
      · exact .inl List.mem_cons_self
      · rcases ih h with h | h
        · exact .inl (List.mem_cons_of_mem _ h)
        · exact .inr h

theorem findBinding?_eq_none_iff : findBinding? name bs = none ↔ name ∉ bs.map Binding.name := by
  simp [findBinding?]

/-- Of names that are all different each binding is found. -/
theorem findBinding?_eq_some_iff {b : Binding} (h : (bs.map Binding.name).Nodup) :
    findBinding? name bs = some b ↔ b ∈ bs ∧ b.name = name := by
  induction bs with
  | nil => simp [findBinding?]
  | cons b' bs ih =>
    obtain ⟨hb', hbs⟩ := List.nodup_cons.mp h
    rw [findBinding?_cons, List.mem_cons]
    by_cases he : b'.name = name
    · have hnot : b.name = name → b ∉ bs := by
        intro hn hb
        exact hb' (List.mem_map.mpr ⟨b, hb, hn.trans he.symm⟩)
      rw [if_pos he]
      constructor
      · rintro ⟨⟩
        exact ⟨.inl rfl, he⟩
      · rintro ⟨rfl | hb, hn⟩
        · rfl
        · exact absurd hb (hnot hn)
    · rw [if_neg he, ih hbs]
      constructor
      · exact fun ⟨hb, hn⟩ => ⟨.inr hb, hn⟩
      · rintro ⟨rfl | hb, hn⟩
        · exact absurd hn he
        · exact ⟨hb, hn⟩

theorem findBinding?_eraseP_ne (h : other ≠ name) :
    findBinding? other (bs.eraseP (·.name == name)) = findBinding? other bs := by
  induction bs with
  | nil => rfl
  | cons b bs ih =>
    by_cases hb : b.name = name
    · simp [findBinding?_cons, hb, h.symm]
    · simp [findBinding?_cons, hb, ih]

/-- Of names that are all different none is left of the one that is removed. -/
theorem findBinding?_eraseP_self (h : (bs.map Binding.name).Nodup) :
    findBinding? name (bs.eraseP (·.name == name)) = none := by
  induction bs with
  | nil => rfl
  | cons b bs ih =>
    obtain ⟨hb, hbs⟩ := List.nodup_cons.mp h
    by_cases he : b.name = name
    · subst he
      simp [findBinding?_eq_none_iff.mpr hb]
    · simp [findBinding?_cons, he, ih hbs]

theorem findBinding?_filter (h : (bs.map Binding.name).Nodup) (p : Binding → Bool) :
    findBinding? name (bs.filter p) = (findBinding? name bs).filter p := by
  induction bs with
  | nil => rfl
  | cons b bs ih =>
    obtain ⟨hb, hbs⟩ := List.nodup_cons.mp h
    by_cases hp : p b = true
    · by_cases he : b.name = name
      · simp [findBinding?_cons, hp, he, Option.filter]
      · simp [findBinding?_cons, hp, he, ih hbs]
    · by_cases he : b.name = name
      · subst he
        simp [findBinding?_cons, hp, ih hbs, findBinding?_eq_none_iff.mpr hb, Option.filter]
      · simp [findBinding?_cons, hp, he, ih hbs]

end

namespace Context

/-- `d` differs from `c` only in its globals, and these have the values that `look` says. -/
structure Becomes (c d : Context) (look : String → Option Value) : Prop where
  lookup : d.lookup? = look
  frames : d.frames = c.frames
  precision : d.precision = c.precision
  maxDepth : d.maxDepth = c.maxDepth

theorem Becomes.trans {c d e : Context} {look look' : String → Option Value}
    (h : c.Becomes d look) (h' : d.Becomes e look') : c.Becomes e look' :=
  ⟨h'.lookup, h'.frames.trans h.frames, h'.precision.trans h.precision,
    h'.maxDepth.trans h.maxDepth⟩

/-- The contexts between lines: a name is bound once, to a result or builtin, `ans` is a number or
vector, and no call is active. -/
structure Orderly (c : Context) : Prop where
  sound : c.Sound
  ans : c.ans.isQuantity = true
  distinct : (c.bindings.map Binding.name).Nodup
  idle : c.frames = []

theorem global?_ans (c : Context) : c.global? "ans" = some ⟨"ans", c.ans⟩ := rfl

theorem lookup?_eq (c : Context) (name : String) :
    c.lookup? name = (findBinding? name c.bindings).map Binding.value := rfl

/-- What a global that takes a value leaves of the others. -/
theorem setGlobal_eq_ok {c d : Context} {name : String} {v : Value}
    (h : c.setGlobal name v = .ok d) :
    (name = "ans" → (Binding.mk name v).kind = .value) ∧
      d.frames = c.frames ∧ d.precision = c.precision ∧ d.maxDepth = c.maxDepth ∧
      ((c.global? name).isSome = true ∧ d.bindings = rebind name v c.bindings ∨
        c.global? name = none ∧ d.bindings = ⟨"ans", c.ans⟩ :: ⟨name, v⟩ :: c.globals) := by
  unfold setGlobal at h
  split at h
  · cases h
  · by_cases hn : name = "ans"
    · subst hn
      rw [if_pos rfl] at h
      split at h
      · next hk =>
        cases h
        exact ⟨fun _ => hk, rfl, rfl, rfl, .inl ⟨rfl, rfl⟩⟩
      · cases h
    · rw [if_neg hn] at h
      split at h
      · next hs =>
        cases h
        refine ⟨fun he => absurd he hn, rfl, rfl, rfl, .inl ⟨hs, ?_⟩⟩
        simp [bindings, rebind, Ne.symm hn]
      · next hs =>
        cases h
        exact ⟨fun he => absurd he hn, rfl, rfl, rfl, .inr ⟨by simpa using hs, rfl⟩⟩

/-- A global takes a value unless it is a builtin, or `ans` and the value is not a plain one. -/
theorem setGlobal_isOk_iff {c : Context} {name : String} {v : Value} :
    (c.setGlobal name v).isOk = true ↔
      (∀ b, c.lookup? name ≠ some (.builtin b)) ∧
        (name = "ans" → (Binding.mk name v).kind = .value) := by
  unfold setGlobal
  split
  · next b hb => simp [Except.isOk, Except.toBool, lookup?, hb]
  · next hnot =>
    have hfree : ∀ b, c.lookup? name ≠ some (.builtin b) := by
      intro b he
      obtain ⟨bound, hbound, hv⟩ := Option.map_eq_some_iff.mp he
      exact hnot bound.name b (by rw [hbound, ← hv])
    by_cases hn : name = "ans"
    · subst hn
      by_cases hk : (Binding.mk "ans" v).kind = .value
      · simp [Except.isOk, Except.toBool, hk, hfree]
      · simp [Except.isOk, Except.toBool, hk]
    · cases (c.global? name).isSome <;> simp [Except.isOk, Except.toBool, hn, hfree]

/-- A name other than `ans` that is added hides what it meant before. -/
theorem lookup?_addGlobal {c : Context} {b : Binding} (hn : b.name ≠ "ans") :
    (c.addGlobal b).lookup? = update c.lookup? b.name (some b.value) := by
  funext n
  have hadded : (c.addGlobal b).bindings = ⟨"ans", c.ans⟩ :: b :: c.globals := rfl
  rw [lookup?_eq, hadded, findBinding?_cons, findBinding?_cons]
  by_cases hb : b.name = n
  · subst hb
    rw [if_neg hn.symm, if_pos rfl, update_self]
    rfl
  · rw [if_neg hb, ← findBinding?_cons, update_of_ne (Ne.symm hb)]
    rfl

/-- Adding a name that is not in use binds no name twice. -/
theorem distinct_addGlobal {c : Context} {b : Binding}
    (hc : (c.bindings.map Binding.name).Nodup) (hb : c.lookup? b.name = none) :
    ((c.addGlobal b).bindings.map Binding.name).Nodup := by
  have hnew : b.name ∉ c.bindings.map Binding.name :=
    findBinding?_eq_none_iff.mp (Option.map_eq_none_iff.mp hb)
  have hnodup := List.nodup_cons.mpr ⟨hnew, hc⟩
  exact (List.Perm.swap _ _ _).nodup_iff.mp hnodup

theorem becomes_setGlobal {c d : Context} {name : String} {v : Value}
    (h : c.setGlobal name v = .ok d) : c.Becomes d (update c.lookup? name (some v)) := by
  obtain ⟨-, hf, hp, hm, ⟨hs, hb⟩ | ⟨hs, hb⟩⟩ := setGlobal_eq_ok h
  · refine ⟨?_, hf, hp, hm⟩
    funext n
    rw [lookup?_eq, hb]
    by_cases hn : n = name
    · obtain ⟨old, hold⟩ := Option.isSome_iff_exists.mp hs
      have hfind : findBinding? name c.bindings = some old := hold
      rw [hn, update_self, findBinding?_rebind_self, hfind]
      rfl
    · rw [update_of_ne hn, findBinding?_rebind_ne hn]
      rfl
  · have hne : name ≠ "ans" := by
      rintro rfl
      cases hs
    refine ⟨?_, hf, hp, hm⟩
    rw [← lookup?_addGlobal (b := ⟨name, v⟩) hne]
    funext n
    rw [lookup?_eq, hb]
    rfl

/-- Setting a global binds no name twice. -/
theorem distinct_setGlobal {c d : Context} {name : String} {v : Value}
    (hc : (c.bindings.map Binding.name).Nodup) (h : c.setGlobal name v = .ok d) :
    (d.bindings.map Binding.name).Nodup := by
  obtain ⟨-, -, -, -, ⟨-, hb⟩ | ⟨hs, hb⟩⟩ := setGlobal_eq_ok h
  · rw [hb, names_rebind]
    exact hc
  · rw [hb]
    exact distinct_addGlobal (b := ⟨name, v⟩) hc (Option.map_eq_none_iff.mpr hs)

theorem deleteGlobal_eq_ok {c d : Context} {name : String} (h : c.deleteGlobal name = .ok d) :
    (∃ v, c.lookup? name = some v ∧ v.isBuiltin = false) ∧
      d = { c with globals := c.globals.eraseP (·.name == name) } := by
  unfold deleteGlobal at h
  split at h
  · cases h
  · next b hnot hb =>
    cases h
    refine ⟨⟨b.value, by simp [lookup?, hb], ?_⟩, rfl⟩
    cases hv : b.value with
    | builtin k => exact (hnot b.name k (by rw [← hv])).elim
    | _ => rfl
  · cases h

/-- Where no call is active a deletion removes a global other than `ans` and the builtins. -/
theorem delete_eq_ok {c d : Context} {name : String} (hc : c.frames = [])
    (h : c.delete name = .ok d) :
    name ≠ "ans" ∧ (∃ v, c.lookup? name = some v ∧ v.isBuiltin = false) ∧
      d = { c with globals := c.globals.eraseP (·.name == name) } := by
  unfold delete at h
  rw [hc] at h
  by_cases hn : name = "ans"
  · rw [if_pos hn] at h
    cases h
  · rw [if_neg hn] at h
    exact ⟨hn, deleteGlobal_eq_ok h⟩

theorem bindings_erase {c : Context} {name : String} (hn : name ≠ "ans") :
    bindings { c with globals := c.globals.eraseP (·.name == name) } =
      c.bindings.eraseP (·.name == name) := by
  simp [bindings, Ne.symm hn]

theorem becomes_delete {c d : Context} {name : String} (hc : c.frames = [])
    (hd : (c.bindings.map Binding.name).Nodup) (h : c.delete name = .ok d) :
    c.Becomes d (update c.lookup? name none) := by
  obtain ⟨hn, -, rfl⟩ := delete_eq_ok hc h
  refine ⟨?_, rfl, rfl, rfl⟩
  funext n
  rw [lookup?_eq, bindings_erase hn]
  by_cases he : n = name
  · rw [he, update_self, findBinding?_eraseP_self hd]
    rfl
  · rw [update_of_ne he, findBinding?_eraseP_ne he]
    rfl

/-- Clearing leaves `ans` and the builtins. -/
theorem becomes_clear {c : Context} (hd : (c.bindings.map Binding.name).Nodup) :
    c.Becomes c.clear (fun n =>
      if n = "ans" then c.lookup? n else (c.lookup? n).filter Value.isBuiltin) := by
  refine ⟨?_, rfl, rfl, rfl⟩
  funext n
  have hglobals : (c.globals.map Binding.name).Nodup := (List.nodup_cons.mp hd).2
  by_cases hn : n = "ans"
  · rw [if_pos hn, hn]
    rfl
  · have hne : (⟨"ans", c.ans⟩ : Binding).name ≠ n := fun he => hn he.symm
    rw [if_neg hn, lookup?_eq, lookup?_eq, bindings, bindings, findBinding?_cons, if_neg hne,
      findBinding?_cons, if_neg hne, Context.clear, findBinding?_filter hglobals]
    cases findBinding? n c.globals with
    | none => rfl
    | some b => simp [Option.filter, Binding.kind_eq_builtin]

theorem clear_sublist (c : Context) : List.Sublist c.clear.bindings c.bindings :=
  (List.filter_sublist).cons_cons _

theorem standard_distinct : (standard.bindings.map Binding.name).Nodup := by decide +kernel

section

variable {c : Context} {name : String} {v : Value} {cause : Cause}

theorem setGlobal_kind (h : c.setGlobal name v = .error cause) :
    cause.kind.isOrdinary = true := by
  unfold setGlobal at h
  split at h
  · cases h
    rfl
  · split at h
    · split at h
      · cases h
      · cases h
        rfl
    · split at h <;> cases h

theorem deleteGlobal_kind (h : c.deleteGlobal name = .error cause) :
    cause.kind.isOrdinary = true := by
  unfold deleteGlobal at h
  split at h
  · cases h
    rfl
  · cases h
  · cases h
    rfl

theorem delete_kind (h : c.delete name = .error cause) :
    cause.kind.isOrdinary = true := by
  unfold delete at h
  split at h
  · cases h
    rfl
  · split at h
    · split at h
      · cases h
      · exact deleteGlobal_kind h
    · exact deleteGlobal_kind h

end

end Context

theorem Concrete.isQuantity {v : Value} (h : Concrete v) {name : String}
    (hk : (Binding.mk name v).kind = .value) : v.isQuantity = true := by
  cases h with
  | number | vector => rfl
  | func | builtin => cases hk

namespace Context.Orderly

variable {c d : Context} {name : String} {v : Value}

theorem setGlobal (hc : c.Orderly) (h : c.setGlobal name v = .ok d) (hv : Concrete v) :
    d.Orderly := by
  obtain ⟨hk, hf, -, -, hb⟩ := setGlobal_eq_ok h
  have hmem : ∀ b ∈ d.bindings, b ∈ c.bindings ∨ b.value = v := by
    intro b hbd
    rcases hb with ⟨-, hb⟩ | ⟨-, hb⟩
    · exact mem_rebind (hb ▸ hbd)
    · rw [hb] at hbd
      rcases List.mem_cons.mp hbd with rfl | hbd
      · exact .inl List.mem_cons_self
      · rcases List.mem_cons.mp hbd with rfl | hbd
        · exact .inr rfl
        · exact .inl (List.mem_cons_of_mem _ hbd)
  refine ⟨⟨fun b hbd => ?_, ?_⟩, ?_, distinct_setGlobal hc.distinct h, hf.trans hc.idle⟩
  · rcases hmem b hbd with hbc | rfl
    · exact hc.sound.1 b hbc
    · exact .result hv
  · rw [hf]
    exact hc.sound.2
  · have hans : some d.ans = update c.lookup? name (some v) "ans" :=
      congrFun (becomes_setGlobal h).lookup "ans"
    by_cases hn : "ans" = name
    · subst hn
      rw [update_self] at hans
      rw [Option.some.inj hans]
      exact hv.isQuantity (hk rfl)
    · rw [update_of_ne hn] at hans
      rw [Option.some.inj hans]
      exact hc.ans

/-- A number or vector can always be kept. -/
theorem keep (hc : c.Orderly) (hv : v.isQuantity = true) :
    c.setGlobal "ans" v = .ok { c with ans := v } := by
  have hkind : (Binding.mk "ans" v).kind = .value := by
    cases v with
    | number | vector => rfl
    | _ => cases hv
  unfold Context.setGlobal
  rw [global?_ans]
  split
  · next he =>
    have hans := hc.ans
    rw [(Binding.mk.inj (Option.some.inj he)).2] at hans
    cases hans
  · rw [if_pos rfl, if_pos hkind]

/-- A deletion removes one binding. -/
theorem delete (hc : c.Orderly) (h : c.delete name = .ok d) :
    d.Orderly ∧ name ≠ "ans" ∧ (c.lookup? name).isSome = true ∧
      c.Becomes d (update c.lookup? name none) := by
  have hbecomes := becomes_delete hc.idle hc.distinct h
  obtain ⟨hn, ⟨v, hv, -⟩, rfl⟩ := delete_eq_ok hc.idle h
  have hsub := List.eraseP_sublist (p := fun b : Binding => b.name == name) (l := c.bindings)
  refine ⟨⟨⟨fun b hbd => ?_, hc.sound.2⟩, hc.ans, ?_, hc.idle⟩, hn, by simp [hv], hbecomes⟩
  · rw [bindings_erase hn] at hbd
    exact hc.sound.1 b (hsub.mem hbd)
  · rw [bindings_erase hn]
    exact (hsub.map Binding.name).nodup hc.distinct

/-- Clearing leaves `ans` and the builtins. -/
theorem clear (hc : c.Orderly) :
    c.clear.Orderly ∧ c.Becomes c.clear (fun n =>
      if n = "ans" then c.lookup? n else (c.lookup? n).filter Value.isBuiltin) :=
  ⟨⟨⟨fun b hb => hc.sound.1 b (c.clear_sublist.mem hb), hc.sound.2⟩, hc.ans,
    (c.clear_sublist.map Binding.name).nodup hc.distinct, hc.idle⟩, becomes_clear hc.distinct⟩

end Context.Orderly

end Reckon
