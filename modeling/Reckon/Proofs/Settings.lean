import Reckon.Proofs.Changes

/-!
Contexts that are copied with other settings. The values that a setting gives to variables are a
map: neither whether they are all taken nor what the names mean then depends on the order of its
entries. Main statement: `clone_in_any_order`.
-/

namespace Reckon

open Function

namespace Context

theorem becomes_self (c : Context) : c.Becomes c c.lookup? := ⟨rfl, rfl, rfl, rfl⟩

/-- Gives a global the value of an entry; a refusal is a fault. -/
def take (c : Context) (entry : String × Value) : Except Stop Context :=
  match c.store entry.1 entry.2 with
  | .error (.error e) => .error (refuse e.cause)
  | other => other

theorem apply_variables (c : Context) (values : List (String × Value)) :
    c.apply (.variables values) = values.foldlM take c := rfl

def Admits (look : String → Option Value) (entry : String × Value) : Prop :=
  Change.Allowed look (.set entry.1 entry.2)

def granted (look : String → Option Value) (entry : String × Value) : String → Option Value :=
  Change.effect look (.set entry.1 entry.2)

/-- An entry has no bearing on whether one with another name is admitted. -/
theorem admits_granted_iff {look : String → Option Value} {entry other : String × Value}
    (h : other.1 ≠ entry.1) : Admits (granted look entry) other ↔ Admits look other := by
  simp only [Admits, granted, Change.Allowed, Change.effect, update_of_ne h]

/-- Entries with different names can be made in either order. -/
theorem granted_comm {entry other : String × Value} (h : entry.1 ≠ other.1)
    (look : String → Option Value) :
    granted (granted look entry) other = granted (granted look other) entry :=
  update_comm h _ _ look

theorem take_eq_ok_iff {c d : Context} {entry : String × Value} :
    c.take entry = .ok d ↔ c.store entry.1 entry.2 = .ok d := by
  unfold take
  split
  · next h => simp [h]
  · rfl

theorem take_isOk_iff {c : Context} {entry : String × Value} :
    (∃ d, c.take entry = .ok d) ↔ Admits c.lookup? entry := by
  simp only [take_eq_ok_iff, store_eq_ok_iff, exists_and_left, ← isOk_iff, setGlobal_isOk_iff,
    Admits, Change.Allowed]

theorem becomes_take {c d : Context} {entry : String × Value} (h : c.take entry = .ok d) :
    c.Becomes d (granted c.lookup? entry) :=
  becomes_setGlobal (store_eq_ok_iff.mp (take_eq_ok_iff.mp h)).2

theorem store_eq_error {c : Context} {name : String} {v : Value} {stop : Stop}
    (h : c.store name v = .error stop) : (∃ e, stop = .error e) ∨ ∃ f, stop = .fault f := by
  unfold store at h
  split at h
  all_goals cases h
  · exact .inl ⟨_, rfl⟩
  · exact .inr ⟨_, rfl⟩
  · exact .inl ⟨_, rfl⟩

theorem take_eq_error {c : Context} {entry : String × Value} {stop : Stop}
    (h : c.take entry = .error stop) : ∃ f, stop = .fault f := by
  unfold take at h
  split at h
  · cases h
    exact ⟨_, rfl⟩
  · next hother =>
    obtain ⟨e, rfl⟩ | hfault := store_eq_error h
    · exact absurd h (hother e)
    · exact hfault

section

variable {c d : Context} {values : List (String × Value)}

/-- All entries with names that differ are taken exactly if each is admitted at the start. -/
theorem variables_isOk_iff (hnames : (values.map Prod.fst).Nodup) :
    (∃ d, c.apply (.variables values) = .ok d) ↔ ∀ entry ∈ values, Admits c.lookup? entry := by
  -- the entries before one have other names, so it is admitted then as it was at the start
  rw [apply_variables]
  induction values generalizing c with
  | nil => simp
  | cons entry values ih =>
    obtain ⟨hentry, hnames⟩ := List.nodup_cons.mp hnames
    have hne : ∀ other ∈ values, other.1 ≠ entry.1 := by
      intro other hother he
      exact hentry (List.mem_map.mpr ⟨other, hother, he⟩)
    rw [List.foldlM_cons, List.forall_mem_cons, ← take_isOk_iff]
    constructor
    · rintro ⟨d, hd⟩
      obtain ⟨next, hnext, hd⟩ := bind_eq_ok_iff.mp hd
      refine ⟨⟨next, hnext⟩, fun other hother => ?_⟩
      have hadmits := (ih hnames).mp ⟨d, hd⟩ other hother
      rwa [(becomes_take hnext).lookup, admits_granted_iff (hne other hother)] at hadmits
    · rintro ⟨⟨next, hnext⟩, hadmits⟩
      rw [hnext]
      refine (ih hnames).mpr fun other hother => ?_
      rw [(becomes_take hnext).lookup, admits_granted_iff (hne other hother)]
      exact hadmits other hother

/-- The entries that were taken are granted one after another. -/
theorem becomes_variables (h : c.apply (.variables values) = .ok d) :
    c.Becomes d (values.foldl granted c.lookup?) := by
  rw [apply_variables] at h
  induction values generalizing c with
  | nil =>
    cases h
    exact becomes_self _
  | cons entry values ih =>
    rw [List.foldlM_cons] at h
    obtain ⟨next, hnext, h⟩ := bind_eq_ok_iff.mp h
    have hstep := becomes_take hnext
    have hrest := ih h
    rw [hstep.lookup] at hrest
    exact hstep.trans hrest

/-- Entries with names that differ can be made in any order. -/
theorem foldl_granted_of_perm {p q : List (String × Value)} (hperm : p.Perm q)
    (hnames : (p.map Prod.fst).Nodup) (look : String → Option Value) :
    p.foldl granted look = q.foldl granted look := by
  refine hperm.foldl_eq' (fun entry hentry other hother look => ?_) look
  by_cases he : entry.1 = other.1
  -- two entries of one name are the same entry
  · rw [List.inj_on_of_nodup_map hnames hentry hother he]
  · exact granted_comm he look

end

/-- Two copies were both refused, or their names mean the same. -/
inductive Alike : Except Stop Context → Except Stop Context → Prop
  | refused (f g : Fault) : Alike (.error (.fault f)) (.error (.fault g))
  | made {c d : Context} : c.Becomes d c.lookup? → Alike (.ok c) (.ok d)

namespace Alike

variable {c d : Context} {x y : Except Stop Context}

/-- Two changes come to the same if they start alike, are made in the same cases and leave the names
with the same meanings. -/
theorem of_becomes {made : Prop} {look : String → Option Value} (h : c.Becomes d c.lookup?)
    (hx : (∃ c', x = .ok c') ↔ made) (hy : (∃ d', y = .ok d') ↔ made)
    (hxlook : ∀ c', x = .ok c' → c.Becomes c' look)
    (hylook : ∀ d', y = .ok d' → d.Becomes d' look)
    (hxfault : ∀ stop, x = .error stop → ∃ f, stop = .fault f)
    (hyfault : ∀ stop, y = .error stop → ∃ f, stop = .fault f) : Alike x y := by
  cases x with
  | ok c' =>
    obtain ⟨d', rfl⟩ := hy.mpr (hx.mp ⟨c', rfl⟩)
    have hc := hxlook c' rfl
    have hd := hylook d' rfl
    refine .made ⟨hd.lookup.trans hc.lookup.symm, ?_, ?_, ?_⟩
    · rw [hd.frames, h.frames, hc.frames]
    · rw [hd.precision, h.precision, hc.precision]
    · rw [hd.maxDepth, h.maxDepth, hc.maxDepth]
  | error stop =>
    cases y with
    | ok d' =>
      obtain ⟨c', hc⟩ := hx.mpr (hy.mp ⟨d', rfl⟩)
      cases hc
    | error stop' =>
      obtain ⟨f, rfl⟩ := hxfault stop rfl
      obtain ⟨g, rfl⟩ := hyfault stop' rfl
      exact .refused f g

theorem bind {f g : Context → Except Stop Context} (h : Alike x y)
    (hf : ∀ {c d : Context}, c.Becomes d c.lookup? → Alike (f c) (g d)) :
    Alike (x >>= f) (y >>= g) := by
  cases h with
  | refused f g => exact .refused f g
  | made h => exact hf h

/-- What each step leaves alike, a chain of steps over a list leaves alike. -/
theorem foldlM {α : Type} {f : Context → α → Except Stop Context}
    (hf : ∀ {c d : Context} (a : α), c.Becomes d c.lookup? → Alike (f c a) (f d a))
    (h : c.Becomes d c.lookup?) (as : List α) : Alike (as.foldlM f c) (as.foldlM f d) := by
  induction as generalizing c d with
  | nil => exact .made h
  | cons a as ih =>
    rw [List.foldlM_cons, List.foldlM_cons]
    exact (hf a h).bind ih

/-- What is refused is refused with a fault. -/
theorem eq_fault {stop : Stop} (h : Alike x y) (hx : x = .error stop) : ∃ f, stop = .fault f := by
  subst hx
  cases h
  exact ⟨_, rfl⟩

theorem take (entry : String × Value) (h : c.Becomes d c.lookup?) :
    Alike (c.take entry) (d.take entry) := by
  refine of_becomes h take_isOk_iff (h.lookup ▸ take_isOk_iff) (fun _ => becomes_take)
    (fun _ hd => ?_) (fun _ => take_eq_error) (fun _ => take_eq_error)
  rw [← h.lookup]
  exact becomes_take hd

theorem register (b : Builtin) (h : c.Becomes d c.lookup?) :
    Alike ((c.register b).mapError refuse) ((d.register b).mapError refuse) := by
  have hmade : ∀ {c : Context}, (∃ c', (c.register b).mapError refuse = .ok c') ↔
      b.name ≠ "ans" ∧ c.lookup? b.name = none := by
    simp [mapError_eq_ok_iff, register_eq_ok_iff]
  have hlook : ∀ {c c' : Context}, (c.register b).mapError refuse = .ok c' →
      c.Becomes c' (update c.lookup? b.name (some (.builtin b))) := by
    intro c c' h
    obtain ⟨⟨hans, -⟩, rfl⟩ := register_eq_ok_iff.mp (mapError_eq_ok_iff.mp h)
    exact ⟨lookup?_addGlobal hans, rfl, rfl, rfl⟩
  have hfault : ∀ {c : Context} (stop : Stop), (c.register b).mapError refuse = .error stop →
      ∃ f, stop = .fault f := by
    intro c stop h
    cases hr : c.register b with
    | ok _ =>
      rw [hr] at h
      cases h
    | error cause =>
      rw [hr] at h
      cases h
      exact ⟨_, rfl⟩
  refine of_becomes h hmade (h.lookup ▸ hmade) (fun _ => hlook) (fun _ hd => ?_) hfault hfault
  rw [← h.lookup]
  exact hlook hd

/-- Each setting leaves alike what was alike. -/
theorem apply (setting : Setting) (h : c.Becomes d c.lookup?) :
    Alike (c.apply setting) (d.apply setting) := by
  match setting with
  | .variables values => exact foldlM take h values
  | .builtins bs => exact foldlM register h bs
  | .precision bits =>
    have hprecision := congrArg (fun p : Precision => { p with bits }) h.precision
    exact .made ⟨h.lookup, h.frames, hprecision, h.maxDepth⟩
  | .maxDepth n => exact .made ⟨h.lookup, h.frames, h.precision, rfl⟩
  | .noStandard => exact .made h

/-- The values of variables are taken alike in two orders. -/
theorem variables_reordered {p q : List (String × Value)} (hperm : p.Perm q)
    (hnames : (p.map Prod.fst).Nodup) (h : c.Becomes d c.lookup?) :
    Alike (c.apply (.variables p)) (d.apply (.variables q)) := by
  have hmade := variables_isOk_iff (c := d) ((hperm.map Prod.fst).nodup_iff.mp hnames)
  simp only [← hperm.mem_iff, h.lookup] at hmade
  refine of_becomes h (variables_isOk_iff hnames) hmade (fun _ => becomes_variables)
    (fun d' hd => ?_) (fun _ => (apply _ (becomes_self c)).eq_fault)
    (fun _ => (apply _ (becomes_self d)).eq_fault)
  rw [foldl_granted_of_perm hperm hnames, ← h.lookup]
  exact becomes_variables hd

end Alike

/-- A context is copied alike whatever the order in which a setting gives variables their values:
either both orders are refused, or the names mean the same after both. -/
theorem clone_in_any_order (c : Context) (before after : List Setting)
    {p q : List (String × Value)} (hperm : p.Perm q) (hnames : (p.map Prod.fst).Nodup) :
    let copy := fun values => c.clone (before ++ .variables values :: after)
    (∃ f g, copy p = .error (.fault f) ∧ copy q = .error (.fault g)) ∨
      ∃ d e, copy p = .ok d ∧ copy q = .ok e ∧ ∀ name, d.lookup? name = e.lookup? name := by
  intro copy
  have halike : Alike (copy p) (copy q) := by
    unfold copy clone
    split
    · rw [List.foldlM_append, List.foldlM_append]
      refine (Alike.foldlM Alike.apply (becomes_self c) before).bind fun h => ?_
      rw [List.foldlM_cons, List.foldlM_cons]
      exact (Alike.variables_reordered hperm hnames h).bind fun h => .foldlM .apply h after
    · exact .refused _ _
  generalize copy p = x at halike ⊢
  generalize copy q = y at halike ⊢
  cases halike with
  | refused f g => exact .inl ⟨f, g, rfl, rfl⟩
  | made h => exact .inr ⟨_, _, rfl, rfl, fun name => (congrFun h.lookup name).symm⟩

/-- Of a map with new names, a name in use and `ans` the order is seen in the list of the globals,
but not in what they mean. -/
theorem clone_in_reverse_order :
    let c := standard.addGlobal ⟨"x", .int 7⟩
    let p := [("y", .int 1), ("x", .int 2), ("ans", .int 3), ("z", .int 4)]
    p.Perm p.reverse ∧ (p.map Prod.fst).Nodup ∧
      ∃ d e, c.clone [.precision 80, .variables p] = .ok d ∧
        c.clone [.precision 80, .variables p.reverse] = .ok e ∧
        d.bindings.map Binding.name ≠ e.bindings.map Binding.name ∧
        ∀ name, d.lookup? name = e.lookup? name := by
  intro c p
  have hperm : p.Perm p.reverse := (List.reverse_perm p).symm
  have hnames : (p.map Prod.fst).Nodup := by decide
  refine ⟨hperm, hnames, ?_⟩
  obtain ⟨d, hd⟩ : ∃ d, c.clone [.precision 80, .variables p] = .ok d := ⟨_, rfl⟩
  obtain ⟨e, he⟩ : ∃ e, c.clone [.precision 80, .variables p.reverse] = .ok e := ⟨_, rfl⟩
  refine ⟨d, e, hd, he, ?_, ?_⟩
  · cases hd
    cases he
    decide
  · rcases clone_in_any_order c [.precision 80] [] hperm hnames with
      ⟨f, g, hf, -⟩ | ⟨d', e', hd', he', hlook⟩
    · cases hd.symm.trans hf
    · cases hd.symm.trans hd'
      cases he.symm.trans he'
      exact hlook

end Context

end Reckon
