import Mathlib.Data.List.Forall2

namespace Reckon

variable {ε α β : Type}

@[simp] theorem ok_bind (a : α) (f : α → Except ε β) : (Except.ok a >>= f) = f a := rfl

@[simp] theorem error_bind (e : ε) (f : α → Except ε β) : (Except.error e >>= f) = .error e := rfl

@[simp] theorem pure_eq_ok (a : α) : (pure a : Except ε α) = .ok a := rfl

/-- A chain of two computations comes to an end exactly if both do. -/
theorem bind_eq_ok_iff {x : Except ε α} {f : α → Except ε β} {b : β} :
    (x >>= f) = .ok b ↔ ∃ a, x = .ok a ∧ f a = .ok b := by
  cases x with
  | ok a => simp
  | error e => simp

/-- A chain of two computations stops where one of them does. -/
theorem bind_eq_error_iff {x : Except ε α} {f : α → Except ε β} {e : ε} :
    (x >>= f) = .error e ↔ x = .error e ∨ ∃ a, x = .ok a ∧ f a = .error e := by
  cases x with
  | ok a => simp
  | error e => simp

theorem isOk_iff {x : Except ε α} : x.isOk = true ↔ ∃ a, x = .ok a := by
  cases x <;> simp [Except.isOk, Except.toBool]

theorem isOk_mapError {ε' : Type} {f : ε → ε'} {x : Except ε α} :
    (x.mapError f).isOk = x.isOk := by
  cases x <;> rfl

theorem mapError_eq_ok_iff {ε' : Type} {f : ε → ε'} {x : Except ε α} {a : α} :
    x.mapError f = .ok a ↔ x = .ok a := by
  cases x with
  | ok b => exact ⟨fun h => congrArg Except.ok (Except.ok.inj h), fun h => congrArg _ h⟩
  | error e =>
    constructor
    all_goals
      intro h
      cases h

theorem forall₂_of_mapM {f : α → Except ε β} {R : α → β → Prop} {as : List α} {bs : List β}
    (h : as.mapM f = .ok bs) (hf : ∀ a ∈ as, ∀ b, f a = .ok b → R a b) :
    List.Forall₂ R as bs := by
  induction as generalizing bs with
  | nil =>
    cases h
    exact .nil
  | cons a as ih =>
    rw [List.mapM_cons] at h
    obtain ⟨b, hb, h⟩ := bind_eq_ok_iff.mp h
    obtain ⟨bs', hbs, h⟩ := bind_eq_ok_iff.mp h
    cases h
    refine .cons (hf a (by simp) b hb) ?_
    exact ih hbs fun a' ha' => hf a' (List.mem_cons_of_mem a ha')

theorem length_of_mapM {f : α → Except ε β} {as : List α} {bs : List β}
    (h : as.mapM f = .ok bs) : bs.length = as.length := by
  have hpairs : List.Forall₂ (fun a b => f a = .ok b) as bs :=
    forall₂_of_mapM h fun _ _ _ hb => hb
  exact hpairs.length_eq.symm

/-- A list is given back if each member is, from what a function makes of it. -/
theorem mapM_map_eq {g : α → β} {f : β → Except ε α} {as : List α}
    (h : ∀ a ∈ as, f (g a) = .ok a) : (as.map g).mapM f = .ok as := by
  induction as with
  | nil => rfl
  | cons a as ih =>
    rw [List.map_cons, List.mapM_cons, h a (by simp),
      ih fun b hb => h b (List.mem_cons_of_mem a hb)]
    rfl

/-- A list of things that a computation gives back is given back. -/
theorem mapM_eq_self {f : α → Except ε α} {as : List α} (h : ∀ a ∈ as, f a = .ok a) :
    as.mapM f = .ok as := by
  simpa using mapM_map_eq (g := id) h

/-- What each step keeps, a chain of steps over a list keeps. -/
theorem foldlM_keeps {f : α → β → Except ε α} {P : α → Prop} {bs : List β} {a a' : α}
    (hf : ∀ a b a', P a → f a b = .ok a' → P a') (ha : P a) (h : bs.foldlM f a = .ok a') :
    P a' := by
  induction bs generalizing a with
  | nil =>
    cases h
    exact ha
  | cons b bs ih =>
    rw [List.foldlM_cons] at h
    obtain ⟨next, hnext, h⟩ := bind_eq_ok_iff.mp h
    exact ih (hf a b next ha hnext) h

/-- What a computation gives for each member of a list. -/
theorem forall_of_mapM {f : α → Except ε β} {as : List α} {bs : List β} {P : β → Prop}
    (h : as.mapM f = .ok bs) (hf : ∀ a ∈ as, ∀ b, f a = .ok b → P b) : ∀ b ∈ bs, P b := by
  induction as generalizing bs with
  | nil =>
    cases h
    simp
  | cons a as ih =>
    rw [List.mapM_cons] at h
    obtain ⟨b, hb, h⟩ := bind_eq_ok_iff.mp h
    obtain ⟨bs', hbs, h⟩ := bind_eq_ok_iff.mp h
    cases h
    refine List.forall_mem_cons.mpr ⟨hf a (by simp) b hb, ?_⟩
    exact ih hbs fun a' ha' => hf a' (List.mem_cons_of_mem a ha')

end Reckon
