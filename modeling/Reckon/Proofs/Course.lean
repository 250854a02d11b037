import Reckon.Proofs.Concrete

namespace Reckon

/-- The stop of a watched evaluation before a modulus whose divisor wraps to zero. -/
def Stop.wrapping : Stop := .message "The divisor wraps to zero."

namespace Recur

def watchStep (ev : Recur) (c : Context) (v : Value) : Result :=
  match v with
  | .binary .mod l r => do
    let a ← ev.coerce c l
    let b ← ev.coerce c r
    if a.wrapsToZero b then .error .wrapping else arith c .mod a b
  | v => ev.evalStep Host.none c v

end Recur

/-- The watched evaluator with a bound on the depth of its steps. -/
def watcher : Nat → Recur
  | 0, _, _, _ => .error .outOfFuel
  | fuel + 1, .evaluate, c, v => Recur.watchStep (watcher fuel) c v
  | fuel + 1, .settle, c, v => Recur.settleStep Host.none (watcher fuel) c v

/-- The stops of an evaluation that is no fault: errors that a calculation may end with. -/
def Stop.Ordinary : Stop → Prop
  | .error e => e.kind.isOrdinary = true
  | .outOfFuel => True
  | _ => False

/-- What a watched computation and the computation itself come to. -/
inductive Agree {α : Type} (P : α → Prop) : Except Stop α → Except Stop α → Prop
  | value {a} : P a → Agree P (.ok a) (.ok a)
  | stop {s} : s.Ordinary → Agree P (.error s) (.error s)
  | wrap : Agree P (.error .wrapping) (.error (.fault .zeroDivisor))

/-- Computations `x` and `y` for each amount of fuel, `x` watched, agree, and `y` comes to an end
that more fuel does not change. -/
structure Tracks {α : Type} (P : α → Prop) (x y : Nat → Except Stop α) : Prop where
  agree : ∀ n, Agree P (x n) (y n)
  halts : ∃ N r, r ≠ .error .outOfFuel ∧ ∀ n, N ≤ n → y n = r

namespace Tracks

variable {α β : Type} {P Q : α → Prop} {R : β → Prop} {x y : Nat → Except Stop α}

theorem mono (h : Tracks P x y) (hpq : ∀ a, P a → Q a) : Tracks Q x y where
  agree n := by
    have ha := h.agree n
    generalize x n = u, y n = w at ha
    cases ha with
    | value hp => exact .value (hpq _ hp)
    | stop hs => exact .stop hs
    | wrap => exact .wrap
  halts := h.halts

theorem const {u w : Except Stop α} (h : Agree P u w) (hne : w ≠ .error .outOfFuel) :
    Tracks P (fun _ => u) (fun _ => w) :=
  ⟨fun _ => h, 0, w, hne, fun _ _ => rfl⟩

theorem ok {a : α} (h : P a) : Tracks P (fun _ => .ok a) (fun _ => .ok a) :=
  .const (.value h) (by simp)

theorem refuse {c : Cause} (h : c.kind.isOrdinary = true) :
    Tracks P (fun _ => Recur.refuse c) (fun _ => Recur.refuse c) :=
  .const (.stop h) (by simp [Recur.refuse, Stop.ofCause])

/-- What a computation gives is what the watched one may give. -/
theorem holds (h : Tracks P x y) {n : Nat} {a : α} (hy : y n = .ok a) : P a := by
  have ha := h.agree n
  rw [hy] at ha
  generalize x n = u at ha
  cases ha with
  | value hp => exact hp

theorem bind {f g : Nat → α → Except Stop β} (h : Tracks P x y)
    (hfg : ∀ a, P a → Tracks R (fun n => f n a) (fun n => g n a)) :
    Tracks R (fun n => x n >>= f n) (fun n => y n >>= g n) where
  agree n := by
    have ha := h.agree n
    generalize x n = u, y n = w at ha
    cases ha with
    | value hp => exact (hfg _ hp).agree n
    | stop hs => exact .stop hs
    | wrap => exact .wrap
  halts := by
    obtain ⟨N, r, hr, hN⟩ := h.halts
    cases r with
    | error s =>
      refine ⟨N, .error s, by simpa using hr, fun n hn => ?_⟩
      rw [hN n hn]
      rfl
    | ok a =>
      obtain ⟨M, r', hr', hM⟩ := (hfg a (h.holds (hN N (Nat.le_refl N)))).halts
      refine ⟨max N M, r', hr', fun n hn => ?_⟩
      rw [hN n (Nat.le_trans (Nat.le_max_left N M) hn)]
      exact hM n (Nat.le_trans (Nat.le_max_right N M) hn)

/-- A step more on both sides. -/
theorem step {x' y' : Nat → Except Stop α} (h : Tracks P x y) (hx : x' 0 = .error .outOfFuel)
    (hy : y' 0 = .error .outOfFuel) (hxs : ∀ n, x' (n + 1) = x n) (hys : ∀ n, y' (n + 1) = y n) :
    Tracks P x' y' where
  agree n := by
    cases n with
    | zero =>
      rw [hx, hy]
      exact .stop trivial
    | succ n =>
      rw [hxs, hys]
      exact h.agree n
  halts := by
    obtain ⟨N, r, hr, hN⟩ := h.halts
    refine ⟨N + 1, r, hr, fun n hn => ?_⟩
    cases n with
    | zero => omega
    | succ n =>
      rw [hys]
      exact hN n (Nat.le_of_succ_le_succ hn)

end Tracks

/-- A part of the evaluation that agrees with the watched one and halts, whatever the fuel of the
evaluator it calls back. -/
def Sure {α : Type} (P : α → Prop) (F : Recur → Except Stop α) : Prop :=
  Tracks P (fun n => F (watcher n)) (fun n => F (evaluator Host.none n))

namespace Sure

variable {α β : Type} {P Q : α → Prop} {R : β → Prop} {F : Recur → Except Stop α}

theorem mono (h : Sure P F) (hpq : ∀ a, P a → Q a) : Sure Q F := Tracks.mono h hpq

theorem ok {a : α} (h : P a) : Sure P (fun _ => .ok a) := Tracks.ok h

theorem refuse {c : Cause} (h : c.kind.isOrdinary = true) : Sure P (fun _ => Recur.refuse c) :=
  Tracks.refuse h

theorem bind {G : Recur → α → Except Stop β} (h : Sure P F)
    (hG : ∀ a, P a → Sure R (fun ev => G ev a)) : Sure R (fun ev => F ev >>= G ev) :=
  Tracks.bind h hG

theorem mapM {f : Recur → β → Except Stop α} {bs : List β}
    (h : ∀ b ∈ bs, Sure P (fun ev => f ev b)) :
    Sure (fun as => as.length = bs.length ∧ ∀ a ∈ as, P a) (fun ev => bs.mapM (f ev)) := by
  induction bs with
  | nil => exact .ok ⟨rfl, by simp⟩
  | cons b bs ih =>
    simp only [List.mapM_cons]
    refine (h b (by simp)).bind fun a ha => ?_
    refine (ih fun c hc => h c (List.mem_cons_of_mem b hc)).bind fun as has => ?_
    refine .ok ⟨by simp [has.1], fun a' ha' => ?_⟩
    rcases List.mem_cons.mp ha' with rfl | ha'
    · exact ha
    · exact has.2 a' ha'

/-- A computation without the evaluator that ends with a result or an error. -/
theorem ofLanded {x : ValueAnswer} {z : Except Cause Value} (hx : x = .ok z)
    (hz : Value.Landed z) : Sure Concrete (fun _ => Recur.ofAnswer x) := by
  subst hx
  cases z with
  | ok v => exact .ok hz
  | error c => exact .refuse hz

variable {c : Context} {v : Value} {P : Value → Prop}

theorem evaluate (h : Sure P (fun ev => ev.evalStep Host.none c v))
    (hv : ∀ l r, v ≠ .binary .mod l r) : Sure P (fun ev => ev .evaluate c v) := by
  refine Tracks.step h rfl rfl (fun n => ?_) fun n => rfl
  change Recur.watchStep (watcher n) c v = _
  unfold Recur.watchStep
  split
  · next l r => exact absurd rfl (hv l r)
  · rfl

theorem settle (h : Sure P (fun ev => ev.settleStep Host.none c v)) :
    Sure P (fun ev => ev .settle c v) :=
  Tracks.step h rfl rfl (fun _ => rfl) fun _ => rfl

/-- The one place where the watched evaluation stops by itself. -/
theorem modulus {l r : Value} (hl : Sure Concrete (fun ev => ev.coerce c l))
    (hr : Sure Concrete (fun ev => ev.coerce c r)) :
    Sure Concrete (fun ev => ev .evaluate c (.binary .mod l r)) := by
  refine Tracks.step (Tracks.bind hl fun a ha => Tracks.bind hr fun b hb => ?_) rfl rfl
    (fun _ => rfl) fun _ => rfl
  by_cases hw : a.wrapsToZero b = true
  · simp only [hw, ↓reduceIte, Recur.arith, Value.arith_wraps c.precision hw]
    exact .const .wrap (by simp [Recur.ofAnswer])
  · obtain ⟨z, hz, hland⟩ := Value.arith_landed c.precision (rfl : Op.mod.isInfix = true) ha hb
      fun _ => by simpa using hw
    simp only [hw, Bool.false_eq_true, ↓reduceIte]
    exact Sure.ofLanded hz hland

end Sure

end Reckon
