import Reckon.Proofs.Faithful

/-!
The form of the trees that text without special syntax is read as, with the reals in them, and that
such trees come out as text. Main statement: `Reading.parse_wellFormed`.
-/

namespace Reckon

namespace Double

open Float.Model Float.Model.UnpackedFloat

/-- Numbers whose sign, if they have one, is positive. -/
def Unsigned : UnpackedFloat → Prop
  | .notANumber => True
  | .infinity s | .zero s | .finite s _ _ _ => s = .positive

theorem unpackSign_packComponents (s : Sign) (e : BitVec 11) (m : BitVec 52) :
    unpackSign (packComponents .binary64 s e m) = s.toBitVec := by
  have hbit : (s.toBitVec ++ e ++ m).getLsbD 63 = s.toBitVec[0] := by
    rw [BitVec.getLsbD_append, if_neg (by decide), BitVec.getLsbD_append, if_neg (by decide)]
    exact BitVec.getLsbD_eq_getElem (by decide)
  ext i hi
  obtain rfl : i = 0 := by omega
  simpa [unpackSign, packComponents, -BitVec.getLsbD_eq_getElem] using hbit

theorem unsigned_unpack {b : BitVec 64} (h : @unpackSign .binary64 b = 0#1) :
    Unsigned (UnpackedFloat.unpack .binary64 b) := by
  have hsign : Sign.ofBitVec (@unpackSign .binary64 b) = .positive := by
    rw [h]
    rfl
  unfold UnpackedFloat.unpack
  dsimp only
  split
  · split
    · exact hsign
    · trivial
  · split
    · split
      · exact hsign
      · exact hsign
    · exact hsign

theorem unpackSign_pack {x : UnpackedFloat} (h : Unsigned x) :
    unpackSign (UnpackedFloat.pack .binary64 x) = 0#1 := by
  have hcomponents : ∀ s e m, s = .positive →
      unpackSign (packComponents .binary64 s e m) = 0#1 := by
    rintro s e m rfl
    exact unpackSign_packComponents .positive e m
  cases x with
  | notANumber => exact hcomponents _ _ _ rfl
  | infinity s => exact hcomponents _ _ _ h
  | zero s => exact hcomponents _ _ _ h
  | finite s m e hm =>
    unfold UnpackedFloat.pack
    dsimp only
    split
    · exact hcomponents _ _ _ h
    · split
      · exact hcomponents _ _ _ h
      · exact hcomponents _ _ _ h

theorem zero_le_of_unsigned {x : UnpackedFloat} (h : Unsigned x) (hfinite : x.isFinite = true) :
    (UnpackedFloat.zero .positive).le x = true := by
  cases x with
  | notANumber => cases hfinite
  | infinity s => cases hfinite
  | zero s => rfl
  | finite s m e hm =>
    cases h
    rfl

/-- A finite double without the sign bit is not negative. -/
theorem zero_le_ofBits {bits : UInt64} (h : bits.toNat < signBit)
    (hfinite : (Float.ofBits bits).isFinite = true) : 0 ≤ Float.ofBits bits := by
  have hsign : @unpackSign .binary64 bits.toBitVec = 0#1 := by
    apply BitVec.eq_of_toNat_eq
    change (bits.toNat >>> 63) % 2 = 0
    rw [Nat.shiftRight_eq_div_pow, Nat.div_eq_of_lt (by exact h)]
  have hunsigned : Unsigned (Float.ofBits bits).toModel.unpack :=
    unsigned_unpack (unpackSign_pack (unsigned_unpack hsign))
  change Float.le 0 (Float.ofBits bits) = true
  exact decide_eq_true (zero_le_of_unsigned hunsigned hfinite)

/-- A double without the sign bit. -/
def IsUnsigned (x : Float) : Prop := ∃ bits : UInt64, x = .ofBits bits ∧ bits.toNat < signBit

theorem IsUnsigned.zero_le {x : Float} (h : IsUnsigned x) (hfinite : x.isFinite = true) :
    0 ≤ x := by
  obtain ⟨bits, rfl, hbits⟩ := h
  exact zero_le_ofBits hbits hfinite

theorem isUnsigned_zero : IsUnsigned 0 := ⟨0, rfl, by decide⟩

theorem isUnsigned_infinite : IsUnsigned (infinite false) := ⟨0x7FF0000000000000, rfl, by decide⟩

theorem isUnsigned_signed {bits : Nat} (h : bits < signBit) : IsUnsigned (signed false bits) := by
  refine ⟨UInt64.ofNat bits, rfl, ?_⟩
  have hsize : bits < UInt64.size := h.trans (by decide)
  rwa [UInt64.toNat_ofNat_of_lt' hsize]

/-- The double nearest to a quotient of natural numbers has no sign. -/
theorem isUnsigned_nearest (num den : Nat) : IsUnsigned (nearest false num den) := by
  unfold nearest
  split
  · exact isUnsigned_signed (by decide)
  · dsimp only
    split
    · exact isUnsigned_infinite
    · next hbits => exact isUnsigned_signed (by unfold signBit; omega)

end Double

namespace Decimal

open Double

theorem isUnsigned_nearest (ds : List Char) (k : Int) : IsUnsigned (nearest ds k) := by
  unfold nearest
  dsimp only
  split
  · exact isUnsigned_zero
  · split
    · exact isUnsigned_infinite
    · exact Double.isUnsigned_nearest _ _

/-- A number is written without a sign, and so is its double. -/
theorem Literal.isUnsigned_toFloat (l : Literal) : IsUnsigned l.toFloat := by
  unfold toFloat settled?
  dsimp only
  split
  · exact isUnsigned_nearest _ _
  · exact isUnsigned_nearest _ _

end Decimal

/-- Numbers whose double, if they are reals, is finite and not negative. -/
def Number.Plain : Number → Prop
  | .real x => x.isFinite = true ∧ 0 ≤ x
  | _ => True

theorem Token.number?_plain {s : List Char} {x : Number} {n : Nat}
    (h : number? s = some (x, n)) : x.Plain := by
  have hreal : ∀ {x : Float} {n : Nat}, real? s = some (x, n) → (Number.real x).Plain := by
    intro x n hx
    obtain ⟨⟨l, m⟩, -, hx⟩ := Option.bind_eq_some_iff.mp hx
    obtain ⟨y, hy, heq⟩ := Option.map_eq_some_iff.mp hx
    cases heq
    unfold Decimal.Literal.toFloat? at hy
    dsimp only at hy
    split at hy
    · next hfinite =>
      cases hy
      exact ⟨hfinite, l.isUnsigned_toFloat.zero_le hfinite⟩
    · cases hy
  unfold number? at h
  split at h
  · next hr =>
    split at h <;> cases h
    · exact hreal hr
    · trivial
  · next hr =>
    cases h
    exact hreal hr
  · cases h
    trivial
  · cases h

theorem Cursor.number_plain {c d : Cursor} {x : Number} (h : c.number = .ok (x, d)) : x.Plain := by
  unfold number at h
  split at h
  · next hn =>
    cases h
    exact Token.number?_plain hn
  · cases h

/-- Trees that can be read, with finite reals that are not negative. -/
structure WellFormed (v : Value) : Prop where
  readable : Readable v
  plain : ∀ x, .real x ∈ v.parts → x.isFinite = true ∧ 0 ≤ x

/-- Reading keeps what holds of the reals in a tree, if it holds of those that are read. -/
theorem Cursor.keptByReading_reals {P : Float → Prop}
    (h : ∀ c d x, Cursor.number c = .ok (.real x, d) → P x) :
    KeptByReading fun v => ∀ x, .real x ∈ v.parts → P x where
  number c d x hn y hy := by
    obtain rfl : x = .real y := by simpa [Value.parts, Value.real, eq_comm] using hy
    exact h c d y hn
  minus v hv x hx := hv x (by simpa [Value.parts, Value.real, Value.int] using hx)
  binary op l r hop hl hr x hx := by
    have hmem : Value.real x ∈ l.parts ∨ Value.real x ∈ r.parts := by
      simpa [Value.parts, Value.real] using hx
    exact hmem.elim (hl x) (hr x)
  factorial v hv x hx := hv x (by simpa [Value.parts, Value.real] using hx)
  call f args hf htakes hargs x hx := by
    have hmem : Value.real x ∈ f.parts ∨ ∃ v ∈ args, Value.real x ∈ v.parts := by
      simpa [Value.parts, Value.real, Value.mem_partsAll] using hx
    rcases hmem with hmem | ⟨v, hv, hmem⟩
    · exact hf x hmem
    · exact hargs v hv x hmem
  subscript base index hb htakes hi x hx := by
    have hmem : Value.real x ∈ base.parts ∨ Value.real x ∈ index.parts := by
      simpa [Value.parts, Value.partsAll, Value.real, Value.subscript] using hx
    exact hmem.elim (hb x) (hi x)
  var name hname x hx := by simp [Value.parts, Value.real] at hx
  vector elems hlen helems x hx := by
    obtain ⟨v, hv, hmem⟩ : ∃ v ∈ elems, Value.real x ∈ v.parts := by
      simpa [Value.parts, Value.real, Value.mem_partsAll] using hx
    exact helems v hv x hmem
  func params body hparams hbody x hx := hbody x (by simpa [Value.parts, Value.real] using hx)

/-- Text without special syntax is read as a well-formed tree, whatever lines are read after it, and
the tree comes out as text. -/
theorem Reading.parse_wellFormed {r : Reading} (hr : r.specials = []) {src : String} {v : Value}
    {n : Nat} (h : r.parse src = .ok ⟨v, n⟩) :
    WellFormed v ∧ ∀ style, ∃ text, v.render style = .ok text := by
  have hreadable : Readable v := Reading.parse_readable hr h
  have hplain : ∀ x, .real x ∈ v.parts → x.isFinite = true ∧ 0 ≤ x :=
    Reading.parse_holds (Cursor.keptByReading_reals fun _ _ _ => Cursor.number_plain) hr h
  exact ⟨⟨hreadable, hplain⟩, fun style => ⟨_, hreadable.render style⟩⟩

theorem Reading.vector_continued_wellFormed :
    let v : Value := .binary .sub (.call (.var "f") [.var "x"] false) (.unary .fact (.subscript
      (.vector [.var "x", .func ["a"] (.binary .mul (.int (-1)) (.var "a"))]) (.var "k")))
    Reading.parse { lines := ["|a| -a>[k]!"] } "f(x) - <x," = .ok ⟨v, 1⟩ ∧
      WellFormed v ∧ ∀ style, ∃ text, v.render style = .ok text := by
  intro v
  have hparse : Reading.parse { lines := ["|a| -a>[k]!"] } "f(x) - <x," = .ok ⟨v, 1⟩ := by cbv
  exact ⟨hparse, Reading.parse_wellFormed rfl hparse⟩

end Reckon
