import LayerSize.Proofs.Binary.Neighbours
import LayerSize.Proofs.PixelSize.Outcomes

/-!
# Signed values

Exact numbers with their sign, and the number of a format that is nearest to one of them.  Sign
and absolute value do not interfere, so what holds of the numbers that are not negative is
reflected to the others.

* `Numeral.value`: the exact number that a numeral denotes;
* `Binary.NearestTo`: the number of a format that is nearest to an exact number;
* `NearestTo.nonneg_or_nonpos`: the two cases of sign;
* `NearestTo.value_mono`, `NearestTo.abs_sub_le`: rounding keeps the order, and no value is nearer;
* `nearestTo_mul`: products are the numbers nearest to the exact ones;
* `wholePart_neg`, `wholePart_of_nonneg`: whole parts of signed numbers.
-/

namespace LayerSize

variable {F : Format} {q r : ℚ} {x y : Binary F}

/-! ## Numerals -/

/-- The exact number that a numeral denotes. -/
def Numeral.value (n : Numeral) : ℚ := if n.negative then -n.decimal.value else n.decimal.value

theorem Decimal.value_nonneg (d : Decimal) : 0 ≤ d.value := by
  unfold value
  positivity

theorem Numeral.abs_value (n : Numeral) : |n.value| = n.decimal.value := by
  have hnonneg := n.decimal.value_nonneg
  unfold Numeral.value
  split
  · rw [abs_neg, abs_of_nonneg hnonneg]
  · exact abs_of_nonneg hnonneg

/-! ## The nearest number -/

namespace Binary

theorem abs_value (x : Binary F) : |x.value| = F.value x.magnitude := by
  have hnonneg := F.value_nonneg x.magnitude
  unfold value
  split
  · rw [abs_neg, abs_of_nonneg hnonneg]
  · exact abs_of_nonneg hnonneg

/-- Sign and value tell all numbers apart. -/
theorem eq_of_value_eq (hs : x.negative = y.negative) (hv : x.value = y.value) : x = y := by
  have hmag : F.value x.magnitude = F.value y.magnitude := by
    rw [← abs_value, ← abs_value, hv]
  obtain ⟨s, k, hk⟩ := x
  obtain ⟨s', k', hk'⟩ := y
  obtain rfl : s = s' := hs
  obtain rfl : k = k' := F.value_strictMono.injective hmag
  rfl

theorem eq_infinity_of_magnitude (h : x.magnitude = F.infinity) : x = infinity x.negative := by
  obtain ⟨negative, k, hk⟩ := x
  obtain rfl : k = F.infinity := h
  rfl

/-- The number is the nearest of its format: it has the sign of the exact number, and the
magnitude that is nearest to its absolute value.  A zero may have either sign. -/
structure NearestTo (x : Binary F) (q : ℚ) : Prop where
  nonpos : x.negative = true → q ≤ 0
  nonneg : x.negative = false → 0 ≤ q
  isNearest : F.IsNearest |q| x.magnitude

namespace NearestTo

/-- An exact number is rounded as its absolute value is, and keeps its sign. -/
theorem nonneg_or_nonpos (h : x.NearestTo q) :
    (0 ≤ q ∧ x.value = F.value x.magnitude ∧ F.IsNearest q x.magnitude) ∨
      (0 ≤ -q ∧ x.value = -F.value x.magnitude ∧ F.IsNearest (-q) x.magnitude) := by
  have hnear := h.isNearest
  cases hs : x.negative with
  | false =>
    have hq := h.nonneg hs
    rw [abs_of_nonneg hq] at hnear
    exact .inl ⟨hq, by simp [value, hs], hnear⟩
  | true =>
    have hq := h.nonpos hs
    rw [abs_of_nonpos hq] at hnear
    exact .inr ⟨neg_nonneg.2 hq, by simp [value, hs], hnear⟩

theorem isNaN (h : x.NearestTo q) : x.isNaN = false :=
  decide_eq_false h.isNearest.le_infinity.not_gt

/-- A value of the format is kept. -/
theorem value_eq (h : x.NearestTo q) (hq : F.Represents |q|) : x.value = q := by
  rcases h.nonneg_or_nonpos with ⟨hnonneg, hx, hnear⟩ | ⟨hnonneg, hx, hnear⟩
  · rw [abs_of_nonneg hnonneg] at hq
    rw [hx, hnear.value_eq hq]
  · rw [abs_of_nonpos (neg_nonneg.1 hnonneg)] at hq
    rw [hx, hnear.value_eq hq, neg_neg]

/-- There is one nearest value. -/
theorem value_unique (h : x.NearestTo q) (h' : y.NearestTo q) : x.value = y.value := by
  have hmag : x.magnitude = y.magnitude := h.isNearest.unique h'.isNearest
  rcases h.nonneg_or_nonpos with ⟨hq, hx, hnear⟩ | ⟨hq, hx, hnear⟩ <;>
    rcases h'.nonneg_or_nonpos with ⟨hq', hy, -⟩ | ⟨hq', hy, -⟩
  · rw [hx, hy, hmag]
  · -- only zero has both signs
    obtain rfl : q = 0 := by linarith
    have hzero : F.value x.magnitude = 0 := hnear.value_eq ⟨0, Nat.zero_le _, F.value_zero⟩
    rw [hx, hy, ← hmag, hzero, neg_zero]
  · obtain rfl : q = 0 := by linarith
    have hzero : F.value x.magnitude = -0 := hnear.value_eq ⟨0, Nat.zero_le _, by simp⟩
    rw [hx, hy, ← hmag, hzero, neg_zero, neg_zero]
  · rw [hx, hy, hmag]

/-- Rounding keeps the order. -/
theorem value_mono (h : x.NearestTo q) (h' : y.NearestTo r) (hqr : q ≤ r) : x.value ≤ y.value := by
  have hx0 := F.value_nonneg x.magnitude
  have hy0 := F.value_nonneg y.magnitude
  rcases h.nonneg_or_nonpos with ⟨hq, hx, hnear⟩ | ⟨hq, hx, hnear⟩ <;>
    rcases h'.nonneg_or_nonpos with ⟨hr, hy, hnear'⟩ | ⟨hr, hy, hnear'⟩
  · rw [hx, hy]
    exact F.value_strictMono.monotone (hnear.mono hnear' hqr)
  · obtain rfl : q = r := by linarith
    exact (h.value_unique h').le
  · rw [hx, hy]
    linarith
  · rw [hx, hy]
    exact neg_le_neg (F.value_strictMono.monotone (hnear'.mono hnear (neg_le_neg hqr)))

/-- No value is nearer. -/
theorem abs_sub_le (h : x.NearestTo q) (hr : F.Represents |r|) : |x.value - q| ≤ |r - q| := by
  have hmag : |x.value - q| = |(F.value x.magnitude - |q|)| := by
    rcases h.nonneg_or_nonpos with ⟨hq, hx, -⟩ | ⟨hq, hx, -⟩
    · rw [hx, abs_of_nonneg hq]
    · rw [hx, abs_of_nonpos (neg_nonneg.1 hq), ← abs_neg]
      ring_nf
  calc |x.value - q| = |(F.value x.magnitude - |q|)| := hmag
    _ ≤ |(|r| - |q|)| := h.isNearest.abs_sub_le hr
    _ ≤ |r - q| := abs_abs_sub_abs_le r q

end NearestTo

theorem nearestTo_signed {negative : Bool} (hs : x.negative = negative) (hq : 0 ≤ q)
    (h : F.IsNearest q x.magnitude) : x.NearestTo (if negative then -q else q) := by
  cases negative with
  | false => exact ⟨by simp [hs], fun _ => hq, by simpa [abs_of_nonneg hq] using h⟩
  | true => exact ⟨fun _ => neg_nonpos.2 hq, by simp [hs], by simpa [abs_of_nonneg hq] using h⟩

/-! ## Products -/

theorem isNaN_of_isFinite (h : x.isFinite = true) : x.isNaN = false := by
  have hlt : x.magnitude < F.infinity := of_decide_eq_true h
  exact decide_eq_false hlt.not_gt

theorem isInfinite_of_isFinite (h : x.isFinite = true) : x.isInfinite = false := by
  have hlt : x.magnitude < F.infinity := of_decide_eq_true h
  exact beq_eq_false_iff_ne.2 hlt.ne

theorem isFinite_iff : x.isFinite = true ↔ x.isNaN = false ∧ x.isInfinite = false := by
  refine ⟨fun h => ⟨isNaN_of_isFinite h, isInfinite_of_isFinite h⟩, fun ⟨hnan, hinf⟩ => ?_⟩
  have hle : x.magnitude ≤ F.infinity := not_lt.1 (of_decide_eq_false hnan)
  exact decide_eq_true (lt_of_le_of_ne hle (of_decide_eq_false hinf))

theorem isFinite_of_isZero (h : x.isZero = true) : x.isFinite = true := by
  have hzero : x.magnitude = 0 := of_decide_eq_true h
  exact decide_eq_true (by rw [hzero]; exact F.infinity_pos)

theorem mul_of_isFinite (hx : x.isFinite = true) (hy : y.isFinite = true) :
    x.mul y = ⟨x.negative != y.negative, F.product x.magnitude y.magnitude,
      F.nearest_lt_size _ _⟩ := by
  simp [mul, isNaN_of_isFinite hx, isNaN_of_isFinite hy, isInfinite_of_isFinite hx,
    isInfinite_of_isFinite hy]

theorem value_mul_value (x y : Binary F) : x.value * y.value =
    if x.negative != y.negative then -(F.value x.magnitude * F.value y.magnitude)
    else F.value x.magnitude * F.value y.magnitude := by
  unfold value
  cases x.negative <;> cases y.negative <;> simp

/-- Products are exact before they are rounded. -/
theorem nearestTo_mul (hx : x.isFinite = true) (hy : y.isFinite = true) :
    (x.mul y).NearestTo (x.value * y.value) := by
  have hnear : F.IsNearest (F.value x.magnitude * F.value y.magnitude) (x.mul y).magnitude := by
    rw [mul_of_isFinite hx hy]
    exact F.isNearest_product _ _
  have hsign : (x.mul y).negative = (x.negative != y.negative) := by
    rw [mul_of_isFinite hx hy]
  rw [value_mul_value]
  exact nearestTo_signed hsign (mul_nonneg (F.value_nonneg _) (F.value_nonneg _)) hnear

end Binary

theorem Numeral.nearestTo_nearest (F : Format) (n : Numeral) : (n.nearest F).NearestTo n.value :=
  Binary.nearestTo_signed rfl n.decimal.value_nonneg (Decimal.isNearest_nearest F n.decimal)

/-! ## Whole parts -/

theorem wholePart_of_nonneg (h : 0 ≤ q) : wholePart q = ⌊q⌋ := if_neg (not_lt.2 h)

@[simp] theorem wholePart_neg (q : ℚ) : wholePart (-q) = -wholePart q := by
  unfold wholePart
  rcases lt_trichotomy q 0 with h | rfl | h
  · rw [if_neg (by linarith), if_pos h, Int.floor_neg]
  · simp
  · rw [if_pos (by linarith), if_neg h.not_gt, Int.ceil_neg]

/-- The decimal without its fraction. -/
def Decimal.whole (d : Decimal) : ℕ :=
  d.coefficient * 10 ^ d.exponent.toNat / 10 ^ (-d.exponent).toNat

theorem Decimal.whole_ofNat (n x : ℕ) : Decimal.whole ⟨n, .ofNat x⟩ = n * 10 ^ x := by
  simp [Decimal.whole]

theorem Decimal.whole_negSucc (n x : ℕ) : Decimal.whole ⟨n, .negSucc x⟩ = n / 10 ^ (x + 1) := by
  simp [Decimal.whole]

theorem Decimal.floor_value (d : Decimal) : ⌊d.value⌋ = d.whole := by
  rw [Decimal.value_eq_div, Rat.floor_natCast_div_natCast]
  rfl

theorem Numeral.wholePart_value (n : Numeral) :
    wholePart n.value = signed n.negative n.decimal.whole := by
  have hnonneg := wholePart_of_nonneg n.decimal.value_nonneg
  unfold Numeral.value signed
  cases n.negative with
  | false => simp [hnonneg, Decimal.floor_value]
  | true => simp [hnonneg, Decimal.floor_value]

@[simp] theorem wholePart_intCast (n : ℤ) : wholePart n = n := by
  simp [wholePart]

end LayerSize
