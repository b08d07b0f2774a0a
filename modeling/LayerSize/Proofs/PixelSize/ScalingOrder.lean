import LayerSize.Proofs.PixelSize.NearestPixels

/-!
# Order and sign under scaling

Scaling a component rounds three times and keeps the order each time.  An infinite factor needs no
order of its own: the product with it is rounded as if the factor were the value after the largest
finite one, also the product with zero, which is not a number and goes to zero in the end.

* `x ≤ y`, `-x`: the order of numbers, and the number with the other sign;
* `exists_nearestTo_mul`: products by any factor, for what they are rounded to;
* `scaled_le_scaled`: the order of scaled components is the order of the exact products;
* `Opposite`: negations, as far as 32 bits go;
* `scale_ordered`: scaling keeps or turns around the order, and reflects the sign of the factor.
-/

namespace LayerSize

variable {F : Format} {a b c : Int32}

/-! ## The order of numbers -/

namespace Binary

variable {x y : Binary F}

/-- The order of values.  What is not a number is not in it, and the two zeros are equal. -/
instance : LE (Binary F) := ⟨fun x y => x.isNaN = false ∧ y.isNaN = false ∧ x.rank ≤ y.rank⟩

instance : Zero (Binary F) := ⟨⟨false, 0, F.infinity_pos.trans F.infinity_lt_size⟩⟩

/-- The number with the other sign, also where it is not a number. -/
instance : Neg (Binary F) := ⟨fun x => { x with negative := !x.negative }⟩

@[simp] theorem magnitude_zero : (0 : Binary F).magnitude = 0 := rfl

@[simp] theorem value_zero : (0 : Binary F).value = 0 := F.value_zero

/-- Ranks are in the order of the exact values. -/
theorem rank_le_rank_iff : x.rank ≤ y.rank ↔ x.value ≤ y.value := by
  have hmono : ∀ j k : ℕ, F.value j ≤ F.value k ↔ j ≤ k := fun j k => F.value_strictMono.le_iff_le
  have hx := F.value_nonneg x.magnitude
  have hy := F.value_nonneg y.magnitude
  unfold rank signed value
  cases x.negative <;> cases y.negative <;> simp only [if_true, if_false, Bool.false_eq_true]
  · rw [hmono, Int.ofNat_le]
  · constructor
    · intro h
      obtain ⟨hx0, hy0⟩ : x.magnitude = 0 ∧ y.magnitude = 0 := by omega
      simp [hx0, hy0]
    · intro h
      -- both are zeros
      have hx0 := (hmono x.magnitude 0).1 (by rw [F.value_zero]; linarith)
      have hy0 := (hmono y.magnitude 0).1 (by rw [F.value_zero]; linarith)
      omega
  · exact iff_of_true (by omega) (by linarith)
  · rw [neg_le_neg_iff, neg_le_neg_iff, hmono, Int.ofNat_le]

theorem value_le_of_le (h : x ≤ y) : x.value ≤ y.value :=
  rank_le_rank_iff.1 h.2.2

theorem value_nonneg_of_le (h : 0 ≤ x) : 0 ≤ x.value := by
  simpa using value_le_of_le h

theorem value_nonpos_of_le (h : x ≤ 0) : x.value ≤ 0 := by
  simpa using value_le_of_le h

/-! ## Products by any factor -/

theorem isNearest_infinity {q : ℚ} (h : F.value F.infinity ≤ q) : F.IsNearest q F.infinity where
  le_infinity := le_rfl
  lower j hj := .inl ((F.midpoint_lt_of_lt (by omega)).trans_le h)
  upper hlt := absurd hlt (lt_irrefl _)

theorem exists_eq_infinity (hnan : x.isNaN = false) (hfinite : x.isFinite = false) :
    ∃ negative, x = infinity negative := by
  have hle : x.magnitude ≤ F.infinity := not_lt.1 (of_decide_eq_false hnan)
  have hge : F.infinity ≤ x.magnitude := not_lt.1 (of_decide_eq_false hfinite)
  exact ⟨x.negative, eq_infinity_of_magnitude (le_antisymm hle hge)⟩

theorem mul_infinity (hx : x.isFinite = true) (hzero : x.isZero = false) (negative : Bool) :
    x.mul (infinity negative) = infinity (x.negative != negative) := by
  have hinf : (infinity negative : Binary F).isInfinite = true := decide_eq_true rfl
  have hne : (infinity negative : Binary F).isZero = false :=
    decide_eq_false F.infinity_pos.ne'
  have hsign : (infinity negative : Binary F).negative = negative := rfl
  simp [mul, isNaN_of_isFinite hx, isNaN_infinity, hinf, hzero, hne, hsign]

/-- The product with an infinity is nearest to the product with the value that stands for it. -/
theorem nearestTo_mul_infinity (hx : x.isFinite = true) (hone : 1 ≤ F.value x.magnitude)
    (negative : Bool) :
    (x.mul (infinity negative)).NearestTo (x.value * (infinity negative : Binary F).value) := by
  have hzero : x.isZero = false := by
    refine decide_eq_false fun h => ?_
    rw [h, F.value_zero] at hone
    norm_num at hone
  have hle : F.value F.infinity ≤ F.value x.magnitude * F.value F.infinity :=
    le_mul_of_one_le_left (F.value_nonneg _) hone
  rw [mul_infinity hx hzero, value_mul_value]
  exact nearestTo_signed rfl (mul_nonneg (F.value_nonneg _) (F.value_nonneg _))
    (isNearest_infinity hle)

theorem value_ofInt32_zero : (ofInt32 0 : Binary binary32).value = 0 :=
  value_ofInt32_of_le (by decide)

theorem one_le_value_ofInt32 (hc : c ≠ 0) :
    1 ≤ binary32.value (ofInt32 c : Binary binary32).magnitude := by
  have hpos : 1 ≤ |c.toInt| := Int.one_le_abs fun h => hc (Int32.toInt_inj.1 h)
  have hrep : binary32.Represents (1 : ℕ) := Format.represents_nat (by decide) (by decide)
  have hle := (ofInt32_nearestTo c).isNearest.le_value hrep
    (by rw [← Int.cast_abs]; exact_mod_cast hpos)
  exact_mod_cast hle

/-- Whatever the factor, there is a number nearest to the exact product that is rounded to the
same integer as the product. -/
theorem exists_nearestTo_mul (c : Int32) {f : Binary binary32} (hf : f.isNaN = false) :
    ∃ y : Binary binary32, y.NearestTo ((ofInt32 c : Binary binary32).value * f.value) ∧
      y.roundToInt32 = ((ofInt32 c).mul f).roundToInt32 := by
  cases hfinite : f.isFinite with
  | true => exact ⟨_, nearestTo_mul (isFinite_ofInt32 c) hfinite, rfl⟩
  | false =>
    obtain ⟨negative, rfl⟩ := exists_eq_infinity hf hfinite
    by_cases hc : c = 0
    · -- not a number, which goes to zero as the exact product does
      subst hc
      have hnear : binary32.IsNearest (binary32.value 0) 0 := Format.isNearest_value (Nat.zero_le _)
      refine ⟨0, ?_, ?_⟩
      · rw [value_ofInt32_zero, zero_mul]
        exact ⟨fun _ => le_rfl, fun _ => le_rfl, by simpa using hnear⟩
      · cases negative <;> decide +kernel
    · exact ⟨_, nearestTo_mul_infinity (isFinite_ofInt32 c) (one_le_value_ofInt32 hc) negative, rfl⟩

end Binary

/-! ## The order of scaled components -/

/-- A component multiplied by a factor in single precision and rounded. -/
def scaled (c : Int32) (factor : Binary binary32) : Int32 :=
  ((Binary.ofInt32 c).mul factor).roundToInt32

theorem PixelSize.scale_eq (s : PixelSize) (factor : Binary binary32) :
    s.scale factor = ⟨scaled s.width factor, scaled s.height factor⟩ := by
  simp only [scale, ofSubpixels, SubpixelSize.scale, SubpixelSize.ofPixels, scaled]

section

variable {f g : Binary binary32}

/-- No rounding turns the order of the exact products around. -/
theorem scaled_le_scaled (hf : f.isNaN = false) (hg : g.isNaN = false)
    (h : (Binary.ofInt32 a : Binary binary32).value * f.value ≤
      (Binary.ofInt32 b : Binary binary32).value * g.value) : scaled a f ≤ scaled b g := by
  obtain ⟨y, hy, hround⟩ := Binary.exists_nearestTo_mul a hf
  obtain ⟨z, hz, hround'⟩ := Binary.exists_nearestTo_mul b hg
  rw [scaled, scaled, ← hround, ← hround', Int32.le_iff_toInt_le,
    Binary.toInt_roundToInt32 hy.isNaN, Binary.toInt_roundToInt32 hz.isNaN]
  exact clamp32_mono (halfAway_mono (hy.value_mono hz h))

theorem scaled_mono (hab : a ≤ b) (hf : 0 ≤ f) : scaled a f ≤ scaled b f :=
  scaled_le_scaled hf.2.1 hf.2.1 <| mul_le_mul_of_nonneg_right
    (Binary.value_ofInt32_mono (Int32.le_iff_toInt_le.1 hab)) (Binary.value_nonneg_of_le hf)

theorem scaled_anti (hab : a ≤ b) (hf : f ≤ 0) : scaled b f ≤ scaled a f :=
  scaled_le_scaled hf.1 hf.1 <| mul_le_mul_of_nonpos_right
    (Binary.value_ofInt32_mono (Int32.le_iff_toInt_le.1 hab)) (Binary.value_nonpos_of_le hf)

theorem scaled_mono_factor (hc : 0 ≤ c) (hfg : f ≤ g) : scaled c f ≤ scaled c g := by
  have hnonneg := Binary.value_ofInt32_mono (F := binary32) (Int32.le_iff_toInt_le.1 hc)
  rw [Binary.value_ofInt32_zero] at hnonneg
  exact scaled_le_scaled hfg.1 hfg.2.1
    (mul_le_mul_of_nonneg_left (Binary.value_le_of_le hfg) hnonneg)

theorem scaled_anti_factor (hc : c ≤ 0) (hfg : f ≤ g) : scaled c g ≤ scaled c f := by
  have hnonpos := Binary.value_ofInt32_mono (F := binary32) (Int32.le_iff_toInt_le.1 hc)
  rw [Binary.value_ofInt32_zero] at hnonpos
  exact scaled_le_scaled hfg.2.1 hfg.1
    (mul_le_mul_of_nonpos_left (Binary.value_le_of_le hfg) hnonpos)

end

/-! ## The other sign -/

/-- One integer is the negation of the other, or they are the two ends of 32 bits. -/
def Opposite (a b : Int32) : Prop :=
  b.toInt = -a.toInt ∨ a = Int32.maxValue ∧ b = Int32.minValue ∨
    a = Int32.minValue ∧ b = Int32.maxValue

namespace Binary

variable {x y : Binary F}

@[simp] theorem negative_neg (x : Binary F) : (-x).negative = !x.negative := rfl

@[simp] theorem isNaN_neg (x : Binary F) : (-x).isNaN = x.isNaN := rfl

@[simp] theorem isInfinite_neg (x : Binary F) : (-x).isInfinite = x.isInfinite := rfl

@[simp] theorem isZero_neg (x : Binary F) : (-x).isZero = x.isZero := rfl

@[simp] theorem value_neg (x : Binary F) : (-x).value = -x.value := by
  have hmag : (-x).magnitude = x.magnitude := rfl
  unfold value
  rw [hmag, negative_neg]
  cases x.negative <;> simp

theorem roundToInt32_of_isNaN (h : x.isNaN = true) : x.roundToInt32 = 0 := by
  simp [roundToInt32, h]

/-- The sign of a factor is the sign of the product, but for what is not a number. -/
theorem roundToInt32_mul_neg (x y : Binary F) :
    (x.mul (-y)).roundToInt32 = (-x.mul y).roundToInt32 := by
  have hnan : (nan : Binary F).roundToInt32 = (-nan : Binary F).roundToInt32 := by
    rw [roundToInt32_of_isNaN isNaN_nan, roundToInt32_of_isNaN ((isNaN_neg nan).trans isNaN_nan)]
  have hsign : (x.negative != !y.negative) = !(x.negative != y.negative) := by
    cases x.negative <;> cases y.negative <;> rfl
  unfold mul
  simp only [isNaN_neg, isInfinite_neg, isZero_neg, negative_neg, hsign]
  split_ifs
  · exact hnan
  · exact hnan
  · rfl
  · rfl

theorem opposite_roundToInt32_neg (x : Binary F) : Opposite x.roundToInt32 (-x).roundToInt32 := by
  cases hnan : x.isNaN with
  | true =>
    rw [roundToInt32_of_isNaN hnan, roundToInt32_of_isNaN ((isNaN_neg x).trans hnan)]
    exact .inl rfl
  | false =>
    have hround := toInt_roundToInt32 hnan
    have hround' := toInt_roundToInt32 ((isNaN_neg x).trans hnan)
    rw [value_neg, halfAway_neg] at hround'
    rw [Opposite, ← Int32.toInt_inj, ← Int32.toInt_inj, ← Int32.toInt_inj, ← Int32.toInt_inj,
      Int32.toInt_maxValue, Int32.toInt_minValue, hround, hround']
    unfold clamp32
    omega

end Binary

theorem opposite_scaled_neg (c : Int32) (f : Binary binary32) :
    Opposite (scaled c f) (scaled c (-f)) := by
  rw [scaled, scaled, Binary.roundToInt32_mul_neg]
  exact Binary.opposite_roundToInt32_neg _

/-! ## Sizes -/

/-- Components are scaled one by one.  A factor that is not negative keeps their order and one that
is not positive turns it around, infinite factors and both zeros included.  A greater factor gives
no less of a component that is not negative, and no more of one that is not positive.  The factor
with the other sign gives the opposite. -/
theorem PixelSize.scale_ordered :
    (∀ (s : PixelSize) (f : Binary binary32),
        s.scale f = ⟨scaled s.width f, scaled s.height f⟩) ∧
      (∀ (a b : Int32) (f : Binary binary32), a ≤ b →
        (0 ≤ f → scaled a f ≤ scaled b f) ∧ (f ≤ 0 → scaled b f ≤ scaled a f)) ∧
      (∀ (c : Int32) (f g : Binary binary32), f ≤ g →
        (0 ≤ c → scaled c f ≤ scaled c g) ∧ (c ≤ 0 → scaled c g ≤ scaled c f)) ∧
      ∀ (c : Int32) (f : Binary binary32), Opposite (scaled c f) (scaled c (-f)) := by
  refine ⟨PixelSize.scale_eq, ?_, ?_, opposite_scaled_neg⟩
  · intro a b f hab
    exact ⟨scaled_mono hab, scaled_anti hab⟩
  · intro c f g hfg
    exact ⟨fun hc => scaled_mono_factor hc hfg, fun hc => scaled_anti_factor hc hfg⟩

/-- Also the infinities keep the order or turn it around, with all that is not zero at the ends of
32 bits and zero between them. -/
theorem PixelSize.scale_ordered_infinity :
    ((-7 : Int32) ≤ 5 ∧ (-7 : Int32) ≤ 0 ∧ (0 : Int32) ≤ 5) ∧
      ((0 : Binary binary32) ≤ .infinity false ∧ .infinity true ≤ (0 : Binary binary32)) ∧
      scaled (-7) (.infinity false) ≤ scaled 5 (.infinity false) ∧
      scaled 5 (.infinity true) ≤ scaled (-7) (.infinity true) ∧
      scaled 5 (.infinity true) ≤ scaled 5 0 ∧ scaled (-7) 0 ≤ scaled (-7) (.infinity true) := by
  have hsizes : (-7 : Int32) ≤ 5 ∧ (-7 : Int32) ≤ 0 ∧ (0 : Int32) ≤ 5 := by decide
  have hhigh : (0 : Binary binary32) ≤ .infinity false := ⟨rfl, rfl, by decide⟩
  have hlow : .infinity true ≤ (0 : Binary binary32) := ⟨rfl, rfl, by decide⟩
  exact ⟨hsizes, ⟨hhigh, hlow⟩, (scale_ordered.2.1 _ _ _ hsizes.1).1 hhigh,
    (scale_ordered.2.1 _ _ _ hsizes.1).2 hlow, (scale_ordered.2.2.1 _ _ _ hlow).1 hsizes.2.2,
    (scale_ordered.2.2.1 _ _ _ hlow).2 hsizes.2.1⟩

end LayerSize
