import LayerSize.Proofs.PixelSize.Rounding

/-!
# Scaling against exact products

A scaled component is rounded twice, to single precision and then to whole pixels.  All whole
numbers up to `2 ^ 24`, and all halves up to half of that, are numbers of single precision, so the
first rounding passes over none of them: it can move a product up to the half above it, which the
second one then rounds up, and do no other harm.

* `IsHalf`: halfway between two whole numbers;
* `represents_half`, `floor_le_value`, `value_le_ceil`: what the first rounding does not pass over;
* `IsNearest.round_value`: both roundings of a product that is not negative;
* `ScaledTo`: what an exact product is scaled to;
* `scale_scaledTo`: scaling against exact products.
-/

namespace LayerSize

variable {q p : ℚ} {k : ℕ} {x factor : Binary binary32} {c : Int32}

/-! ## Halves -/

/-- The number is halfway between two whole numbers. -/
def IsHalf (q : ℚ) : Prop := ∃ m : ℤ, q = m + 1 / 2

theorem IsHalf.neg (h : IsHalf q) : IsHalf (-q) := by
  obtain ⟨m, rfl⟩ := h
  exact ⟨-m - 1, by push_cast; ring⟩

@[simp] theorem isHalf_neg : IsHalf (-q) ↔ IsHalf q :=
  ⟨fun h => by simpa using h.neg, IsHalf.neg⟩

/-! ## One rounding -/

namespace Format

theorem represents_half {m : ℕ} (hm : m < 2 ^ 23) : binary32.Represents (m + 1 / 2) := by
  have h := represents_div (F := binary32) (m := 2 * m + 1) (e := 1) (by decide)
    (show 2 * m + 1 ≤ 2 ^ 24 by omega) (by decide)
  have hvalue : ((2 * m + 1 : ℕ) : ℚ) / 2 ^ 1 = m + 1 / 2 := by
    push_cast
    ring
  rwa [hvalue] at h

/-- The whole number below is not passed over. -/
theorem IsNearest.floor_le_value (h : binary32.IsNearest q k) (hnonneg : 0 ≤ q) (hq : q ≤ 2 ^ 24) :
    (⌊q⌋ : ℚ) ≤ binary32.value k := by
  obtain ⟨m, hm⟩ := Int.eq_ofNat_of_zero_le (Int.floor_nonneg.2 hnonneg)
  have hle : (m : ℚ) ≤ q := by
    have hfloor := Int.floor_le q
    rwa [hm] at hfloor
  have hmax : m ≤ 2 ^ 24 := by exact_mod_cast hle.trans hq
  rw [hm]
  exact h.le_value (represents_nat (by decide) hmax) hle

/-- The whole number above is not passed over. -/
theorem IsNearest.value_le_ceil (h : binary32.IsNearest q k) (hnonneg : 0 ≤ q) (hq : q ≤ 2 ^ 24) :
    binary32.value k ≤ ⌈q⌉ := by
  obtain ⟨m, hm⟩ := Int.eq_ofNat_of_zero_le (Int.ceil_nonneg hnonneg)
  have hle : q ≤ m := by
    have hceil := Int.le_ceil q
    rwa [hm] at hceil
  have hmax : ⌈q⌉ ≤ 2 ^ 24 := Int.ceil_le.2 (by exact_mod_cast hq)
  rw [hm] at hmax ⊢
  exact h.value_le (represents_nat (by decide) (by exact_mod_cast hmax)) hle

/-- The two halves around a number are not passed over. -/
theorem IsNearest.abs_sub_round_le (h : binary32.IsNearest q k) (hnonneg : 0 ≤ q)
    (hq : q < 2 ^ 23) : |binary32.value k - round q| ≤ 1 / 2 := by
  obtain ⟨m, hm⟩ : ∃ m : ℕ, round q = m := by
    refine Int.eq_ofNat_of_zero_le ?_
    rw [round_eq]
    exact Int.floor_nonneg.2 (by linarith)
  obtain ⟨hlow, hhigh⟩ : (m : ℚ) - 1 / 2 ≤ q ∧ q < m + 1 / 2 := by
    have hround := round_eq_iff.1 hm
    exact_mod_cast hround
  have hmax : m ≤ 2 ^ 23 := by
    have hlt : (m : ℚ) < (2 ^ 23 + 1 : ℕ) := by push_cast; linarith
    have hlt' : m < 2 ^ 23 + 1 := by exact_mod_cast hlt
    omega
  have hbelow : (m : ℚ) - 1 / 2 ≤ binary32.value k := by
    cases m with
    | zero =>
      have hvalue := binary32.value_nonneg k
      push_cast
      linarith
    | succ m =>
      have hhalf : ((m + 1 : ℕ) : ℚ) - 1 / 2 = m + 1 / 2 := by
        push_cast
        ring
      rw [hhalf] at hlow ⊢
      exact h.le_value (represents_half (by omega)) hlow
  have habove : binary32.value k ≤ m + 1 / 2 := by
    rcases hmax.lt_or_eq with hlt | rfl
    · exact h.value_le (represents_half hlt) hhigh.le
    · -- there is no half above, but a whole number that is no less than the product
      have hrep : binary32.Represents (2 ^ 23 : ℕ) := represents_nat (by decide) (by decide)
      have hle := h.value_le hrep (by exact_mod_cast hq.le)
      exact hle.trans (by linarith)
  rw [hm, abs_le]
  constructor
  · push_cast
    linarith
  · push_cast
    linarith

/-! ## Two roundings -/

/-- The second rounding agrees with rounding once, unless the first one has found a half above. -/
theorem IsNearest.round_value (h : binary32.IsNearest q k) (hnonneg : 0 ≤ q) (hq : q < 2 ^ 23) :
    round (binary32.value k) = round q ∧ ¬(IsHalf (binary32.value k) ∧ q < binary32.value k) ∨
      round (binary32.value k) = round q + 1 ∧ IsHalf (binary32.value k) ∧
        q < binary32.value k := by
  obtain ⟨hlow, hhigh⟩ := round_eq_iff.1 (rfl : round q = round q)
  obtain ⟨hbelow, habove⟩ := abs_le.1 (h.abs_sub_round_le hnonneg hq)
  rcases (show binary32.value k ≤ round q + 1 / 2 by linarith).lt_or_eq with hlt | heq
  · refine .inl ⟨round_eq_iff.2 ⟨by linarith, hlt⟩, ?_⟩
    rintro ⟨⟨m, hm⟩, hgt⟩
    -- the half would be the one below, and that is no greater than the product
    have hm' : m < round q := by
      rw [hm] at hlt
      exact_mod_cast (by linarith : (m : ℚ) < round q)
    have hle : (m : ℚ) + 1 ≤ round q := by exact_mod_cast hm'
    linarith
  · refine .inr ⟨?_, ⟨round q, heq⟩, by linarith⟩
    rw [round_eq_iff]
    push_cast
    exact ⟨by linarith, by linarith⟩

end Format

/-! ## Products of either sign -/

/-- What an exact product is scaled to: a whole number next to it, the product itself if that is
whole, and the nearest one, a half going away from zero, with one exception.  If the product is
less, up to its sign, than the nearest number of single precision, and that is a half, then this
half decides, and the result is one further from zero. -/
structure ScaledTo (p : ℚ) (n : ℤ) : Prop where
  between : |p| ≤ 2 ^ 24 → n = ⌊p⌋ ∨ n = ⌈p⌉
  whole : |p| ≤ 2 ^ 24 → ∀ m : ℤ, p = m → n = m
  nearest : |p| < 2 ^ 23 → ∃ h : Binary binary32, h.NearestTo p ∧
    (n = halfAway p ↔ ¬(IsHalf h.value ∧ |p| < |h.value|)) ∧
    (IsHalf h.value ∧ |p| < |h.value| →
      n = halfAway h.value ∧ n = halfAway p + signed h.negative 1)

namespace Binary

theorem NearestTo.halfAway_between (h : x.NearestTo p) (hp : |p| ≤ 2 ^ 24) :
    ⌊p⌋ ≤ halfAway x.value ∧ halfAway x.value ≤ ⌈p⌉ := by
  obtain ⟨hlow, hhigh⟩ : (⌊p⌋ : ℚ) ≤ x.value ∧ x.value ≤ ⌈p⌉ := by
    rcases h.nonneg_or_nonpos with ⟨hnonneg, hx, hnear⟩ | ⟨hnonneg, hx, hnear⟩
    · rw [abs_of_nonneg hnonneg] at hp
      rw [hx]
      exact ⟨hnear.floor_le_value hnonneg hp, hnear.value_le_ceil hnonneg hp⟩
    · rw [abs_of_nonpos (neg_nonneg.1 hnonneg)] at hp
      have hfloor := hnear.floor_le_value hnonneg hp
      have hceil := hnear.value_le_ceil hnonneg hp
      rw [Int.floor_neg] at hfloor
      rw [Int.ceil_neg] at hceil
      push_cast at hfloor hceil
      rw [hx]
      exact ⟨by linarith, by linarith⟩
  constructor
  · simpa using halfAway_mono hlow
  · simpa using halfAway_mono hhigh

theorem NearestTo.halfAway_value (h : x.NearestTo p) (hp : |p| < 2 ^ 23) :
    halfAway x.value = halfAway p ∧ ¬(IsHalf x.value ∧ |p| < |x.value|) ∨
      halfAway x.value = halfAway p + signed x.negative 1 ∧ IsHalf x.value ∧ |p| < |x.value| := by
  have hvalue := binary32.value_nonneg x.magnitude
  have hround := h.isNearest.round_value (abs_nonneg p) hp
  rw [abs_value]
  cases hs : x.negative with
  | false =>
    have hx : x.value = binary32.value x.magnitude := by simp [value, hs]
    have hnonneg := h.nonneg hs
    rw [abs_of_nonneg hnonneg] at hround ⊢
    rw [hx, halfAway_of_nonneg hvalue, halfAway_of_nonneg hnonneg]
    exact hround
  | true =>
    have hx : x.value = -binary32.value x.magnitude := by simp [value, hs]
    have hnonpos := h.nonpos hs
    rw [abs_of_nonpos hnonpos] at hround ⊢
    have hneg : halfAway p = -round (-p) := by
      rw [← halfAway_of_nonneg (neg_nonneg.2 hnonpos), halfAway_neg, neg_neg]
    rw [hx, halfAway_neg, halfAway_of_nonneg hvalue, hneg, isHalf_neg]
    rcases hround with ⟨hr, hne⟩ | ⟨hr, hhalf⟩
    · exact .inl ⟨by rw [hr], hne⟩
    · refine .inr ⟨?_, hhalf⟩
      rw [hr]
      simp only [signed, if_true]
      omega

/-- Products that single precision has room for are in no need of the ends of 32 bits. -/
theorem NearestTo.clamp32_halfAway (h : x.NearestTo p) (hp : |p| ≤ 2 ^ 24) :
    clamp32 (halfAway x.value) = halfAway x.value := by
  obtain ⟨hlow, hhigh⟩ := h.halfAway_between hp
  obtain ⟨hmin, hmax⟩ := abs_le.1 hp
  have hfloor : -2 ^ 24 ≤ ⌊p⌋ := Int.le_floor.2 (by exact_mod_cast hmin)
  have hceil : ⌈p⌉ ≤ 2 ^ 24 := Int.ceil_le.2 (by exact_mod_cast hmax)
  refine clamp32_of_abs_lt (abs_lt.2 ⟨?_, ?_⟩)
  · omega
  · omega

theorem NearestTo.scaledTo (h : x.NearestTo p) : ScaledTo p (clamp32 (halfAway x.value)) where
  between hp := by
    have hnext := Int.ceil_le_floor_add_one p
    have hbetween := h.halfAway_between hp
    rw [h.clamp32_halfAway hp]
    omega
  whole hp m hm := by
    have hbetween := h.halfAway_between hp
    rw [h.clamp32_halfAway hp]
    rw [hm, Int.floor_intCast, Int.ceil_intCast] at hbetween
    omega
  nearest hp := by
    have hone : signed x.negative 1 ≠ 0 := by
      cases x.negative with
      | false => decide
      | true => decide
    have hclamp := h.clamp32_halfAway (hp.le.trans (by norm_num))
    rw [hclamp]
    rcases h.halfAway_value hp with ⟨hround, hnot⟩ | ⟨hround, hexcept⟩
    · exact ⟨x, h, iff_of_true hround hnot, fun hexcept => absurd hexcept hnot⟩
    · refine ⟨x, h, iff_of_false ?_ (not_not.2 hexcept), fun _ => ⟨rfl, hround⟩⟩
      rw [hround]
      omega

theorem scaledTo_roundToInt32 (hfactor : factor.isFinite = true) (hc : |c.toInt| ≤ 2 ^ 24) :
    ScaledTo (c.toInt * factor.value) ((ofInt32 c).mul factor).roundToInt32.toInt := by
  have hnear := nearestTo_mul (isFinite_ofInt32 c) hfactor
  rw [value_ofInt32_of_le hc] at hnear
  rw [toInt_roundToInt32 hnear.isNaN]
  exact hnear.scaledTo

end Binary

/-- Components of few bits are scaled to what exact arithmetic says, but for the products just
below a half that single precision takes for the half. -/
theorem PixelSize.scale_scaledTo (s : PixelSize) (hfactor : factor.isFinite = true) :
    (|s.width.toInt| ≤ 2 ^ 24 →
      ScaledTo (s.width.toInt * factor.value) (s.scale factor).width.toInt) ∧
    (|s.height.toInt| ≤ 2 ^ 24 →
      ScaledTo (s.height.toInt * factor.value) (s.scale factor).height.toInt) := by
  simp only [scale, ofSubpixels, SubpixelSize.scale, SubpixelSize.ofPixels]
  exact ⟨Binary.scaledTo_roundToInt32 hfactor, Binary.scaledTo_roundToInt32 hfactor⟩

/-- The number of single precision just below `5 / 6`. -/
def belowFiveSixths : Binary binary32 := ⟨false, 0x3f555555, by decide⟩

/-- The products are less than `2.5` and `7.5`, and single precision takes them for these halves. -/
theorem PixelSize.scale_scaledTo_half :
    (belowFiveSixths.isFinite = true ∧ |(3 : Int32).toInt| ≤ 2 ^ 24 ∧
      |(-9 : Int32).toInt| ≤ 2 ^ 24) ∧
      ScaledTo ((3 : Int32).toInt * belowFiveSixths.value) 3 ∧
      ScaledTo ((-9 : Int32).toInt * belowFiveSixths.value) (-8) := by
  have hscale : (⟨3, -9⟩ : PixelSize).scale belowFiveSixths = ⟨3, -8⟩ := by decide +kernel
  have hfinite : belowFiveSixths.isFinite = true := by decide
  have h := PixelSize.scale_scaledTo ⟨3, -9⟩ hfinite
  rw [hscale] at h
  exact ⟨⟨hfinite, by decide, by decide⟩, h.1 (by decide), h.2 (by decide)⟩

end LayerSize
