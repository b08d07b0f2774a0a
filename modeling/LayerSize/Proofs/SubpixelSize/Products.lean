import LayerSize.Proofs.PixelSize.ScalingOrder

/-!
# Scaled fractional pixels

A component in fractional pixels is scaled by an exact multiplication and one rounding.  The result
is described here by distances to all the other numbers of single precision, not by the way it is
found.

* `Format.Closest`, `IsNearest.closest`: no finite number is nearer;
* `IsNearest.eq_infinity_iff`: from where on there is none to be nearest;
* `Format.NearestUnits`, `IsNearest.nearestUnits`: the numbers that are evenly spaced;
* `IsProduct`: what the product of two numbers is;
* `SubpixelSize.scale_isProduct`: scaling a size.
-/

namespace LayerSize

/-! ## Nearest by distance -/

namespace Format

variable {F : Format} {q : ℚ} {k : ℕ}

/-- The magnitude is finite, no finite one has a value nearer to the number, and if another one is
as near, then the last bit of this one's significand is zero. -/
structure Closest (F : Format) (q : ℚ) (k : ℕ) : Prop where
  finite : k < F.infinity
  least (j : ℕ) (hj : j < F.infinity) : |F.value k - q| ≤ |F.value j - q|
  even (j : ℕ) (hj : j < F.infinity) (hne : j ≠ k) (h : |F.value j - q| = |F.value k - q|) :
    k % 2 = 0

/-- Two values are equally near to a number that is halfway between them only, and then no value
lies between the two. -/
theorem IsNearest.even_of_tie {j : ℕ} (h : F.IsNearest q k) (hk : k < F.infinity) (hne : j ≠ k)
    (htie : |F.value j - q| = |F.value k - q|) : k % 2 = 0 := by
  have hmiddle : q = (F.value j + F.value k) / 2 := by
    rcases abs_eq_abs.1 htie with heq | heq
    · exact absurd (F.value_strictMono.injective (by linarith)) hne
    · linarith
  rcases Nat.lt_or_gt_of_ne hne with hlt | hgt
  · obtain ⟨i, rfl⟩ : ∃ i, k = i + 1 := ⟨k - 1, by omega⟩
    have hmono : F.value j ≤ F.value i := F.value_strictMono.monotone (by omega)
    have hle : q ≤ F.midpoint i := by
      unfold midpoint
      linarith
    rcases h.lower i rfl with hlow | ⟨-, heven⟩
    · linarith
    · exact heven
  · have hmono : F.value (k + 1) ≤ F.value j := F.value_strictMono.monotone hgt
    have hle : F.midpoint k ≤ q := by
      unfold midpoint
      linarith
    rcases h.upper hk with hhigh | ⟨-, heven⟩
    · linarith
    · exact heven

theorem IsNearest.closest (h : F.IsNearest q k) (hk : k < F.infinity) : F.Closest q k where
  finite := hk
  least j hj := h.abs_sub_le ⟨j, hj.le, rfl⟩
  even _ _ hne htie := h.even_of_tie hk hne htie

/-- Infinity is the nearest from half a spacing above the largest finite value on. -/
theorem IsNearest.eq_infinity_iff (h : F.IsNearest q k) :
    k = F.infinity ↔ F.midpoint (F.infinity - 1) ≤ q := by
  have hpos := F.infinity_pos
  constructor
  · rintro rfl
    rcases h.lower (F.infinity - 1) (by omega) with hlow | ⟨hlow, -⟩
    · exact hlow.le
    · exact hlow.le
  · intro hle
    by_contra hne
    have hk : k < F.infinity := lt_of_le_of_ne h.le_infinity hne
    have hmono : F.midpoint k ≤ F.midpoint (F.infinity - 1) := F.midpoint_mono (by omega)
    rcases h.upper hk with hhigh | ⟨hhigh, heven⟩
    · linarith
    · -- the largest finite magnitude is odd
      obtain ⟨b, hb⟩ : 2 ∣ F.infinity := F.two_dvd_binade.mul_left _
      rcases Nat.lt_or_ge k (F.infinity - 1) with hlt | hge
      · have hlow := F.midpoint_lt_of_lt hlt
        have hhalf := F.value_lt_midpoint (F.infinity - 1)
        linarith
      · omega

theorem midpoint_largest : binary32.midpoint (binary32.infinity - 1) = 2 ^ 128 - 2 ^ 103 := by
  have hsum : binary32.units (binary32.infinity - 1) + binary32.units binary32.infinity =
      (2 ^ 129 - 2 ^ 104) * 2 ^ 149 := by decide +kernel
  have hscale : binary32.scale = 149 := rfl
  have hsumq : (binary32.units (binary32.infinity - 1) + binary32.units binary32.infinity : ℚ) =
      (2 ^ 129 - 2 ^ 104) * 2 ^ 149 := by
    have hcast := congrArg (Nat.cast (R := ℚ)) hsum
    push_cast at hcast
    norm_num at hcast ⊢
    exact hcast
  have hsucc : binary32.infinity - 1 + 1 = binary32.infinity := rfl
  rw [midpoint, hsucc, value, value, ← add_div, hsumq, hscale]
  norm_num

/-! ## The evenly spaced numbers -/

/-- The magnitude counts units of the smallest positive value, and it is the whole number of them
that is nearest to the number, the even one of two. -/
structure NearestUnits (F : Format) (q : ℚ) (k : ℕ) : Prop where
  value : F.value k = k / 2 ^ F.scale
  near : |k - q * 2 ^ F.scale| ≤ 1 / 2
  even : |k - q * 2 ^ F.scale| = 1 / 2 → k % 2 = 0

theorem two_mul_binade_lt_infinity (F : Format) : 2 * F.binade < F.infinity := by
  have hexponent : 2 ^ 2 ≤ 2 ^ F.exponentBits :=
    Nat.pow_le_pow_right (by decide) F.one_lt_exponentBits
  exact Nat.mul_lt_mul_of_pos_right (by omega) F.binade_pos

theorem value_of_le (h : k ≤ 2 * F.binade) : F.value k = k / 2 ^ F.scale := by
  have hunits := F.units_binade_add (s := 0) h (.inl rfl)
  rw [Nat.zero_mul, Nat.zero_add, pow_zero, mul_one] at hunits
  rw [Format.value, hunits]

theorem midpoint_of_le (h : k ≤ F.binade) : F.midpoint k * 2 ^ F.scale = k + 1 / 2 := by
  have hb := F.binade_pos
  rw [midpoint, value_of_le (by omega), value_of_le (show k + 1 ≤ 2 * F.binade by omega)]
  push_cast
  field_simp
  ring

/-- Below the first binade a number is rounded to a whole number of units. -/
theorem IsNearest.nearestUnits (h : F.IsNearest q k) (hnonneg : 0 ≤ q)
    (hq : q < F.value F.binade) : F.NearestUnits q k := by
  have hinf := F.two_mul_binade_lt_infinity
  have hk : k ≤ F.binade := h.mono (isNearest_value (by omega)) hq.le
  have hscale : (0 : ℚ) < 2 ^ F.scale := by positivity
  have hupper : q * 2 ^ F.scale < k + 1 / 2 ∨ q * 2 ^ F.scale = k + 1 / 2 ∧ k % 2 = 0 := by
    rw [← midpoint_of_le hk]
    rcases h.upper (by omega) with hlt | ⟨rfl, heven⟩
    · exact .inl (by gcongr)
    · exact .inr ⟨rfl, heven⟩
  have hlower : k - 1 / 2 < q * 2 ^ F.scale ∨ k - 1 / 2 = q * 2 ^ F.scale ∧ k % 2 = 0 := by
    cases k with
    | zero =>
      have hunits : 0 ≤ q * 2 ^ F.scale := by positivity
      exact .inl (by push_cast; linarith)
    | succ k =>
      have hmid : ((k + 1 : ℕ) : ℚ) - 1 / 2 = F.midpoint k * 2 ^ F.scale := by
        rw [midpoint_of_le (by omega)]
        push_cast
        ring
      rw [hmid]
      rcases h.lower k rfl with hlt | ⟨rfl, heven⟩
      · exact .inl (by gcongr)
      · exact .inr ⟨rfl, heven⟩
  refine ⟨value_of_le (by omega), ?_, ?_⟩
  · rw [abs_le]
    rcases hupper with hhigh | ⟨hhigh, -⟩ <;> rcases hlower with hlow | ⟨hlow, -⟩ <;>
      constructor <;> linarith
  · intro hhalf
    rcases hupper with hhigh | ⟨-, heven⟩
    · rcases hlower with hlow | ⟨-, heven⟩
      · have hlt : |k - q * 2 ^ F.scale| < 1 / 2 := abs_lt.2 ⟨by linarith, by linarith⟩
        exact absurd hhalf hlt.ne
      · exact heven
    · exact heven

end Format

/-! ## Products -/

namespace Binary

section

variable {F : Format} {x y : Binary F}

/-- No number is the product: one of the two is no number itself, or they are zero and infinity. -/
def NoProduct (x y : Binary F) : Prop :=
  x.isNaN = true ∨ y.isNaN = true ∨ x.isZero = true ∧ y.isInfinite = true ∨
    x.isInfinite = true ∧ y.isZero = true

theorem mul_of_noProduct (h : NoProduct x y) : x.mul y = nan := by
  unfold mul
  rcases h with h | h | ⟨hx, hy⟩ | ⟨hx, hy⟩
  · simp [h]
  · simp [h]
  · simp [hx, hy]
  · simp [hx, hy]

theorem mul_of_isInfinite (h : ¬ NoProduct x y) (hinf : x.isInfinite = true ∨ y.isInfinite = true) :
    x.mul y = infinity (x.negative != y.negative) := by
  simp only [NoProduct, not_or, not_and, Bool.not_eq_true] at h
  obtain ⟨hx, hy, hzero, hzero'⟩ := h
  have hx0 : x.isZero = false := by
    by_contra h0
    rw [Bool.not_eq_false] at h0
    simp [isInfinite_of_isFinite (isFinite_of_isZero h0), hzero h0] at hinf
  have hy0 : y.isZero = false := by
    by_contra h0
    rw [Bool.not_eq_false] at h0
    rcases hinf with hinf | hinf
    · simp [hzero' hinf] at h0
    · simp [isInfinite_of_isFinite (isFinite_of_isZero h0)] at hinf
  unfold mul
  rcases hinf with hinf | hinf
  · simp [hx, hy, hx0, hy0, hinf]
  · simp [hx, hy, hx0, hy0, hinf]

end

/-- What the product of two numbers of single precision is.  It is no number if there is none, and
infinite if one of the two is, or if the exact product is too large; otherwise it is the number
closest to the exact product, rounded once, also where the numbers are evenly spaced.  The sign is
the product of the signs. -/
inductive IsProduct (x y : Binary binary32) : Binary binary32 → Prop where
  | notANumber {z : Binary binary32} (h : NoProduct x y) (hz : z.isNaN = true) : IsProduct x y z
  | infinite (h : ¬ NoProduct x y) (hinf : x.isInfinite = true ∨ y.isInfinite = true) :
      IsProduct x y (infinity (x.negative != y.negative))
  | tooLarge (hx : x.isFinite = true) (hy : y.isFinite = true)
      (h : 2 ^ 128 - 2 ^ 103 ≤ |x.value| * |y.value|) :
      IsProduct x y (infinity (x.negative != y.negative))
  | finite {z : Binary binary32} (hx : x.isFinite = true) (hy : y.isFinite = true)
      (h : |x.value| * |y.value| < 2 ^ 128 - 2 ^ 103)
      (sign : z.negative = (x.negative != y.negative))
      (closest : binary32.Closest (|x.value| * |y.value|) z.magnitude)
      (subnormal : |x.value| * |y.value| < 1 / 2 ^ 126 →
        binary32.NearestUnits (|x.value| * |y.value|) z.magnitude) : IsProduct x y z

variable {x y : Binary binary32}

theorem value_binade : binary32.value binary32.binade = 1 / 2 ^ 126 := by
  have hbinade : binary32.binade = 2 ^ 23 := rfl
  have hscale : binary32.scale = 149 := rfl
  rw [Format.value_of_le (by omega), hbinade, hscale]
  norm_num

theorem isProduct_of_isFinite (hx : x.isFinite = true) (hy : y.isFinite = true) :
    IsProduct x y (x.mul y) := by
  have hnonneg : 0 ≤ |x.value| * |y.value| := by positivity
  have hsign : (x.mul y).negative = (x.negative != y.negative) := by rw [mul_of_isFinite hx hy]
  have hnear : binary32.IsNearest (|x.value| * |y.value|) (x.mul y).magnitude := by
    rw [mul_of_isFinite hx hy, abs_value, abs_value]
    exact binary32.isNearest_product _ _
  have hinfinity := hnear.eq_infinity_iff
  rw [Format.midpoint_largest] at hinfinity
  rcases le_or_gt (2 ^ 128 - 2 ^ 103) (|x.value| * |y.value|) with hlarge | hsmall
  · rw [eq_infinity_of_magnitude (hinfinity.2 hlarge), hsign]
    exact .tooLarge hx hy hlarge
  · have hlt : (x.mul y).magnitude < binary32.infinity :=
      lt_of_le_of_ne hnear.le_infinity fun heq => hsmall.not_ge (hinfinity.1 heq)
    refine .finite hx hy hsmall hsign (hnear.closest hlt) fun hsub => ?_
    exact hnear.nearestUnits hnonneg (by rwa [value_binade])

theorem isProduct_mul (x y : Binary binary32) : IsProduct x y (x.mul y) := by
  by_cases h : NoProduct x y
  · rw [mul_of_noProduct h]
    exact .notANumber h isNaN_nan
  · by_cases hinf : x.isInfinite = true ∨ y.isInfinite = true
    · rw [mul_of_isInfinite h hinf]
      exact .infinite h hinf
    · simp only [NoProduct, not_or, Bool.not_eq_true] at h hinf
      exact isProduct_of_isFinite (isFinite_iff.2 ⟨h.1, hinf.1⟩) (isFinite_iff.2 ⟨h.2.1, hinf.2⟩)

end Binary

/-! ## Sizes -/

/-- Each component is multiplied by the factor and rounded once. -/
theorem SubpixelSize.scale_isProduct (s : SubpixelSize) (factor : Binary binary32) :
    Binary.IsProduct s.width factor (s.scale factor).width ∧
      Binary.IsProduct s.height factor (s.scale factor).height :=
  ⟨Binary.isProduct_mul s.width factor, Binary.isProduct_mul s.height factor⟩

/-- Half of the number after the least normal one is halfway between two numbers with fewer bits. -/
example : (⟨false, 0x00800001, by decide⟩ : Binary binary32).mul ⟨true, 0x3f000000, by decide⟩ =
    ⟨true, 0x00400000, by decide⟩ := by decide +kernel

end LayerSize
