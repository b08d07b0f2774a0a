import LayerSize.Proofs.PixelSize.Rounding

/-!
# There and back

Sizes in whole and in fractional pixels are converted into each other with a loss on both ways:
single precision does not have all integers of 32 bits, and integers have neither fractions nor
the range.  What one conversion has lost, the way back and another conversion do not lose again.

* `exists_value_ofInt32`: a number that a component is converted to is whole;
* `ofInt32_roundToInt32_of_whole`: whole numbers of 32 bits come back from the integers;
* `ofSubpixels_ofPixels_ofSubpixels`, `ofPixels_ofSubpixels_ofPixels`: the same for sizes;
* `PixelSize.scale_one`: scaling by one is this conversion and back.
-/

namespace LayerSize

variable {c : Int32} {x : Binary binary32}

namespace Binary

/-! ## Whole numbers -/

theorem isNaN_ofInt32 (c : Int32) : (ofInt32 c : Binary binary32).isNaN = false :=
  isNaN_of_isFinite (isFinite_ofInt32 c)

/-- Single precision has no fractions from `2 ^ 23` on. -/
theorem exists_int_of_le_abs_value (h : 2 ^ 23 ≤ |x.value|) : ∃ n : ℤ, x.value = n := by
  obtain ⟨n, hn⟩ := Format.exists_nat_of_binade_le (F := binary32) (k := x.magnitude) (by
    rw [← abs_value]
    exact_mod_cast h)
  unfold value
  split
  · exact ⟨-n, by rw [hn]; simp⟩
  · exact ⟨n, by rw [hn]; simp⟩

/-- The value of the greatest integer is rounded up to the first one that has not 32 bits. -/
theorem value_ofInt32_maxValue : (ofInt32 Int32.maxValue : Binary binary32).value = 2 ^ 31 := by
  have hle : 1 * 2 ^ 31 ≤ 2 ^ 2 ^ (binary32.exponentBits - 1) := by decide +kernel
  have h := binary32.value_nearest_nat (m := 1) (s := 31) (by decide) hle
  have hmag : binary32.nearest (1 * 2 ^ 31) 1 =
      (ofInt32 Int32.maxValue : Binary binary32).magnitude := by decide +kernel
  have hnonneg : (ofInt32 Int32.maxValue : Binary binary32).negative = false := rfl
  rw [hmag] at h
  rw [value, hnonneg]
  exact h.trans (by norm_num)

/-- Components are converted to whole numbers. -/
theorem exists_value_ofInt32 (c : Int32) :
    ∃ n : ℤ, (ofInt32 c : Binary binary32).value = n ∧ |n| ≤ 2 ^ 31 ∧
      ((ofInt32 c : Binary binary32).negative = true → n ≠ 0) := by
  have hlow := c.le_toInt
  have hhigh := c.toInt_lt
  by_cases hc : |c.toInt| ≤ 2 ^ 24
  · refine ⟨c.toInt, value_ofInt32_of_le hc, ?_, fun h => ?_⟩
    · omega
    · exact (of_decide_eq_true h).ne
  · have hnear := (ofInt32_nearestTo (F := binary32) c).isNearest
    have habs := abs_value (ofInt32 c : Binary binary32)
    have h24 : (2 : ℚ) ^ 24 ≤ |(c.toInt : ℚ)| := by
      rw [← Int.cast_abs]
      exact_mod_cast (not_le.1 hc).le
    have h31 : |(c.toInt : ℚ)| ≤ 2 ^ 31 := by
      rw [← Int.cast_abs]
      exact_mod_cast (abs_le.2 ⟨by omega, by omega⟩ : |c.toInt| ≤ 2 ^ 31)
    have hrep24 : binary32.Represents (2 ^ 24) := by
      exact_mod_cast Format.represents_nat (F := binary32) (m := 2 ^ 24) (by decide) le_rfl
    have hrep31 : binary32.Represents (2 ^ 31) :=
      ⟨_, binary32.nearest_le_infinity _ _, by rw [← value_ofInt32_maxValue]; rfl⟩
    have hge : (2 : ℚ) ^ 24 ≤ |(ofInt32 c : Binary binary32).value| :=
      habs ▸ hnear.le_value hrep24 h24
    have hle : |(ofInt32 c : Binary binary32).value| ≤ 2 ^ 31 :=
      habs ▸ hnear.value_le hrep31 h31
    obtain ⟨n, hn⟩ := exists_int_of_le_abs_value (le_trans (by norm_num) hge)
    rw [hn, ← Int.cast_abs] at hge hle
    have hge' : 2 ^ 24 ≤ |n| := by exact_mod_cast hge
    exact ⟨n, hn, by exact_mod_cast hle, fun _ hzero => by simp [hzero] at hge'⟩

/-! ## Back and forth -/

/-- Components that are numbers of single precision come back. -/
theorem roundToInt32_ofInt32_of_value (h : (ofInt32 c : Binary binary32).value = c.toInt) :
    (ofInt32 c : Binary binary32).roundToInt32 = c := by
  rw [← Int32.toInt_inj, toInt_roundToInt32 (isNaN_ofInt32 c), h, halfAway_intCast, clamp32_toInt]

theorem isFinite_of_abs_value_le (h : |x.value| ≤ 2 ^ 31) : x.isFinite = true := by
  have hlt : (2 : ℚ) ^ 31 < binary32.value binary32.infinity := by
    rw [Format.value_infinity]
    exact pow_lt_pow_right₀ (by norm_num) (by decide)
  rw [abs_value] at h
  exact decide_eq_true (binary32.value_strictMono.lt_iff_lt.1 (h.trans_lt hlt))

theorem isNaN_of_abs_value_le (h : |x.value| ≤ 2 ^ 31) : x.isNaN = false :=
  isNaN_of_isFinite (isFinite_of_abs_value_le h)

/-- Whole numbers of 32 bits come back from the integers, and so does the next one, from the
greatest integer. -/
theorem ofInt32_roundToInt32_of_whole {n : ℤ} (hv : x.value = n) (hn : |n| ≤ 2 ^ 31)
    (hzero : x.negative = true → n ≠ 0) : ofInt32 x.roundToInt32 = x := by
  have hle : |x.value| ≤ 2 ^ 31 := by
    rw [hv, ← Int.cast_abs]
    exact_mod_cast hn
  have hround : x.roundToInt32.toInt = clamp32 n := by
    rw [toInt_roundToInt32 (isNaN_of_abs_value_le hle), hv, halfAway_intCast]
  have hsign : x.negative = decide (n < 0) := by
    have hnonneg := binary32.value_nonneg x.magnitude
    cases hs : x.negative with
    | false =>
      have hpos : (0 : ℚ) ≤ n := by rw [← hv, value, hs]; simpa using hnonneg
      exact (decide_eq_false (not_lt.2 (by exact_mod_cast hpos))).symm
    | true =>
      have hneg : (n : ℚ) ≤ 0 := by rw [← hv, value, hs]; simpa using hnonneg
      exact (decide_eq_true (lt_of_le_of_ne (by exact_mod_cast hneg) (hzero hs))).symm
  rcases (abs_le.1 hn).2.lt_or_eq with hlt | rfl
  · have hclamp : clamp32 n = n := by
      have hlow := (abs_le.1 hn).1
      unfold clamp32
      omega
    rw [hclamp] at hround
    have hrep : binary32.Represents |(x.roundToInt32.toInt : ℚ)| := by
      rw [hround, ← hv, abs_value]
      refine ⟨x.magnitude, ?_, rfl⟩
      exact Nat.le_of_not_lt fun h => by simpa [isNaN, h] using isNaN_of_abs_value_le hle
    refine eq_of_value_eq ?_ ?_
    · rw [hsign, ← hround]
      rfl
    · rw [(ofInt32_nearestTo _).value_eq hrep, hround, hv]
  · have hmax : x.roundToInt32 = Int32.maxValue := Int32.toInt_inj.1 (by rw [hround]; rfl)
    rw [hmax]
    refine eq_of_value_eq ?_ ?_
    · rw [hsign]
      rfl
    · rw [value_ofInt32_maxValue, hv]
      norm_num

theorem ofInt32_roundToInt32_ofInt32 (c : Int32) :
    (ofInt32 (ofInt32 c : Binary binary32).roundToInt32 : Binary binary32) = ofInt32 c := by
  obtain ⟨n, hv, hn, hzero⟩ := exists_value_ofInt32 c
  exact ofInt32_roundToInt32_of_whole hv hn hzero

/-- What is not whole is small enough for its nearest integer to come back, and what is whole
comes back itself, unless it is beyond the integers of 32 bits. -/
theorem roundToInt32_ofInt32_roundToInt32 (x : Binary binary32) :
    (ofInt32 x.roundToInt32 : Binary binary32).roundToInt32 = x.roundToInt32 := by
  cases hnan : x.isNaN with
  | true =>
    have hround : x.roundToInt32 = 0 := by simp [roundToInt32, hnan]
    rw [hround]
    decide +kernel
  | false =>
    have hround := toInt_roundToInt32 hnan
    rcases lt_or_ge |x.value| (2 ^ 23) with hsmall | hlarge
    · obtain ⟨hlow, hhigh⟩ := abs_lt.1 hsmall
      have hmin : halfAway ((-2 ^ 23 : ℤ) : ℚ) ≤ halfAway x.value :=
        halfAway_mono (by push_cast; exact hlow.le)
      have hmax : halfAway x.value ≤ halfAway ((2 ^ 23 : ℤ) : ℚ) :=
        halfAway_mono (by push_cast; exact hhigh.le)
      rw [halfAway_intCast] at hmin hmax
      refine roundToInt32_ofInt32_of_value (value_ofInt32_of_le ?_)
      rw [hround, clamp32, abs_le]
      omega
    · obtain ⟨n, hn⟩ := exists_int_of_le_abs_value hlarge
      rw [hn, halfAway_intCast] at hround
      rcases le_or_gt |n| (2 ^ 31) with hle | hgt
      · rw [ofInt32_roundToInt32_of_whole hn hle]
        intro _ hzero
        rw [hn, hzero] at hlarge
        norm_num at hlarge
      · -- beyond the integers of 32 bits there are the two ends of them
        have hends : x.roundToInt32 = Int32.maxValue ∨ x.roundToInt32 = Int32.minValue := by
          rw [← Int32.toInt_inj, ← Int32.toInt_inj, hround, Int32.toInt_maxValue,
            Int32.toInt_minValue, clamp32]
          rcases lt_abs.1 hgt with h | h
          · omega
          · omega
        rcases hends with h | h
        · rw [h]
          decide +kernel
        · rw [h]
          decide +kernel

end Binary

/-! ## Sizes -/

namespace PixelSize

theorem ofSubpixels_ofPixels_ofSubpixels (s : SubpixelSize) :
    ofSubpixels (.ofPixels (ofSubpixels s)) = ofSubpixels s := by
  simp [ofSubpixels, SubpixelSize.ofPixels, Binary.roundToInt32_ofInt32_roundToInt32]

theorem ofPixels_ofSubpixels_ofPixels (s : PixelSize) :
    SubpixelSize.ofPixels (ofSubpixels (.ofPixels s)) = .ofPixels s := by
  simp [ofSubpixels, SubpixelSize.ofPixels, Binary.ofInt32_roundToInt32_ofInt32]

end PixelSize

/-! ## Scaling by one -/

namespace Binary

/-- The factor that changes no size in fractional pixels. -/
def one : Binary binary32 := ofInt32 1

theorem value_one : one.value = 1 := by
  have h : (ofInt32 1 : Binary binary32).value = (1 : Int32).toInt := value_ofInt32_of_le (by decide)
  simpa [one] using h

@[simp] theorem mul_one_of_isFinite (hx : x.isFinite = true) : x.mul one = x := by
  have hone : one.isFinite = true := isFinite_ofInt32 1
  have hnear := nearestTo_mul hx hone
  rw [value_one, mul_one] at hnear
  have hrep : binary32.Represents |x.value| :=
    ⟨x.magnitude, (of_decide_eq_true hx : x.magnitude < _).le, (abs_value x).symm⟩
  refine eq_of_value_eq ?_ (hnear.value_eq hrep)
  have hsign : one.negative = false := rfl
  simp [mul_of_isFinite hx hone, hsign]

end Binary

@[simp] theorem SubpixelSize.scale_one_ofPixels (i : PixelSize) :
    (SubpixelSize.ofPixels i).scale .one = .ofPixels i := by
  simp [SubpixelSize.ofPixels, SubpixelSize.scale, Binary.isFinite_ofInt32]

/-- Whole pixels that are scaled by one are converted there and back. -/
@[simp] theorem PixelSize.scale_one (i : PixelSize) :
    i.scale .one = .ofSubpixels (.ofPixels i) := by
  simp [PixelSize.scale]

end LayerSize
