import LayerSize.Proofs.PixelSize.Rounding

/-!
# The nearest whole pixels

A component in fractional pixels is rounded to the nearest integer, the one further from zero if
two are equally near.  Beyond 32 bits, infinities included, it is rounded to the nearer end of
them, and what is not a number is rounded to zero.

* `NearestAway`: being the nearest integer, in terms of distances;
* `nearestAway_iff`: `halfAway` finds that integer;
* `RoundsTo`: what a component is rounded to;
* `ofSubpixels_eq_iff`: rounding a size.
-/

namespace LayerSize

variable {F : Format} {q : ℚ} {n : ℤ}

/-! ## Distances -/

/-- The integer is nearer to the number than half the way to the next one, or it is halfway and
further from zero. -/
def NearestAway (q : ℚ) (n : ℤ) : Prop := |n - q| < 1 / 2 ∨ |n - q| = 1 / 2 ∧ |q| < |(n : ℚ)|

@[simp] theorem nearestAway_neg : NearestAway (-q) (-n) ↔ NearestAway q n := by
  have hdist : |((-n : ℤ) : ℚ) - -q| = |n - q| := by
    rw [← abs_neg]
    push_cast
    ring_nf
  unfold NearestAway
  rw [hdist, Int.cast_neg, abs_neg, abs_neg]

theorem nearestAway_iff_round (h : 0 ≤ q) : NearestAway q n ↔ round q = n := by
  rw [round_eq_iff]
  constructor
  · rintro (hlt | ⟨heq, hfar⟩)
    · obtain ⟨hlow, hhigh⟩ := abs_lt.1 hlt
      constructor <;> linarith
    · rw [abs_of_nonneg h] at hfar
      rcases (abs_eq (by norm_num)).1 heq with habove | hbelow
      · constructor <;> linarith
      · -- half a unit below the number there is no integer further from zero
        exfalso
        have hn : -1 < n := by exact_mod_cast (show (-1 : ℚ) < n by linarith)
        have hnonneg : (0 : ℚ) ≤ n := by exact_mod_cast (show 0 ≤ n by omega)
        rw [abs_of_nonneg hnonneg] at hfar
        linarith
  · rintro ⟨hlow, hhigh⟩
    rcases hlow.lt_or_eq with hlt | heq
    · exact .inl (abs_lt.2 ⟨by linarith, by linarith⟩)
    · have hdist : (n : ℚ) - q = 1 / 2 := by linarith
      refine .inr ⟨by rw [hdist]; norm_num, ?_⟩
      rw [abs_of_nonneg h, abs_of_nonneg (by linarith)]
      linarith

/-- There is one such integer, and rounding finds it. -/
theorem nearestAway_iff : NearestAway q n ↔ halfAway q = n := by
  rcases le_total 0 q with h | h
  · rw [halfAway_of_nonneg h, nearestAway_iff_round h]
  · have h' : 0 ≤ -q := neg_nonneg.2 h
    rw [← nearestAway_neg, nearestAway_iff_round h', ← halfAway_of_nonneg h', halfAway_neg,
      neg_inj]

/-- Less than half a unit is rounded off. -/
theorem halfAway_eq_of_abs_sub_lt (h : |q - n| < 1 / 2) : halfAway q = n :=
  nearestAway_iff.1 (.inl (by rwa [abs_sub_comm]))

/-! ## The ends of 32 bits -/

theorem clamp32_halfAway_of_ge (h : 2147483647.5 ≤ q) : clamp32 (halfAway q) = 2147483647 := by
  have hround : halfAway 2147483647.5 = 2147483648 := nearestAway_iff.1 (.inr (by norm_num))
  have hle := hround ▸ halfAway_mono h
  unfold clamp32
  omega

theorem clamp32_halfAway_of_le (h : q ≤ -2147483648) : clamp32 (halfAway q) = -2147483648 := by
  have hround : halfAway ((-2147483648 : ℤ) : ℚ) = -2147483648 := halfAway_intCast _
  have hle := hround ▸ halfAway_mono (show q ≤ ((-2147483648 : ℤ) : ℚ) by exact_mod_cast h)
  unfold clamp32
  omega

theorem clamp32_halfAway_between (hlow : -2147483648 < q) (hhigh : q < 2147483647.5) :
    clamp32 (halfAway q) = halfAway q := by
  have hdist : |(halfAway q : ℚ) - q| ≤ 1 / 2 := by
    rcases nearestAway_iff.2 (rfl : halfAway q = halfAway q) with h | ⟨h, -⟩
    · exact h.le
    · exact h.le
  obtain ⟨hbelow, habove⟩ := abs_le.1 hdist
  have hmin : -2147483649 < halfAway q := by
    exact_mod_cast (show (-2147483649 : ℚ) < halfAway q by linarith)
  have hmax : halfAway q < 2147483648 := by
    exact_mod_cast (show (halfAway q : ℚ) < 2147483648 by linarith)
  unfold clamp32
  omega

/-! ## Components -/

namespace Binary

variable {x : Binary binary32}

/-- What a component in fractional pixels is rounded to. -/
inductive RoundsTo (x : Binary binary32) : ℤ → Prop where
  | notANumber (h : x.isNaN = true) : RoundsTo x 0
  | above (h : x = infinity false ∨ x.isFinite = true ∧ 2147483647.5 ≤ x.value) :
      RoundsTo x 2147483647
  | below (h : x = infinity true ∨ x.isFinite = true ∧ x.value ≤ -2147483648) :
      RoundsTo x (-2147483648)
  | between {n : ℤ} (h : x.isFinite = true) (low : -2147483648 < x.value)
      (high : x.value < 2147483647.5) (near : NearestAway x.value n) : RoundsTo x n

theorem isNaN_infinity (negative : Bool) : (infinity negative : Binary F).isNaN = false :=
  decide_eq_false (lt_irrefl F.infinity)

theorem value_infinity (negative : Bool) :
    (infinity negative : Binary binary32).value = if negative then -2 ^ 128 else 2 ^ 128 := by
  have h : binary32.value binary32.infinity = 2 ^ 128 := binary32.value_infinity
  simp [value, infinity, h]

theorem RoundsTo.toInt_eq (h : x.RoundsTo n) : x.roundToInt32.toInt = n := by
  cases h with
  | notANumber h => simp [roundToInt32, h]
  | above h =>
    obtain ⟨hnan, hle⟩ : x.isNaN = false ∧ 2147483647.5 ≤ x.value := by
      rcases h with rfl | ⟨hfinite, hle⟩
      · exact ⟨isNaN_infinity _, by rw [value_infinity]; norm_num⟩
      · exact ⟨isNaN_of_isFinite hfinite, hle⟩
    rw [toInt_roundToInt32 hnan, clamp32_halfAway_of_ge hle]
  | below h =>
    obtain ⟨hnan, hle⟩ : x.isNaN = false ∧ x.value ≤ -2147483648 := by
      rcases h with rfl | ⟨hfinite, hle⟩
      · exact ⟨isNaN_infinity _, by rw [value_infinity]; norm_num⟩
      · exact ⟨isNaN_of_isFinite hfinite, hle⟩
    rw [toInt_roundToInt32 hnan, clamp32_halfAway_of_le hle]
  | between h low high near =>
    rw [toInt_roundToInt32 (isNaN_of_isFinite h), clamp32_halfAway_between low high]
    exact nearestAway_iff.1 near

theorem exists_roundsTo (x : Binary binary32) : ∃ n, x.RoundsTo n := by
  rcases lt_trichotomy x.magnitude binary32.infinity with hlt | heq | hgt
  · have hfinite : x.isFinite = true := decide_eq_true hlt
    rcases le_or_gt 2147483647.5 x.value with hhigh | hhigh
    · exact ⟨_, .above (.inr ⟨hfinite, hhigh⟩)⟩
    · rcases le_or_gt x.value (-2147483648) with hlow | hlow
      · exact ⟨_, .below (.inr ⟨hfinite, hlow⟩)⟩
      · exact ⟨_, .between hfinite hlow hhigh (nearestAway_iff.2 rfl)⟩
  · rw [eq_infinity_of_magnitude heq]
    cases x.negative with
    | false => exact ⟨_, .above (.inl rfl)⟩
    | true => exact ⟨_, .below (.inl rfl)⟩
  · exact ⟨_, .notANumber (decide_eq_true hgt)⟩

theorem toInt_roundToInt32_eq_iff : x.roundToInt32.toInt = n ↔ x.RoundsTo n := by
  constructor
  · rintro rfl
    obtain ⟨n, h⟩ := exists_roundsTo x
    rwa [h.toInt_eq]
  · exact RoundsTo.toInt_eq

/-- Just below one half, where adding a half first would be rounded up to one. -/
example : (⟨false, 0x3effffff, by decide⟩ : Binary binary32).roundToInt32 = 0 := by decide +kernel

end Binary

/-! ## Sizes -/

/-- Each component is rounded by itself, and no integer but the one that is found fits the rule. -/
theorem PixelSize.ofSubpixels_eq_iff (s : SubpixelSize) (w h : ℤ) :
    ((ofSubpixels s).width.toInt = w ↔ s.width.RoundsTo w) ∧
      ((ofSubpixels s).height.toInt = h ↔ s.height.RoundsTo h) :=
  ⟨Binary.toInt_roundToInt32_eq_iff, Binary.toInt_roundToInt32_eq_iff⟩

end LayerSize
