import Mathlib.Data.Nat.Prime.Basic
import LayerSize.Proofs.PixelSize.Conversions
import LayerSize.Proofs.PixelSize.Scaling
import LayerSize.Proofs.PixelSize.ScalingOrder

/-!
# Zooming in and back

Scaling by a whole factor is exact as long as the products are numbers of single precision, and
scaling by its reciprocal comes back.  The reciprocal is rounded, but not by so much that a product
is further than a quarter from the component it came from, and then both roundings find that.

* `Binary.ofRatio`: the number nearest to a fraction;
* `abs_value_sub_inv_lt`: how far off a reciprocal is;
* `roundToInt32_of_near`: what is near to a whole number is rounded to it twice;
* `scaled_ofRatio`, `scaled_ofRatio_inv`: a component, in and back;
* `scale_scale_ofRatio`: the same for sizes.
-/

namespace LayerSize

variable {F : Format} {q : ℚ} {k : ℕ} {x : Binary binary32} {c d : Int32}

/-! ## Fractions -/

namespace Binary

/-- The number nearest to a fraction. -/
def ofRatio (num den : ℕ) : Binary F := ⟨false, F.nearest num den, F.nearest_lt_size num den⟩

theorem ofRatio_nearestTo (num : ℕ) {den : ℕ} (h : 0 < den) :
    (ofRatio num den : Binary F).NearestTo (num / den) := by
  have hnonneg : (0 : ℚ) ≤ num / den := by positivity
  have hsign : (ofRatio num den : Binary F).negative = false := rfl
  exact nearestTo_signed hsign hnonneg (F.isNearest_nearest num h)

end Binary

/-! ## Reciprocals -/

/-- If they were equal, an odd number would divide a power of two.  It would be one, and `k` that
power. -/
theorem two_mul_ne_of_le {m : ℕ} (hmax : k ≤ 2 ^ 24) : 2 * k * m ≠ 2 ^ 26 + k := by
  intro h
  cases m with
  | zero => omega
  | succ m =>
    have hsplit : k * (2 * m + 1) = 2 ^ 26 := by
      have hsucc : 2 * k * (m + 1) = k * (2 * m + 1) + k := by ring
      omega
    have hodd : Nat.Coprime (2 * m + 1) (2 ^ 26) :=
      Nat.Coprime.pow_right 26 (Nat.coprime_two_right.2 ⟨m, rfl⟩)
    have hone : 2 * m + 1 = 1 := hodd.eq_one_of_dvd ⟨k, by rw [← hsplit, mul_comm]⟩
    rw [hone] at hsplit
    omega

/-- No reciprocal is halfway between two multiples of `1 / 2 ^ 25`, so one of them is nearer than
half of that. -/
theorem exists_abs_div_sub_inv_lt (hk : 2 ≤ k) (hmax : k ≤ 2 ^ 24) :
    ∃ m : ℕ, m ≤ 2 ^ 24 ∧ |(m : ℚ) / 2 ^ 25 - 1 / k| < 1 / 2 ^ 26 := by
  obtain ⟨m, hm⟩ : ∃ m, (2 ^ 26 + k) / (2 * k) = m := ⟨_, rfl⟩
  obtain ⟨r, hr⟩ : ∃ r, (2 ^ 26 + k) % (2 * k) = r := ⟨_, rfl⟩
  have hlt : m < 2 ^ 24 + 1 := by
    rw [← hm, Nat.div_lt_iff_lt_mul (by omega)]
    omega
  have hrlt : r < 2 * k := hr ▸ Nat.mod_lt _ (by omega)
  have hsum : 2 * k * m + r = 2 ^ 26 + k := by rw [← hm, ← hr, Nat.div_add_mod]
  have hrpos : 0 < r := by
    have hne := two_mul_ne_of_le (m := m) hmax
    omega
  refine ⟨m, by omega, ?_⟩
  have hkpos : (0 : ℚ) < k := by exact_mod_cast (show 0 < k by omega)
  have hsumq : (2 * k * m + r : ℚ) = 2 ^ 26 + k := by exact_mod_cast hsum
  have hrlow : (0 : ℚ) < r := by exact_mod_cast hrpos
  have hrhigh : (r : ℚ) < 2 * k := by exact_mod_cast hrlt
  have hdist : (m : ℚ) / 2 ^ 25 - 1 / k = (k - r) / k * (1 / 2 ^ 26) := by
    have hrest : (k - r : ℚ) = 2 * k * m - 2 ^ 26 := by linarith
    rw [hrest]
    field_simp
  have hpart : |(k - r : ℚ) / k| < 1 := by
    rw [abs_lt, lt_div_iff₀ hkpos, div_lt_iff₀ hkpos]
    constructor <;> linarith
  rw [hdist, abs_mul, abs_of_pos (show (0 : ℚ) < 1 / 2 ^ 26 by norm_num)]
  exact mul_lt_of_lt_one_left (by norm_num) hpart

/-- The reciprocal of a number of few bits, once it is rounded, is off by so little. -/
theorem abs_value_sub_inv_lt (hk : 1 ≤ k) (hmax : k ≤ 2 ^ 24) (h : x.NearestTo (1 / k)) :
    |x.value - 1 / k| < 1 / 2 ^ 26 := by
  rcases hk.eq_or_lt with rfl | hlt
  · have hrep : binary32.Represents (1 : ℕ) := Format.represents_nat (by decide) (by decide)
    have hvalue : x.value = 1 / (1 : ℕ) := h.value_eq (by simpa using hrep)
    rw [hvalue, sub_self, abs_zero]
    norm_num
  · obtain ⟨m, hm, hdist⟩ := exists_abs_div_sub_inv_lt hlt hmax
    have habs : |(m / 2 ^ 25 : ℚ)| = m / 2 ^ 25 := abs_of_nonneg (by positivity)
    have hrep : binary32.Represents |(m / 2 ^ 25 : ℚ)| := by
      rw [habs]
      exact Format.represents_div (by decide) hm (by decide)
    exact (h.abs_sub_le hrep).trans_lt hdist

/-! ## Two roundings -/

namespace Binary

theorem isFinite_of_nearestTo (h : x.NearestTo q) (hq : |q| ≤ 2 ^ 24) : x.isFinite = true := by
  have hrep : binary32.Represents (2 ^ 24 : ℕ) := Format.represents_nat (by decide) le_rfl
  have hle := h.isNearest.value_le hrep (by exact_mod_cast hq)
  rw [← abs_value] at hle
  exact isFinite_of_abs_value_le (hle.trans (by norm_num))

/-- What is nearer than a quarter to a component is rounded to something nearer than half, because
the component itself is no further, and then to the component. -/
theorem roundToInt32_of_near (h : x.NearestTo q) (hc : |c.toInt| ≤ 2 ^ 24)
    (hq : |q - c.toInt| < 1 / 4) : x.roundToInt32 = c := by
  have hfirst : |x.value - q| ≤ |c.toInt - q| := h.abs_sub_le (represents_abs_toInt hc)
  rw [abs_sub_comm (c.toInt : ℚ)] at hfirst
  have hnear : |x.value - c.toInt| < 1 / 2 :=
    calc |x.value - c.toInt| ≤ |x.value - q| + |q - c.toInt| := abs_sub_le _ _ _
      _ < 1 / 2 := by linarith
  rw [← Int32.toInt_inj, toInt_roundToInt32 h.isNaN, halfAway_eq_of_abs_sub_lt hnear,
    clamp32_toInt]

end Binary

/-! ## Components -/

section

variable (hk : 1 ≤ k) (hmax : k ≤ 2 ^ 24) (hc : |k * c.toInt| ≤ 2 ^ 24)

include hk hc

theorem abs_toInt_le_of_mul : |c.toInt| ≤ 2 ^ 24 := by
  have hone : (1 : ℤ) ≤ |(k : ℤ)| := by
    rw [abs_of_nonneg (by positivity)]
    exact_mod_cast hk
  calc |c.toInt| ≤ |(k : ℤ)| * |c.toInt| := le_mul_of_one_le_left (abs_nonneg _) hone
    _ = |k * c.toInt| := (abs_mul _ _).symm
    _ ≤ 2 ^ 24 := hc

include hmax

theorem scaled_ofRatio : (scaled c (.ofRatio k 1)).toInt = k * c.toInt := by
  have hnear : (Binary.ofRatio k 1 : Binary binary32).NearestTo k := by
    simpa using Binary.ofRatio_nearestTo (F := binary32) k Nat.one_pos
  have habs : |(k : ℚ)| = k := abs_of_nonneg (by positivity)
  have hvalue : (Binary.ofRatio k 1 : Binary binary32).value = k :=
    hnear.value_eq (by rw [habs]; exact Format.represents_nat (by decide) hmax)
  have hfinite : (Binary.ofRatio k 1 : Binary binary32).isFinite = true :=
    Binary.isFinite_of_nearestTo hnear (by rw [habs]; exact_mod_cast hmax)
  have hscaled := Binary.scaledTo_roundToInt32 hfinite (abs_toInt_le_of_mul hk hc)
  have hproduct : (c.toInt * (Binary.ofRatio k 1 : Binary binary32).value : ℚ) =
      (k * c.toInt : ℤ) := by
    rw [hvalue]
    push_cast
    ring
  rw [hproduct] at hscaled
  exact hscaled.whole (by exact_mod_cast hc) _ rfl

theorem scaled_ofRatio_inv (hd : d.toInt = k * c.toInt) : scaled d (.ofRatio 1 k) = c := by
  have hkpos : (0 : ℚ) < k := by exact_mod_cast hk
  have hnear : (Binary.ofRatio 1 k : Binary binary32).NearestTo (1 / k) := by
    simpa using Binary.ofRatio_nearestTo (F := binary32) 1 hk
  have hfinite : (Binary.ofRatio 1 k : Binary binary32).isFinite = true := by
    refine Binary.isFinite_of_nearestTo hnear ?_
    have hle : (1 : ℚ) / k ≤ 1 := (div_le_one hkpos).2 (by exact_mod_cast hk)
    rw [abs_of_pos (by positivity)]
    linarith
  have herror : |(Binary.ofRatio 1 k : Binary binary32).value - 1 / k| < 1 / 2 ^ 26 :=
    abs_value_sub_inv_lt hk hmax hnear
  have hvalue : (Binary.ofInt32 d : Binary binary32).value = d.toInt :=
    Binary.value_ofInt32_of_le (hd ▸ hc)
  have hproduct := Binary.nearestTo_mul (Binary.isFinite_ofInt32 d) hfinite
  rw [hvalue] at hproduct
  refine Binary.roundToInt32_of_near hproduct (abs_toInt_le_of_mul hk hc) ?_
  have hback : (d.toInt : ℚ) * (1 / k) = c.toInt := by
    rw [hd]
    push_cast
    field_simp
  have hbound : |(d.toInt : ℚ)| ≤ 2 ^ 24 := by
    rw [hd, ← Int.cast_abs]
    exact_mod_cast hc
  calc |(d.toInt : ℚ) * (Binary.ofRatio 1 k : Binary binary32).value - c.toInt|
      = |(d.toInt : ℚ)| * |(Binary.ofRatio 1 k : Binary binary32).value - 1 / k| := by
        rw [← hback, ← mul_sub, abs_mul]
    _ ≤ 2 ^ 24 * |(Binary.ofRatio 1 k : Binary binary32).value - 1 / k| := by gcongr
    _ < 2 ^ 24 * (1 / 2 ^ 26) := by gcongr
    _ = 1 / 4 := by norm_num

end

/-! ## Sizes -/

/-- Scaling by a whole factor multiplies the components, and the reciprocal takes them back. -/
theorem PixelSize.scale_scale_ofRatio (s : PixelSize) (hk : 1 ≤ k) (hmax : k ≤ 2 ^ 24)
    (hw : |k * s.width.toInt| ≤ 2 ^ 24) (hh : |k * s.height.toInt| ≤ 2 ^ 24) :
    (s.scale (.ofRatio k 1)).width.toInt = k * s.width.toInt ∧
      (s.scale (.ofRatio k 1)).height.toInt = k * s.height.toInt ∧
      (s.scale (.ofRatio k 1)).scale (.ofRatio 1 k) = s := by
  have hwidth := scaled_ofRatio hk hmax hw
  have hheight := scaled_ofRatio hk hmax hh
  simp only [scale_eq]
  refine ⟨hwidth, hheight, ?_⟩
  rw [scaled_ofRatio_inv hk hmax hw hwidth, scaled_ofRatio_inv hk hmax hh hheight]

/-- A third is rounded up, and the products with it are still near enough. -/
theorem PixelSize.scale_scale_ofRatio_three :
    (1 ≤ 3 ∧ 3 ≤ 2 ^ 24 ∧ |(3 : ℕ) * (5592405 : Int32).toInt| ≤ 2 ^ 24 ∧
      |(3 : ℕ) * (-5592403 : Int32).toInt| ≤ 2 ^ 24) ∧
      ((⟨5592405, -5592403⟩ : PixelSize).scale (.ofRatio 3 1)).scale (.ofRatio 1 3) =
        ⟨5592405, -5592403⟩ := by
  have hwidth : |(3 : ℕ) * (5592405 : Int32).toInt| ≤ 2 ^ 24 := by decide
  have hheight : |(3 : ℕ) * (-5592403 : Int32).toInt| ≤ 2 ^ 24 := by decide
  have h := scale_scale_ofRatio ⟨5592405, -5592403⟩ (k := 3) (by decide) (by decide) hwidth hheight
  exact ⟨⟨by decide, by decide, hwidth, hheight⟩, h.2.2⟩

end LayerSize
