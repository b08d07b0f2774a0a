import Mathlib.Data.Nat.Factorization.Basic
import LayerSize.Proofs.PixelSize.Conversions

/-!
# What widening loses

Single precision has 24 significant bits and an exponent, so a component in whole pixels comes
back from fractional pixels if no more than 24 bits are left of it without the zeros at its end.
The greatest integer comes back as well: it is rounded up to the first one beyond 32 bits, and
that goes to the nearer end of them.

* `ordCompl_lt_of_value`, `represents_of_ordCompl_lt`: the whole numbers that a format has;
* `value_ofInt32_eq_iff`: the components that single precision has;
* `abs_value_ofInt32_sub_le`: how far off the others are;
* `ComesBackAs`: what a component is after the conversion and back;
* `ofSubpixels_ofPixels_comesBackAs`: the same for sizes, with scaling by one.
-/

namespace LayerSize

variable {F : Format} {k n : ℕ} {c : Int32}

/-! ## Whole numbers of a format -/

namespace Format

/-- Without the factors of two, no more than a significand is left of a value. -/
theorem ordCompl_units_lt (F : Format) (k : ℕ) : ordCompl[2] (F.units k) < 2 ^ F.precision := by
  have hwidth := F.two_mul_binade
  have hb := F.binade_pos
  rcases Nat.lt_or_ge k F.binade with h | h
  · have hle := Nat.ordCompl_le k 2
    rw [F.units_of_lt h]
    omega
  · have hle := Nat.ordCompl_le (F.binade + k % F.binade) 2
    have hmod := Nat.mod_lt k hb
    rw [F.units_of_le h, Nat.mul_comm, Nat.ordCompl_self_pow_mul _ _ Nat.prime_two]
    omega

theorem ordCompl_lt_of_value (h : F.value k = n) : ordCompl[2] n < 2 ^ F.precision := by
  have hunits : F.units k = 2 ^ F.scale * n := by
    rw [value, div_eq_iff (by positivity), mul_comm] at h
    exact_mod_cast h
  have hlt := F.ordCompl_units_lt k
  rwa [hunits, Nat.ordCompl_self_pow_mul _ _ Nat.prime_two] at hlt

theorem represents_of_ordCompl_lt (h : ordCompl[2] n < 2 ^ F.precision)
    (hmax : n ≤ 2 ^ 2 ^ (F.exponentBits - 1)) : F.Represents n := by
  have hsplit : ordCompl[2] n * 2 ^ n.factorization 2 = n := by
    rw [mul_comm, Nat.ordProj_mul_ordCompl_eq_self]
  have hrep := represents_mul_two_pow h.le (hsplit.trans_le hmax)
  rwa [hsplit] at hrep

end Format

/-! ## Components -/

namespace Binary

theorem value_ofInt32_eq_iff : (ofInt32 c : Binary binary32).value = c.toInt ↔
    ordCompl[2] c.toInt.natAbs < 2 ^ 24 := by
  have habs : |(c.toInt : ℚ)| = c.toInt.natAbs := by
    rw [← Int.cast_abs, Int.abs_eq_natAbs, Int.cast_natCast]
  constructor
  · intro h
    have hvalue : binary32.value (ofInt32 c : Binary binary32).magnitude = c.toInt.natAbs := by
      rw [← abs_value, h, habs]
    exact Format.ordCompl_lt_of_value hvalue
  · intro h
    have hmax : c.toInt.natAbs ≤ 2 ^ 128 := by
      have hlow := c.le_toInt
      have hhigh := c.toInt_lt
      omega
    refine (ofInt32_nearestTo c).value_eq ?_
    rw [habs]
    exact Format.represents_of_ordCompl_lt h hmax

/-- From one multiple of 128 to the next, single precision has them all. -/
theorem abs_value_ofInt32_sub_le (c : Int32) :
    |(ofInt32 c : Binary binary32).value - c.toInt| ≤ 64 := by
  have hlow := c.le_toInt
  have hhigh := c.toInt_lt
  obtain ⟨m, hm⟩ : ∃ m : ℤ, m = (c.toInt + 64) / 128 := ⟨_, rfl⟩
  have hdist : |m * 128 - c.toInt| ≤ 64 := abs_le.2 ⟨by omega, by omega⟩
  have hrep : binary32.Represents |((m * 128 : ℤ) : ℚ)| := by
    have habs : |m * 128| = (m.natAbs * 2 ^ 7 : ℕ) := by
      rw [Int.abs_eq_natAbs, Int.natAbs_mul]
      rfl
    rw [← Int.cast_abs, habs, Int.cast_natCast]
    have hbits : m.natAbs ≤ 2 ^ 24 := by omega
    have hmax : m.natAbs * 2 ^ 7 ≤ 2 ^ 128 := by omega
    exact Format.represents_mul_two_pow hbits hmax
  calc |(ofInt32 c : Binary binary32).value - c.toInt|
      ≤ |((m * 128 : ℤ) : ℚ) - c.toInt| := (ofInt32_nearestTo c).abs_sub_le hrep
    _ ≤ 64 := by exact_mod_cast hdist

theorem sign_clamp32 (n : ℤ) : (clamp32 n).sign = n.sign := by
  rcases lt_trichotomy n 0 with hneg | rfl | hpos
  · have hclamp : clamp32 n < 0 := by
      unfold clamp32
      omega
    rw [Int.sign_eq_neg_one_of_neg hneg, Int.sign_eq_neg_one_of_neg hclamp]
  · rfl
  · have hclamp : 0 < clamp32 n := by
      unfold clamp32
      omega
    rw [Int.sign_eq_one_of_pos hpos, Int.sign_eq_one_of_pos hclamp]

/-- Rounding does not pass over zero and the integers next to it. -/
theorem sign_of_value_ofInt32 {n : ℤ} (h : (ofInt32 c : Binary binary32).value = n) :
    n.sign = c.toInt.sign := by
  rcases lt_trichotomy c.toInt 0 with hneg | hzero | hpos
  · have hle := value_ofInt32_mono (F := binary32) (b := -1) (Int.le_sub_one_of_lt hneg)
    rw [h, value_ofInt32_of_le (by decide)] at hle
    have hn : n ≤ -1 := by exact_mod_cast hle
    rw [Int.sign_eq_neg_one_of_neg hneg, Int.sign_eq_neg_one_of_neg (by omega)]
  · rw [value_ofInt32_of_le (by rw [hzero]; decide), Int.cast_inj] at h
    rw [h]
  · have hle := value_ofInt32_mono (F := binary32) (a := 1) hpos
    rw [h, value_ofInt32_of_le (by decide)] at hle
    have hn : 1 ≤ n := by exact_mod_cast hle
    rw [Int.sign_eq_one_of_pos hpos, Int.sign_eq_one_of_pos (by omega)]

end Binary

/-- What a component is after the conversion to fractional pixels and back: itself if it is the
greatest one or has few significant bits, and only then, and one nearby of the same sign in any
case. -/
structure ComesBackAs (c c' : Int32) : Prop where
  unchanged_iff : c' = c ↔ c.toInt = 2147483647 ∨ ordCompl[2] c.toInt.natAbs < 2 ^ 24
  near : |c'.toInt - c.toInt| ≤ 64
  sign : c'.toInt.sign = c.toInt.sign

theorem Binary.comesBackAs_ofInt32 (c : Int32) :
    ComesBackAs c (ofInt32 c : Binary binary32).roundToInt32 := by
  have hlow := c.le_toInt
  have hhigh := c.toInt_lt
  obtain ⟨n, hv, hn, -⟩ := exists_value_ofInt32 c
  obtain ⟨hmin, hmax⟩ := abs_le.1 hn
  have hround : (ofInt32 c : Binary binary32).roundToInt32.toInt = clamp32 n := by
    rw [toInt_roundToInt32 (isNaN_ofInt32 c), hv, halfAway_intCast]
  refine ⟨?_, ?_, ?_⟩
  · rw [← value_ofInt32_eq_iff, hv, Int.cast_inj, ← Int32.toInt_inj, hround]
    constructor
    · intro h
      unfold clamp32 at h
      omega
    · rintro (h | rfl)
      · obtain rfl : c = Int32.maxValue := Int32.toInt_inj.1 h
        rw [value_ofInt32_maxValue] at hv
        obtain rfl : n = 2 ^ 31 := by exact_mod_cast hv.symm
        rfl
      · exact clamp32_toInt c
  · have hdist := abs_value_ofInt32_sub_le c
    rw [hv] at hdist
    obtain ⟨hbelow, habove⟩ := abs_le.1 (show |n - c.toInt| ≤ 64 by exact_mod_cast hdist)
    rw [hround, abs_le]
    unfold clamp32
    omega
  · rw [hround, sign_clamp32, sign_of_value_ofInt32 hv]

/-! ## Sizes -/

/-- The components of a size, after the conversion and back; scaling by one is the same.  A size
comes back if none of its components has more than 24 bits. -/
theorem PixelSize.ofSubpixels_ofPixels_comesBackAs (s : PixelSize) :
    s.scale .one = ofSubpixels (.ofPixels s) ∧
      ComesBackAs s.width (ofSubpixels (.ofPixels s)).width ∧
      ComesBackAs s.height (ofSubpixels (.ofPixels s)).height ∧
      (|s.width.toInt| ≤ 2 ^ 24 ∧ |s.height.toInt| ≤ 2 ^ 24 → ofSubpixels (.ofPixels s) = s) := by
  have hback : ofSubpixels (.ofPixels s) = ⟨(Binary.ofInt32 s.width : Binary binary32).roundToInt32,
      (Binary.ofInt32 s.height : Binary binary32).roundToInt32⟩ := by
    simp only [ofSubpixels, SubpixelSize.ofPixels]
  simp only [PixelSize.scale_one, hback, true_and]
  refine ⟨Binary.comesBackAs_ofInt32 _, Binary.comesBackAs_ofInt32 _, ?_⟩
  rintro ⟨hw, hh⟩
  rw [Binary.roundToInt32_ofInt32_of_value (Binary.value_ofInt32_of_le hw),
    Binary.roundToInt32_ofInt32_of_value (Binary.value_ofInt32_of_le hh)]

/-- The greatest components up to which none is lost. -/
theorem PixelSize.ofSubpixels_ofPixels_fullWidth :
    (|(16777216 : Int32).toInt| ≤ 2 ^ 24 ∧ |(-16777216 : Int32).toInt| ≤ 2 ^ 24) ∧
      ofSubpixels (.ofPixels ⟨16777216, -16777216⟩) = ⟨16777216, -16777216⟩ := by
  have hle : |(16777216 : Int32).toInt| ≤ 2 ^ 24 ∧ |(-16777216 : Int32).toInt| ≤ 2 ^ 24 := by
    decide
  exact ⟨hle, (ofSubpixels_ofPixels_comesBackAs ⟨16777216, -16777216⟩).2.2.2 hle⟩

/-- Both are halfway between two numbers of single precision, and 64 from the one they become,
as far as 32 bits go. -/
example : PixelSize.ofSubpixels (.ofPixels ⟨2147483584, -2147483584⟩) =
    ⟨2147483647, -2147483648⟩ := by decide +kernel

end LayerSize
