import LayerSize.Binary.Format

/-!
# Rounding to the nearest number of a format

One function takes an exact fraction to the magnitude nearest to it, a tie going to the
even significand.  Every operation that rounds is an exact computation followed by this
function once, so a result is never rounded twice, subnormal results included.

* `Format.nearest`: the magnitude nearest to a fraction, infinity for the fractions that
  are too large;
* `Format.product`, `Format.quotient`: the magnitudes nearest to products and quotients.
-/

namespace LayerSize

attribute [local instance (2000)] instPowNat

/-- The whole number nearest to `num / den`, the even one of two equally near. -/
def roundHalfEven (num den : Nat) : Nat :=
  let q := num / den
  let twice := 2 * (num % den)
  if twice < den ∨ (twice = den ∧ q % 2 = 0) then q else q + 1

namespace Format

variable (F : Format)

/-- How many binades above the first the value `num / den` units lies: with `s` of them
the numbers around it are `2 ^ s` units apart. -/
def spacing (num den : Nat) : Nat := (num / den).log2 + 1 - F.precision

/-- The magnitude nearest to the value `num / den`, for `0 < den`: the even one of two
equally near, and infinity from half a spacing above the largest finite value on. -/
def nearest (num den : Nat) : Nat :=
  let num := num * 2 ^ F.scale
  let s := F.spacing num den
  min (s * F.binade + roundHalfEven num (den * 2 ^ s)) F.infinity

/-- The magnitude nearest to the product of two values. -/
def product (j k : Nat) : Nat := F.nearest (F.units j * F.units k) (2 ^ (2 * F.scale))

/-- The magnitude nearest to the quotient of two values, for a positive divisor. -/
def quotient (j k : Nat) : Nat := F.nearest (F.units j) (F.units k)

theorem nearest_le_infinity (num den : Nat) : F.nearest num den ≤ F.infinity :=
  Nat.min_le_right _ _

theorem nearest_lt_size (num den : Nat) : F.nearest num den < F.size :=
  Nat.lt_of_le_of_lt (F.nearest_le_infinity num den) F.infinity_lt_size

/-- What lies below half the smallest positive value goes to zero. -/
theorem nearest_eq_zero {num den : Nat} (h : 2 * (num * 2 ^ F.scale) < den) :
    F.nearest num den = 0 := by
  have hp := F.one_lt_precision
  have hdiv : num * 2 ^ F.scale / den = 0 := Nat.div_eq_of_lt (by omega)
  have hs : F.spacing (num * 2 ^ F.scale) den = 0 := by
    rw [spacing, hdiv]; simp; omega
  have hmod : num * 2 ^ F.scale % den = num * 2 ^ F.scale := Nat.mod_eq_of_lt (by omega)
  simp only [nearest, hs, Nat.pow_zero, Nat.mul_one, Nat.zero_mul, Nat.zero_add]
  simp [roundHalfEven, hdiv, hmod, h]

theorem nearest_zero {den : Nat} (h : 0 < den) : F.nearest 0 den = 0 :=
  F.nearest_eq_zero (by rwa [Nat.zero_mul])

/-- A whole number with more bits than any finite value goes to infinity. -/
theorem nearest_eq_infinity {num : Nat} (h : 2 ^ (2 ^ F.exponentBits : Nat) ≤ num) :
    F.nearest num 1 = F.infinity := by
  have hp := F.one_lt_precision
  have hb := F.binade_pos
  have hscale : F.precision - 1 ≤ F.scale := by
    have h2 : 2 ≤ 2 ^ (F.exponentBits - 1) :=
      Nat.le_self_pow (by have := F.one_lt_exponentBits; omega) 2
    unfold scale
    omega
  have hne : num * 2 ^ F.scale ≠ 0 :=
    Nat.ne_of_gt (Nat.mul_pos (Nat.lt_of_lt_of_le (Nat.two_pow_pos _) h) (Nat.two_pow_pos _))
  have hlog : 2 ^ F.exponentBits + F.scale ≤ (num * 2 ^ F.scale).log2 :=
    (Nat.le_log2 hne).mpr (by rw [Nat.pow_add]; exact Nat.mul_le_mul_right _ h)
  have hs : 2 ^ F.exponentBits - 1 ≤ F.spacing (num * 2 ^ F.scale) 1 := by
    rw [spacing, Nat.div_one]; omega
  unfold nearest
  exact Nat.min_eq_right (Nat.le_trans (Nat.mul_le_mul_right _ hs) (Nat.le_add_right _ _))

end Format

end LayerSize
