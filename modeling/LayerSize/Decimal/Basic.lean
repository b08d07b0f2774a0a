import LayerSize.Binary.Nearest

/-!
# Decimal numbers

A decimal is a whole number of powers of ten.  It is what a numeral denotes, and what is
written for a floating-point number.

* `Decimal.nearest`: the magnitude of a format nearest to a decimal;
* `Decimal.positional`: the decimal written without an exponent.
-/

namespace LayerSize

attribute [local instance (2000)] instPowNat

/-- The number `coefficient * 10 ^ exponent`. -/
structure Decimal where
  coefficient : Nat
  exponent : Int
  deriving DecidableEq

/-- The decimal digits of a number, the first one not zero unless it is the only one. -/
def naturalText (n : Nat) : List Char := Nat.toDigits 10 n

/-- The integer in decimal, with a minus sign before a negative one. -/
def integerText (n : Int) : List Char :=
  if n < 0 then '-' :: naturalText n.natAbs else naturalText n.natAbs

namespace Decimal

/-! ## Rounding -/

/-- The magnitude nearest to a decimal.  The first three cases only save the computation
of huge powers: zero, a decimal beyond all finite values, and one below half the smallest
positive value. -/
def nearest (F : Format) (d : Decimal) : Nat :=
  if d.coefficient = 0 then 0
  else match d.exponent with
    | .ofNat e =>
      if 2 ^ F.exponentBits ≤ e then F.infinity else F.nearest (d.coefficient * 10 ^ e) 1
    | .negSucc e =>
      if d.coefficient.log2 + F.scale + 2 ≤ 3 * (e + 1) then 0
      else F.nearest d.coefficient (10 ^ (e + 1))

/-- The saved cases agree with rounding the decimal itself. -/
theorem nearest_eq (F : Format) (d : Decimal) :
    d.nearest F = F.nearest (d.coefficient * 10 ^ d.exponent.toNat) (10 ^ (-d.exponent).toNat) := by
  obtain ⟨c, e⟩ := d
  unfold nearest
  by_cases hc : c = 0
  · rw [if_pos hc, hc, Nat.zero_mul, F.nearest_zero (Nat.pow_pos (by decide))]
  · rw [if_neg hc]
    cases e with
    | ofNat e =>
      have hneg : (-Int.ofNat e).toNat = 0 := by simp
      have hpos : (Int.ofNat e).toNat = e := rfl
      rw [hneg, hpos, Nat.pow_zero]
      dsimp only
      split
      · next h =>
        refine (F.nearest_eq_infinity ?_).symm
        calc 2 ^ 2 ^ F.exponentBits ≤ 2 ^ e := Nat.pow_le_pow_right (by decide) h
          _ ≤ 10 ^ e := Nat.pow_le_pow_left (by decide) e
          _ ≤ c * 10 ^ e := Nat.le_mul_of_pos_left _ (Nat.pos_of_ne_zero hc)
      · rfl
    | negSucc e =>
      have hneg : (-Int.negSucc e).toNat = e + 1 := rfl
      have hpos : (Int.negSucc e).toNat = 0 := rfl
      rw [hneg, hpos, Nat.pow_zero, Nat.mul_one]
      dsimp only
      split
      · next h =>
        refine (F.nearest_eq_zero ?_).symm
        calc 2 * (c * 2 ^ F.scale) < 2 * (2 ^ (c.log2 + 1) * 2 ^ F.scale) :=
              Nat.mul_lt_mul_of_pos_left
                (Nat.mul_lt_mul_of_pos_right Nat.lt_log2_self (Nat.two_pow_pos _)) (by decide)
          _ = 2 ^ (c.log2 + F.scale + 2) := by
              rw [← Nat.pow_add, ← Nat.pow_succ']; congr 1; omega
          _ ≤ 2 ^ (3 * (e + 1)) := Nat.pow_le_pow_right (by decide) h
          _ = 8 ^ (e + 1) := by rw [Nat.pow_mul]
          _ ≤ 10 ^ (e + 1) := Nat.pow_le_pow_left (by decide) _
      · rfl

theorem nearest_lt_size (F : Format) (d : Decimal) : d.nearest F < F.size := by
  rw [nearest_eq]
  exact F.nearest_lt_size _ _

/-! ## Writing -/

/-- The decimal without an exponent: zeros fill the places up to the point, and there is a
point only before a digit. -/
def positional (d : Decimal) : List Char :=
  let ds := naturalText d.coefficient
  match d.exponent with
  | .ofNat e => ds ++ List.replicate e '0'
  | .negSucc e =>
    let whole := ds.length - (e + 1)
    if whole = 0 then '0' :: '.' :: (List.replicate (e + 1 - ds.length) '0' ++ ds)
    else ds.take whole ++ '.' :: ds.drop whole

/-- The exponent of the first digit. -/
def leading (d : Decimal) : Int := d.exponent + ((naturalText d.coefficient).length - 1 : Nat)

/-- The decimal with one digit before the point, if any more follow, and a signed
exponent. -/
def scientific (d : Decimal) : List Char :=
  let mantissa := match naturalText d.coefficient with
    | c :: c' :: cs => c :: '.' :: c' :: cs
    | cs => cs
  let e := d.leading
  mantissa ++ 'e' :: (if e < 0 then '-' else '+') :: naturalText e.natAbs

end Decimal

end LayerSize
