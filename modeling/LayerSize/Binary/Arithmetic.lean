import LayerSize.Binary.Nearest

/-!
# Equality, products and conversions of floating-point numbers

A product is exact and then rounded once.  Conversions to 32-bit integers come in two
kinds: rounding to the nearest integer, which has an answer for every number, and
truncation, which has one only where the integer part fits.
-/

namespace LayerSize

attribute [local instance (2000)] instPowNat

/-! ## Integers -/

/-- The integer with the given sign and absolute value. -/
def signed (negative : Bool) (n : Nat) : Int := if negative then -n else n

/-- The 32-bit integer of the same value, when there is one. -/
def int32? (n : Int) : Option Int32 :=
  if h : Int32.minValue.toInt ≤ n ∧ n ≤ Int32.maxValue.toInt then
    some (Int32.ofIntLE n h.1 h.2)
  else none

theorem int32?_eq_some_iff {n : Int} {c : Int32} : int32? n = some c ↔ n = c.toInt := by
  unfold int32?
  split
  · next h =>
    constructor
    · intro hc
      rw [← Option.some.inj hc, Int32.toInt_ofIntLE]
    · intro hn
      subst hn
      rw [Int32.ofIntLE_toInt]
  · next h =>
    refine ⟨by simp, fun hn => ?_⟩
    subst hn
    exact absurd ⟨c.minValue_le_toInt, c.toInt_le⟩ h

/-- The whole number nearest to `num / den`, the greater of two equally near. -/
def roundHalfUp (num den : Nat) : Nat := (2 * num + den) / (2 * den)

namespace Binary

variable {F : Format}

/-! ## Equality of values -/

/-- Where a number stands in the order of values; both zeros stand at zero. -/
def rank (x : Binary F) : Int := signed x.negative x.magnitude

/-- Whether two numbers have the same value.  Something that is not a number equals
nothing, and the two zeros are equal. -/
def equal (x y : Binary F) : Bool := !x.isNaN && !y.isNaN && x.rank == y.rank

/-! ## Products -/

/-- The product, rounded to nearest.  Zero times infinity is not a number; otherwise the
sign is the product of the signs. -/
def mul (x y : Binary F) : Binary F :=
  let negative := x.negative != y.negative
  if x.isNaN || y.isNaN then nan
  else if x.isInfinite || y.isInfinite then
    if x.isZero || y.isZero then nan else infinity negative
  else ⟨negative, F.product x.magnitude y.magnitude, F.nearest_lt_size _ _⟩

/-! ## Conversions -/

/-- The number nearest to an integer. -/
def ofInt32 (c : Int32) : Binary F :=
  ⟨c.toInt < 0, F.nearest c.toInt.natAbs 1, F.nearest_lt_size _ _⟩

/-- The nearest integer, a half rounded away from zero.  What lies beyond the 32-bit
integers goes to the nearer end of them, and what is not a number to zero. -/
def roundToInt32 (x : Binary F) : Int32 :=
  if x.isNaN then 0
  else Int32.ofIntClamp (signed x.negative (roundHalfUp x.units (2 ^ F.scale)))

/-- The integer part of a finite number, when it is a 32-bit integer. -/
def truncToInt32? (x : Binary F) : Option Int32 :=
  if x.isFinite then int32? (signed x.negative (x.units / 2 ^ F.scale)) else none

end Binary

end LayerSize
