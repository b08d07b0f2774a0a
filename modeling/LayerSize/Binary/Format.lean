/-!
# Binary floating-point formats

A format has a number of significant bits and a width of its exponent field; everything
else is computed from those two.  A number is kept as it is stored: a sign and the bits
below the sign, read as one natural number, its *magnitude*.  Magnitudes are ordered as
the values they stand for, two neighbours differ by one, and the first magnitude above
all finite ones stands for infinity; the ones above that are not numbers.

* `Format.units`: the value of a magnitude, counted in the smallest positive value of the
  format, so that it is a natural number;
* `Format.units_lt_units`: a greater magnitude stands for a greater value;
* `Binary`: a number of a format, with `ofBits` and `toBits`.
-/

namespace LayerSize

-- Powers are the core ones here, whatever algebra is in scope.
attribute [local instance (2000)] instPowNat

/-! ## Formats -/

/-- A binary interchange format: how many bits a significand has, the leading one
included, and how many the exponent field has. -/
structure Format where
  precision : Nat
  exponentBits : Nat
  one_lt_precision : 1 < precision := by decide
  one_lt_exponentBits : 1 < exponentBits := by decide

/-- Single precision: 24 significant bits in 32. -/
def binary32 : Format := { precision := 24, exponentBits := 8 }

/-- Double precision: 53 significant bits in 64. -/
def binary64 : Format := { precision := 53, exponentBits := 11 }

namespace Format

variable (F : Format)

/-- The number of magnitudes that share an exponent field. -/
def binade : Nat := 2 ^ (F.precision - 1)

/-- The number of magnitudes, not-a-numbers included. -/
def size : Nat := 2 ^ F.exponentBits * F.binade

/-- The magnitude that stands for infinity: its exponent field is all ones and the rest
zero. -/
def infinity : Nat := (2 ^ F.exponentBits - 1) * F.binade

/-- The smallest positive value of the format is `2 ^ (-scale)`. -/
def scale : Nat := 2 ^ (F.exponentBits - 1) + F.precision - 3

/-- The value of a magnitude in units of `2 ^ (-scale)`.  Below the first binade the
magnitude counts the units itself; from there on the spacing doubles with each binade. -/
def units (k : Nat) : Nat :=
  if k < F.binade then k else (F.binade + k % F.binade) * 2 ^ (k / F.binade - 1)

theorem binade_pos : 0 < F.binade := Nat.two_pow_pos _

theorem two_le_two_pow_exponentBits : 2 ≤ 2 ^ F.exponentBits :=
  Nat.le_self_pow (Nat.ne_of_gt (Nat.lt_trans Nat.one_pos F.one_lt_exponentBits)) 2

theorem infinity_lt_size : F.infinity < F.size :=
  Nat.mul_lt_mul_of_pos_right
    (Nat.sub_lt (Nat.two_pow_pos _) Nat.one_pos) F.binade_pos

theorem infinity_pos : 0 < F.infinity :=
  Nat.mul_pos (Nat.sub_pos_of_lt F.two_le_two_pow_exponentBits) F.binade_pos

/-! ## Values of magnitudes -/

@[simp] theorem units_zero : F.units 0 = 0 := by
  simp [units, F.binade_pos]

theorem units_of_lt {k : Nat} (h : k < F.binade) : F.units k = k := if_pos h

theorem units_of_le {k : Nat} (h : F.binade ≤ k) :
    F.units k = (F.binade + k % F.binade) * 2 ^ (k / F.binade - 1) :=
  if_neg (Nat.not_lt.mpr h)

/-- A magnitude is `s` binades and a significand `m` of full width; its value is `m`
spacings of `2 ^ s`.  The upper end of a binade is the lower end of the next. -/
theorem units_binade_add {s m : Nat} (hm : m ≤ 2 * F.binade)
    (h : s = 0 ∨ F.binade ≤ m) : F.units (s * F.binade + m) = m * 2 ^ s := by
  have hb := F.binade_pos
  by_cases hlt : m < F.binade
  · have hs : s = 0 := h.resolve_right (Nat.not_le.mpr hlt)
    subst hs
    simp [units, hlt]
  · have hle : F.binade ≤ m := Nat.not_lt.mp hlt
    have hk : F.binade ≤ s * F.binade + m := Nat.le_trans hle (Nat.le_add_left _ _)
    rw [F.units_of_le hk]
    by_cases hm2 : m = 2 * F.binade
    · subst hm2
      have e : s * F.binade + 2 * F.binade = F.binade * (s + 2) := by
        rw [Nat.mul_add, Nat.mul_comm s, Nat.mul_comm 2]
      rw [e, Nat.mul_mod_right, Nat.mul_div_cancel_left _ hb]
      show (F.binade + 0) * 2 ^ (s + 1) = _
      rw [Nat.pow_succ, Nat.add_zero, Nat.mul_comm 2, Nat.mul_assoc, Nat.mul_comm 2]
    · obtain ⟨r, rfl⟩ := Nat.exists_eq_add_of_le hle
      have hr : r < F.binade := by omega
      have e : s * F.binade + (F.binade + r) = r + F.binade * (s + 1) := by
        rw [Nat.mul_add, Nat.mul_comm s]; omega
      rw [e, Nat.add_mul_mod_self_left, Nat.add_mul_div_left _ _ hb, Nat.mod_eq_of_lt hr,
        Nat.div_eq_of_lt hr]
      simp

/-- The value one magnitude up is greater: neighbours are a positive power of two
apart. -/
theorem units_succ (k : Nat) : F.units (k + 1) = F.units k + 2 ^ (k / F.binade - 1) := by
  have hb := F.binade_pos
  by_cases hk : k < F.binade
  · rw [F.units_of_lt hk, Nat.div_eq_of_lt hk]
    have h := F.units_binade_add (s := 0) (m := k + 1) (by omega) (Or.inl rfl)
    simpa using h
  · have hle := Nat.not_lt.mp hk
    have hdiv : 1 ≤ k / F.binade := (Nat.one_le_div_iff hb).mpr hle
    have hmod : k % F.binade < F.binade := Nat.mod_lt _ hb
    have hsplit : (k / F.binade - 1) * F.binade + F.binade + k % F.binade = k := by
      have h1 := Nat.div_add_mod k F.binade
      have h2 : (k / F.binade - 1) * F.binade + F.binade = F.binade * (k / F.binade) := by
        rw [← Nat.succ_mul, Nat.succ_eq_add_one, Nat.sub_add_cancel hdiv, Nat.mul_comm]
      omega
    have h := F.units_binade_add (s := k / F.binade - 1) (m := F.binade + k % F.binade + 1)
      (by omega) (Or.inr (by omega))
    rw [show (k / F.binade - 1) * F.binade + (F.binade + k % F.binade + 1) = k + 1 by omega] at h
    rw [h, F.units_of_le hle, Nat.add_mul, Nat.one_mul]

theorem units_lt_units_succ (k : Nat) : F.units k < F.units (k + 1) := by
  rw [units_succ]
  exact Nat.lt_add_of_pos_right (Nat.two_pow_pos _)

theorem units_lt_units {j k : Nat} (h : j < k) : F.units j < F.units k := by
  induction k with
  | zero => exact absurd h (Nat.not_lt_zero _)
  | succ k ih =>
    rcases Nat.lt_succ_iff_lt_or_eq.mp h with hlt | rfl
    · exact Nat.lt_trans (ih hlt) (F.units_lt_units_succ k)
    · exact F.units_lt_units_succ j

theorem units_le_units {j k : Nat} (h : j ≤ k) : F.units j ≤ F.units k := by
  rcases Nat.lt_or_eq_of_le h with hlt | rfl
  · exact Nat.le_of_lt (F.units_lt_units hlt)
  · exact Nat.le_refl _

end Format

/-! ## Numbers -/

/-- A floating-point number as it is stored.  Two of them are equal when their bits
are. -/
structure Binary (F : Format) where
  negative : Bool
  magnitude : Nat
  magnitude_lt : magnitude < F.size
  deriving DecidableEq

namespace Binary

variable {F : Format}

/-- The number whose sign bit stands above the magnitude; higher bits are ignored. -/
def ofBits (bits : Nat) : Binary F where
  negative := bits / F.size % 2 = 1
  magnitude := bits % F.size
  magnitude_lt := Nat.mod_lt _ (Nat.lt_of_le_of_lt (Nat.zero_le _) F.infinity_lt_size)

def toBits (x : Binary F) : Nat := (if x.negative then F.size else 0) + x.magnitude

theorem ofBits_toBits (x : Binary F) : ofBits x.toBits = x := by
  obtain ⟨s, k, h⟩ := x
  have hpos : 0 < F.size := Nat.lt_of_le_of_lt (Nat.zero_le _) h
  cases s <;>
    simp [ofBits, toBits, Nat.mod_eq_of_lt h, Nat.div_eq_of_lt h, Nat.add_div_left, hpos]

def isNaN (x : Binary F) : Bool := F.infinity < x.magnitude

def isInfinite (x : Binary F) : Bool := x.magnitude = F.infinity

def isFinite (x : Binary F) : Bool := x.magnitude < F.infinity

def isZero (x : Binary F) : Bool := x.magnitude = 0

/-- The absolute value of a finite number, in units of `2 ^ (-scale)`. -/
def units (x : Binary F) : Nat := F.units x.magnitude

/-- The infinity of the given sign. -/
def infinity (negative : Bool) : Binary F := ⟨negative, F.infinity, F.infinity_lt_size⟩

theorem size_eq_add : F.size = F.infinity + F.binade := by
  have h : 2 ^ F.exponentBits - 1 + 1 = 2 ^ F.exponentBits :=
    Nat.sub_add_cancel (Nat.two_pow_pos _)
  calc F.size = (2 ^ F.exponentBits - 1 + 1) * F.binade := by rw [h]; rfl
    _ = F.infinity + F.binade := by rw [Nat.add_mul, Nat.one_mul]; rfl

theorem two_le_binade : 2 ≤ F.binade :=
  Nat.le_self_pow (by have := F.one_lt_precision; omega) 2

/-- The quiet not-a-number that an invalid operation gives: the top bit below the exponent
field is set. -/
def nan : Binary F where
  negative := false
  magnitude := F.infinity + F.binade / 2
  magnitude_lt := by
    rw [size_eq_add]
    exact Nat.add_lt_add_left (Nat.div_lt_self F.binade_pos (by decide)) _

theorem isNaN_nan : (nan : Binary F).isNaN = true := by
  have h : 0 < F.binade / 2 := Nat.div_pos two_le_binade (by decide)
  simpa [isNaN, nan] using h

end Binary

end LayerSize
