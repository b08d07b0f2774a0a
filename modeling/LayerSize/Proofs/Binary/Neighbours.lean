import LayerSize.Proofs.Binary.Rounding

/-!
# Values around a number

Rounding keeps the order, so it never passes over a value of the format, and no value is nearer
than the one that is found.  Above the significands of full width there are whole numbers only.

* `Format.Represents`: the number is a value of the format;
* `represents_div`, `represents_mul_two_pow`: few significant bits, divided or multiplied by a
  power of two;
* `IsNearest.le_value`, `IsNearest.value_le`: rounding stays on its side of such a number;
* `IsNearest.midpoint_le`, `IsNearest.sub_le`: no such number below is nearer;
* `IsNearest.abs_sub_le`: none is nearer, below or above;
* `exists_nat_of_binade_le`: large values are whole numbers.
-/

namespace LayerSize

namespace Format

variable {F : Format} {q r : ℚ} {k m e : ℕ}

/-! ## Numbers that are values -/

/-- The number is the value of a magnitude, infinity included. -/
def Represents (F : Format) (r : ℚ) : Prop := ∃ k ≤ F.infinity, F.value k = r

/-- A whole number with no more significant bits than the format, divided by a power of two. -/
theorem represents_div (hF : F.precision ≤ 2 ^ (F.exponentBits - 1)) (hm : m ≤ 2 ^ F.precision)
    (he : e ≤ F.scale) : F.Represents (m / 2 ^ e) := by
  obtain ⟨k, hk⟩ := F.exists_units_eq (hm.trans_eq F.two_mul_binade.symm) (F.scale - e)
  have hvalue : F.value k = m / 2 ^ e := by
    have hscale : (2 : ℚ) ^ F.scale = 2 ^ (F.scale - e) * 2 ^ e := by
      rw [← pow_add, Nat.sub_add_cancel he]
    rw [value, hk, hscale]
    push_cast
    field_simp
  refine ⟨k, ?_, hvalue⟩
  rw [← F.value_strictMono.le_iff_le, hvalue, F.value_infinity]
  calc (m : ℚ) / 2 ^ e ≤ m := div_le_self (by positivity) (one_le_pow₀ (by norm_num))
    _ ≤ 2 ^ F.precision := by exact_mod_cast hm
    _ ≤ 2 ^ 2 ^ (F.exponentBits - 1) := pow_le_pow_right₀ (by norm_num) hF

theorem represents_nat (hF : F.precision ≤ 2 ^ (F.exponentBits - 1)) (hm : m ≤ 2 ^ F.precision) :
    F.Represents m := by
  simpa using represents_div hF hm (Nat.zero_le F.scale)

/-- A whole number with few significant bits, as far as the finite values go. -/
theorem represents_mul_two_pow (hm : m ≤ 2 ^ F.precision)
    (hmax : m * 2 ^ e ≤ 2 ^ 2 ^ (F.exponentBits - 1)) : F.Represents (m * 2 ^ e : ℕ) :=
  ⟨_, F.nearest_le_infinity _ _, F.value_nearest_nat hm hmax⟩

/-! ## Rounding between values -/

/-- What is not below a value is not rounded below it. -/
theorem IsNearest.le_value (h : F.IsNearest q k) (hr : F.Represents r) (hq : r ≤ q) :
    r ≤ F.value k := by
  obtain ⟨j, hj, rfl⟩ := hr
  exact F.value_strictMono.monotone ((isNearest_value hj).mono h hq)

/-- What is not above a value is not rounded above it. -/
theorem IsNearest.value_le (h : F.IsNearest q k) (hr : F.Represents r) (hq : q ≤ r) :
    F.value k ≤ r := by
  obtain ⟨j, hj, rfl⟩ := hr
  exact F.value_strictMono.monotone (h.mono (isNearest_value hj) hq)

theorem IsNearest.value_eq (h : F.IsNearest q k) (hq : F.Represents q) : F.value k = q :=
  le_antisymm (h.value_le hq le_rfl) (h.le_value hq le_rfl)

/-- A lower value is no nearer than the one that is found. -/
theorem IsNearest.midpoint_le (h : F.IsNearest q k) (hr : F.Represents r) (hlt : r < F.value k) :
    (r + F.value k) / 2 ≤ q := by
  obtain ⟨j, -, rfl⟩ := hr
  have hjk : j < k := F.value_strictMono.lt_iff_lt.1 hlt
  obtain ⟨i, rfl⟩ : ∃ i, k = i + 1 := ⟨k - 1, by omega⟩
  have hmono : F.value j ≤ F.value i := F.value_strictMono.monotone (by omega)
  have hmid : (F.value j + F.value (i + 1)) / 2 ≤ F.midpoint i := by
    unfold midpoint
    linarith
  rcases h.lower i rfl with hq | ⟨hq, -⟩
  · linarith
  · linarith

/-- A higher value is no nearer than the one that is found. -/
theorem IsNearest.le_midpoint (h : F.IsNearest q k) (hr : F.Represents r) (hlt : F.value k < r) :
    q ≤ (F.value k + r) / 2 := by
  obtain ⟨j, hj, rfl⟩ := hr
  have hkj : k < j := F.value_strictMono.lt_iff_lt.1 hlt
  have hmono : F.value (k + 1) ≤ F.value j := F.value_strictMono.monotone hkj
  have hmid : F.midpoint k ≤ (F.value k + F.value j) / 2 := by
    unfold midpoint
    linarith
  rcases h.upper (by omega) with hq | ⟨hq, -⟩
  · linarith
  · linarith

/-- No value is nearer than the one that is found. -/
theorem IsNearest.abs_sub_le (h : F.IsNearest q k) (hr : F.Represents r) :
    |F.value k - q| ≤ |r - q| := by
  rcases lt_trichotomy r (F.value k) with hlt | rfl | hgt
  · have hmid := h.midpoint_le hr hlt
    rw [abs_of_nonpos (show r - q ≤ 0 by linarith), abs_le]
    constructor <;> linarith
  · exact le_rfl
  · have hmid := h.le_midpoint hr hgt
    rw [abs_of_nonneg (show 0 ≤ r - q by linarith), abs_le]
    constructor <;> linarith

/-- A whole number is reached from nearby only: a value below it would be nearer otherwise. -/
theorem IsNearest.sub_le (h : F.IsNearest q k) (hF : F.precision ≤ 2 ^ (F.exponentBits - 1))
    (hpos : 0 < m) (hm : m * 2 ^ e ≤ 2 ^ F.precision) (he : e ≤ F.scale) (hk : m ≤ F.value k) :
    m - 1 / 2 ^ (e + 1) ≤ q := by
  have hrep : F.Represents (m - 1 / 2 ^ e) := by
    have hrep := represents_div hF ((Nat.sub_le (m * 2 ^ e) 1).trans hm) he
    rw [Nat.cast_sub (Nat.mul_pos hpos (Nat.two_pow_pos e))] at hrep
    have hvalue : ((m * 2 ^ e : ℕ) - (1 : ℕ) : ℚ) / 2 ^ e = m - 1 / 2 ^ e := by
      push_cast
      field_simp
    rwa [hvalue] at hrep
  have hgap : (0 : ℚ) < 1 / 2 ^ e := by positivity
  have hmid := h.midpoint_le hrep (by linarith)
  have hhalf : (1 : ℚ) / 2 ^ (e + 1) = 1 / 2 ^ e / 2 := by
    rw [pow_succ]
    field_simp
  linarith

/-! ## Large values -/

/-- From the significands of full width on, neighbours are one apart or more. -/
theorem exists_nat_of_binade_le (h : (F.binade : ℚ) ≤ F.value k) : ∃ n : ℕ, F.value k = n := by
  have hb := F.binade_pos
  have hunits : F.binade * 2 ^ F.scale ≤ F.units k := by
    rw [value, le_div_iff₀ (by positivity)] at h
    exact_mod_cast h
  have hk : F.binade ≤ k := by
    by_contra hlt
    have hscale := Nat.le_mul_of_pos_right F.binade (Nat.two_pow_pos F.scale)
    rw [F.units_of_lt (by omega)] at hunits
    omega
  have hspacing : F.scale ≤ k / F.binade - 1 := by
    by_contra hlt
    have hmod := Nat.mod_lt k hb
    have hsmall : F.units k < F.binade * 2 ^ F.scale :=
      calc F.units k = (F.binade + k % F.binade) * 2 ^ (k / F.binade - 1) := F.units_of_le hk
        _ < (2 * F.binade) * 2 ^ (k / F.binade - 1) :=
            Nat.mul_lt_mul_of_pos_right (by omega) (Nat.two_pow_pos _)
        _ = F.binade * 2 ^ (k / F.binade - 1 + 1) := by ring
        _ ≤ F.binade * 2 ^ F.scale :=
            Nat.mul_le_mul_left _ (Nat.pow_le_pow_right (by decide) (by omega))
    omega
  obtain ⟨d, hd⟩ := Nat.exists_eq_add_of_le hspacing
  refine ⟨(F.binade + k % F.binade) * 2 ^ d, ?_⟩
  rw [value, F.units_of_le hk, hd, pow_add]
  push_cast
  field_simp

end Format

end LayerSize
